import CoQueue.Lib.Schedule

/-!
# `CoQueue` as an interleaved system (`lockless_queue.rs`)

A thread makes one access to shared memory per step: a load, store or `compare_exchange` of an index
or a chunk pointer, an access of a chunk's `next` or of a slot. `Pc` names the access that comes next,
with the local variables that are live there; branches on what was just read belong to the step that
reads it. The scheduler decides whether a `compare_exchange_weak` fails for no reason.

Indices are natural numbers (they are taken not to overflow). Chunks are numbered as they are
allocated, and a number is never used again; a chunk that a thread has allocated and not installed is
dropped when its push returns, which nobody else can see. `freed` lists the chunks that
`Chunk::destroy` gave back.

`Hist` is not read by any step: it logs the chunks in the order they were installed, the successful
claims of `tail.index` and of `head.index`, and what every call returned. A claim is named by its
position, the index without the `HAS_NEXT` bit.
-/

namespace CoQueue.Lockless

abbrev Tid := Nat

abbrev ChunkId := Nat

/-! ### Constants -/

def writeBit : Nat := 1

def readBit : Nat := 2

def destroyBit : Nat := 4

def lap : Nat := 32

def chunkCap : Nat := lap - 1

def shift : Nat := 1

def hasNext : Nat := 1

/-- The position an index stands for: `index >> SHIFT`. -/
def position (index : Nat) : Nat := index >>> shift

def offset (index : Nat) : Nat := position index % lap

theorem position_eq (index : Nat) : position index = index / 2 := Nat.shiftRight_eq_div_pow index 1

theorem or_hasNext {index : Nat} (h : index % 2 = 0) : index ||| hasNext = index + 1 := by
  have hdiv : (index ||| hasNext) / 2 = index / 2 := by
    rw [Nat.or_div_two]; exact Nat.or_zero _
  have hmod : (index ||| hasNext) % 2 = 1 := Nat.or_mod_two_eq_one.2 (.inr rfl)
  omega

theorem and_hasNext (index : Nat) : index &&& hasNext = index % 2 := Nat.and_one_is_mod index

theorem add_and_hasNext (index : Nat) : (index + (1 <<< shift)) &&& hasNext = index % 2 := by
  rw [and_hasNext]
  exact Nat.add_mod_right index 2

/-! ### Memory -/

structure Mem (V : Type) where
  headIndex : Nat
  headChunk : Option ChunkId
  tailIndex : Nat
  tailChunk : Option ChunkId
  next : ChunkId → Option ChunkId
  /-- `Slot::value`, `none` while uninitialised. -/
  value : ChunkId → Nat → Option V
  state : ChunkId → Nat → Nat
  /-- The next chunk the allocator gives out; its memory is zeroed. -/
  fresh : ChunkId
  freed : List ChunkId

/-- `CoQueue::new`. -/
def Mem.new {V : Type} : Mem V := ⟨0, none, 0, none, fun _ => none, fun _ _ => none, fun _ _ => 0, 0, []⟩

/-- `Box::new(Chunk::new())`. -/
def Mem.alloc {V : Type} (m : Mem V) : Mem V := { m with fresh := m.fresh + 1 }

def Mem.setState {V : Type} (m : Mem V) (chunk : ChunkId) (i : Nat) (state : Nat) : Mem V :=
  { m with state := Function.update m.state chunk (Function.update (m.state chunk) i state) }

def Mem.setValue {V : Type} (m : Mem V) (chunk : ChunkId) (i : Nat) (value : V) : Mem V :=
  { m with value := Function.update m.value chunk (Function.update (m.value chunk) i (some value)) }

/-- The access a thread makes next. `tail`, `head`, `chunk`, `nextChunk`, `newHead` and `nextIdx` are the
locals of these names. -/
inductive Pc (V : Type)
  | idle
  -- `push`
  | pushIndex (item : V) (nextChunk : Option ChunkId)
  | pushChunk (item : V) (nextChunk : Option ChunkId) (tail : Nat)
  | pushFirst (item : V) (nextChunk : Option ChunkId) (tail : Nat) (new : ChunkId)
  | pushHead (item : V) (nextChunk : Option ChunkId) (tail : Nat) (new : ChunkId)
  | pushClaim (item : V) (nextChunk : Option ChunkId) (tail : Nat) (chunk : ChunkId)
  -- behind a claim of `tail.index`
  | pushTailChunk (item : V) (tail : Nat) (chunk nextChunk : ChunkId)
  | pushTailIndex (item : V) (tail : Nat) (chunk nextChunk : ChunkId)
  | pushNext (item : V) (tail : Nat) (chunk nextChunk : ChunkId)
  | pushWrite (item : V) (tail : Nat) (chunk : ChunkId)
  | pushFlag (tail : Nat) (chunk : ChunkId)
  -- `pop`
  | popIndex
  | popChunk (head : Nat)
  | popTail (head : Nat) (chunk : Option ChunkId)
  | popClaim (head : Nat) (chunk : ChunkId) (newHead : Nat)
  -- behind a claim of `head.index`
  | popWaitNext (head : Nat) (chunk : ChunkId) (newHead : Nat)
  | popNextNext (head : Nat) (chunk : ChunkId) (newHead : Nat) (next : ChunkId)
  | popHeadChunk (head : Nat) (chunk : ChunkId) (next : ChunkId) (nextIdx : Nat)
  | popHeadIndex (head : Nat) (chunk : ChunkId) (nextIdx : Nat)
  | popWaitWrite (head : Nat) (chunk : ChunkId)
  | popRead (head : Nat) (chunk : ChunkId)
  | popFlag (head : Nat) (chunk : ChunkId) (item : V)
  -- `Chunk::destroy(chunk, ..)` at slot `i`
  | destroyLoad (head : Nat) (chunk : ChunkId) (item : V) (i : Nat)
  | destroyFlag (head : Nat) (chunk : ChunkId) (item : V) (i : Nat)
  | dealloc (head : Nat) (chunk : ChunkId) (item : V)
  /-- `next_chunk.unwrap()` of `None`. -/
  | panicked
  /-- Has read a value that nobody wrote. -/
  | undefined

/-- What a call returned; a value comes with the position of its claim. -/
inductive Ret (V : Type)
  | push (pos : Nat)
  | pop (res : Option (Nat × V))

inductive Event (V : Type)
  | silent
  | installed (chunk : ChunkId)
  | pushed (pos : Nat) (item : V)
  | claimed (pos : Nat)
  | returned (ret : Ret V)

structure Hist (V : Type) where
  chain : List ChunkId
  /-- The successful claims of `tail.index`, with the value each push brings. -/
  pushes : List (Nat × V)
  pops : List Nat
  returns : List (Tid × Ret V)

section
variable {V : Type}

def Hist.log (h : Hist V) (i : Tid) : Event V → Hist V
  | .silent => h
  | .installed c => { h with chain := h.chain ++ [c] }
  | .pushed p v => { h with pushes := h.pushes ++ [(p, v)] }
  | .claimed p => { h with pops := h.pops ++ [p] }
  | .returned r => { h with returns := h.returns ++ [(i, r)] }

/-- The values returned by `pop`, with the positions of their claims. -/
def Hist.popped (h : Hist V) : List (Nat × V) :=
  h.returns.filterMap fun
    | (_, .pop r) => r
    | _ => none

/-! ### Steps -/

/-- `push` gets ready to install the next chunk when it is about to claim the last slot of one. -/
def reserve (m : Mem V) (nextChunk : Option ChunkId) (tail : Nat) : Mem V × Option ChunkId :=
  if offset tail + 1 = chunkCap ∧ nextChunk = none then (m.alloc, some m.fresh) else (m, nextChunk)

/-- `push` goes on to its claim, or to installing the first chunk. -/
def pushTry (m : Mem V) (item : V) (nextChunk : Option ChunkId) (tail : Nat) :
    Option ChunkId → Mem V × Pc V
  | none => (m.alloc, .pushFirst item nextChunk tail m.fresh)
  | some chunk => (m, .pushClaim item nextChunk tail chunk)

/-- The head of the loop of `push`, up to its next access. -/
def pushLoop (m : Mem V) (item : V) (nextChunk : Option ChunkId) (tail : Nat) (chunk : Option ChunkId) :
    Mem V × Pc V :=
  if offset tail = chunkCap then (m, .pushIndex item nextChunk)
  else pushTry (reserve m nextChunk tail).1 item (reserve m nextChunk tail).2 tail chunk

/-- `pop` goes on to its claim, unless there is no chunk yet. -/
def popTry (head newHead : Nat) : Option ChunkId → Pc V
  | none => .popIndex
  | some chunk => .popClaim head chunk newHead

/-- The head of the loop of `pop`, up to its next access. -/
def popLoop (head : Nat) (chunk : Option ChunkId) : Pc V :=
  if offset head = chunkCap then .popIndex
  else if (head + (1 <<< shift)) &&& hasNext = 0 then .popTail head chunk
  else popTry head (head + (1 <<< shift)) chunk

/-- The loop of `Chunk::destroy`, before slot `i`. -/
def destroyLoop (head : Nat) (chunk : ChunkId) (item : V) (i : Nat) : Pc V :=
  if i < chunkCap then .destroyLoad head chunk item i else .dealloc head chunk item

def stepPc (m : Mem V) (spurious : Bool) : Pc V → Option (Mem V × Pc V × Event V)
  | .idle | .panicked | .undefined => none
  | .pushIndex item n => some (m, .pushChunk item n m.tailIndex, .silent)
  | .pushChunk item n tail =>
    some ((pushLoop m item n tail m.tailChunk).1, (pushLoop m item n tail m.tailChunk).2, .silent)
  -- `self.tail.chunk.compare_and_swap(chunk, new, Release) == chunk`
  | .pushFirst item n tail new =>
    if m.tailChunk = none then
      some ({ m with tailChunk := some new }, .pushHead item n tail new, .installed new)
    else some (m, .pushIndex item (some new), .silent)
  | .pushHead item n tail new =>
    some ({ m with headChunk := some new }, .pushClaim item n tail new, .silent)
  -- `self.tail.index.compare_exchange_weak(tail, new_tail, ..)`
  | .pushClaim item n tail chunk =>
    if m.tailIndex = tail ∧ spurious = false then
      let m := { m with tailIndex := tail + (1 <<< shift) }
      if offset tail + 1 = chunkCap then
        match n with
        | some next => some (m, .pushTailChunk item tail chunk next, .pushed (position tail) item)
        | none => some (m, .panicked, .pushed (position tail) item)
      else some (m, .pushWrite item tail chunk, .pushed (position tail) item)
    else some (m, .pushChunk item n m.tailIndex, .silent)
  | .pushTailChunk item tail chunk next =>
    some ({ m with tailChunk := some next }, .pushTailIndex item tail chunk next, .installed next)
  | .pushTailIndex item tail chunk next =>
    some ({ m with tailIndex := tail + (1 <<< shift) + (1 <<< shift) }, .pushNext item tail chunk next,
      .silent)
  | .pushNext item tail chunk next =>
    some ({ m with next := Function.update m.next chunk (some next) }, .pushWrite item tail chunk, .silent)
  | .pushWrite item tail chunk =>
    some (m.setValue chunk (offset tail) item, .pushFlag tail chunk, .silent)
  | .pushFlag tail chunk =>
    some (m.setState chunk (offset tail) (m.state chunk (offset tail) ||| writeBit), .idle,
      .returned (.push (position tail)))
  | .popIndex => some (m, .popChunk m.headIndex, .silent)
  | .popChunk head => some (m, popLoop head m.headChunk, .silent)
  -- `let tail = self.tail.index.load(Relaxed)`
  | .popTail head chunk =>
    if position head = position m.tailIndex then some (m, .idle, .returned (.pop none))
    else if position head / lap ≠ position m.tailIndex / lap then
      some (m, popTry head ((head + (1 <<< shift)) ||| hasNext) chunk, .silent)
    else some (m, popTry head (head + (1 <<< shift)) chunk, .silent)
  -- `self.head.index.compare_exchange_weak(head, new_head, ..)`
  | .popClaim head chunk newHead =>
    if m.headIndex = head ∧ spurious = false then
      if offset head + 1 = chunkCap then
        some ({ m with headIndex := newHead }, .popWaitNext head chunk newHead, .claimed (position head))
      else some ({ m with headIndex := newHead }, .popWaitWrite head chunk, .claimed (position head))
    else some (m, .popChunk m.headIndex, .silent)
  | .popWaitNext head chunk newHead =>
    match m.next chunk with
    | some next => some (m, .popNextNext head chunk newHead next, .silent)
    | none => some (m, .popWaitNext head chunk newHead, .silent)
  -- `(new_head & !HAS_NEXT).wrapping_add(1 << SHIFT)`, and `HAS_NEXT` if `next` is not the last chunk
  | .popNextNext head chunk newHead next =>
    let nextIdx := (position newHead <<< shift) + (1 <<< shift)
    match m.next next with
    | some _ => some (m, .popHeadChunk head chunk next (nextIdx ||| hasNext), .silent)
    | none => some (m, .popHeadChunk head chunk next nextIdx, .silent)
  | .popHeadChunk head chunk next nextIdx =>
    some ({ m with headChunk := some next }, .popHeadIndex head chunk nextIdx, .silent)
  | .popHeadIndex head chunk nextIdx =>
    some ({ m with headIndex := nextIdx }, .popWaitWrite head chunk, .silent)
  | .popWaitWrite head chunk =>
    if m.state chunk (offset head) &&& writeBit = 0 then some (m, .popWaitWrite head chunk, .silent)
    else some (m, .popRead head chunk, .silent)
  | .popRead head chunk =>
    match m.value chunk (offset head) with
    | some item =>
      if offset head + 1 = chunkCap then some (m, destroyLoop head chunk item 0, .silent)
      else some (m, .popFlag head chunk item, .silent)
    | none => some (m, .undefined, .silent)
  -- `slot.state.fetch_or(READ, AcqRel) & DESTROY != 0`
  | .popFlag head chunk item =>
    let state := m.state chunk (offset head)
    let m := m.setState chunk (offset head) (state ||| readBit)
    if state &&& destroyBit ≠ 0 then some (m, destroyLoop head chunk item (offset head + 1), .silent)
    else some (m, .idle, .returned (.pop (some (position head, item))))
  | .destroyLoad head chunk item i =>
    if m.state chunk i &&& readBit = 0 then some (m, .destroyFlag head chunk item i, .silent)
    else some (m, destroyLoop head chunk item (i + 1), .silent)
  -- `slot.state.fetch_or(DESTROY, AcqRel) & READ == 0`
  | .destroyFlag head chunk item i =>
    let state := m.state chunk i
    let m := m.setState chunk i (state ||| destroyBit)
    if state &&& readBit = 0 then some (m, .idle, .returned (.pop (some (position head, item))))
    else some (m, destroyLoop head chunk item (i + 1), .silent)
  | .dealloc head chunk item =>
    some ({ m with freed := m.freed ++ [chunk] }, .idle, .returned (.pop (some (position head, item))))

structure State (V : Type) where
  mem : Mem V
  pc : Tid → Pc V
  hist : Hist V

def State.init : State V := ⟨.new, fun _ => .idle, ⟨[], [], [], []⟩⟩

inductive Act (V : Type)
  | push (i : Tid) (item : V)
  | pop (i : Tid)
  | run (i : Tid) (spurious : Bool)

def State.put (s : State V) (i : Tid) (r : Mem V × Pc V × Event V) : State V :=
  ⟨r.1, Function.update s.pc i r.2.1, s.hist.log i r.2.2⟩

def Pc.isIdle : Pc V → Bool
  | .idle => true
  | _ => false

def State.enter (s : State V) (i : Tid) (pc : Pc V) : Option (State V) :=
  if (s.pc i).isIdle then some { s with pc := Function.update s.pc i pc } else none

def step (s : State V) : Act V → Option (State V)
  | .push i item => s.enter i (.pushIndex item none)
  | .pop i => s.enter i .popIndex
  | .run i spurious => (stepPc s.mem spurious (s.pc i)).map (s.put i)

end

end CoQueue.Lockless
