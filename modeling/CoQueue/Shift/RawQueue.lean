import CoQueue.Lib.Schedule
import CoQueue.Shift.PtrGuard

/-!
# `RawQueue` / `ShiftQueue` as an interleaved system (`queue/mod.rs`)

A thread executes one atomic access per step: a load or `compare_set` of `head`, `tail` or a node's
`next`, one access of a `PtrGuard`, or taking and giving back a guard's `Mootex`. `Pc` names the
access a thread makes next, together with the local variables that are still live there; a branch on
a value just read, and the return that follows it, happen in the step that reads it.

The allocator chooses where a push puts its node: any address at which no node is alive, one that was
freed included. Where a result takes addresses never to be used again, its runs are those in which
every push is `unused`. `0` is the dummy node of `RawQueue::new`. A freed node keeps its contents
until its address is given out again (a late reader sees what was there) and is listed in `freed`.

The slow paths of `_push` and `_pop` print the queue, and printing frees what the guards hold. A
thread at such a place may do so in a step of its own (`Act.print`); in a run without these steps
printing does nothing. The guards' `Mootex` is a lock that blocks until it is free.

`Hist` is not read by any step: it logs the order of the successful links and of the successful
`compare_set`s on `head`, and what every call returned.
-/

namespace CoQueue.Shift

abbrev Tid := Nat

/-- A node's address; `0` is the dummy node. -/
abbrev Addr := Nat

structure Mem (V : Type) where
  /-- `Node::next`, `none` for null. -/
  next : Addr → Option Addr
  /-- `Node::data`, `none` while uninitialised (the dummy). -/
  data : Addr → Option V
  /-- The addresses the allocator has given out, in order. -/
  born : List Addr
  head : Addr
  tail : Addr
  pushGuard : PtrGuard Addr
  popGuard : PtrGuard Addr
  /-- The `Mootex` of `push_guard` and of `pop_guard`: held? -/
  pushLock : Bool
  popLock : Bool
  /-- Every `Owned::drop` of a node so far, in order, up to where its address is given out again. -/
  freed : List Addr

/-- `RawQueue::with_threads`. -/
def Mem.withThreads {V : Type} (threads : Nat) : Mem V where
  next _ := none
  data _ := none
  born := [0]
  head := 0
  tail := 0
  pushGuard := .withThreads threads
  popGuard := .withThreads threads
  pushLock := false
  popLock := false
  freed := []

section
variable {V : Type}

def Mem.live (m : Mem V) (a : Addr) : Prop := a ∈ m.born ∧ a ∉ m.freed

instance (m : Mem V) (a : Addr) : Decidable (m.live a) := inferInstanceAs (Decidable (_ ∧ _))

/-- `Owned::new(Node::new(val))`, at the address `a`. -/
def Mem.alloc (m : Mem V) (a : Addr) (val : V) : Mem V :=
  { m with
    next := Function.update m.next a none
    data := Function.update m.data a (some val)
    born := m.born ++ [a]
    freed := if a ∈ m.born then m.freed.filter (· ≠ a) else m.freed }

theorem Mem.alloc_freed {m : Mem V} {a : Addr} (ha : a ∉ m.born) (val : V) :
    (m.alloc a val).freed = m.freed :=
  if_neg ha

/-- What is printed of a guard: `cap`, `len` and `data`. -/
structure GuardView where
  cap : Nat
  len : Nat
  data : List (Option Addr)

structure QueueView where
  pushGuard : GuardView
  popGuard : GuardView
  head : Addr
  tail : Addr

/-- The entries that `PtrGuard::fmt` collects in its `Vec`. -/
def PtrGuard.copies (g : PtrGuard Addr) : List (Option Addr) := (List.range g.len).map g.slot

/-- `PtrGuard::fmt`, with the drop of its `Vec`. -/
def Mem.fmtGuard (m : Mem V) (g : PtrGuard Addr) : GuardView × Mem V :=
  (⟨g.cap, g.len, g.copies⟩, { m with freed := m.freed ++ g.copies.flatMap Option.toList })

/-- `RawQueue::fmt`. -/
def Mem.fmt (m : Mem V) : QueueView × Mem V :=
  let push := m.fmtGuard m.pushGuard
  let pop := push.2.fmtGuard push.2.popGuard
  (⟨push.1, pop.1, pop.2.head, pop.2.tail⟩, pop.2)

end

/-- The places where the code gives up. -/
inductive Panic
  /-- `assert!(res.is_ok(), "swap to new tail failed")` behind the common link. -/
  | swapTail
  /-- The same assertion behind the link of a stolen node. -/
  | swapStolen
  /-- `panic!("push_guard failed to push ..")` behind the failed help. -/
  | guardHelp
  /-- The same panic behind the failed common link. -/
  | guardLink
  /-- `assert!(self.pop_guard.push(old_head.into_owned()).is_ok())`. -/
  | refill
deriving DecidableEq, Repr

/-- The access a thread makes next. In `push`, `new` is the node being pushed and `tail` the local
copy of `self.tail`; in `_pop`, `head` and `next` are the locals of these names. -/
inductive Pc
  | idle
  -- `_push`
  | loadTail (new : Addr)
  | loadNext (new tail : Addr)
  | helpTail (new tail : Addr)
  | isEmpty (new tail : Addr)
  | recheck (new tail : Addr)
  | link (new tail : Addr)
  | swing (new tail : Addr)
  -- `push_guard.push(new_node.into_owned())`; `site` is the panic its failure raises
  | stashLen (site : Panic) (new : Addr)
  | stashWrite (new len : Addr)
  | stashCas (new len : Addr)
  -- the branch that takes stolen nodes, under the lock of `push_guard`
  | lockPush (new tail : Addr)
  | stealLen (new tail : Addr)
  | stealCas (new tail len : Addr)
  | stealRead (new tail len : Addr)
  | stolenCheck (new tail shared : Addr)
  | stolenNext (new tail shared : Addr)
  | stolenLink (new tail shared : Addr) (curr : Option Addr)
  | stolenSwing (new tail shared : Addr)
  | unlockPush (new : Addr)
  -- `_pop`
  | loadHead
  | headNext (head : Addr)
  | casHead (head next : Addr)
  | retireLen (head next : Addr)
  | retireWrite (head next len : Addr)
  | retireCas (head next len : Addr)
  -- its overflow branch, under the lock of `pop_guard`
  | lockPop (head next : Addr)
  | sweepLen (head next : Addr)
  | sweepCas (head next len : Addr)
  | sweepRead (head next len : Addr)
  | refillLen (head next : Addr)
  | refillWrite (head next len : Addr)
  | refillCas (head next len : Addr)
  | unlockPop (next : Addr)
  | readData (next : Addr)
  -- `is_empty`
  | emptyHead
  | emptyNext (head : Addr)
  | panicked (site : Panic)
  /-- Has used memory that nobody initialised; there is no next step. -/
  | undefined
deriving DecidableEq, Repr

/-- What a call returned; a pushed or popped value comes with the node that held it. -/
inductive Ret (V : Type)
  | push (node : Addr)
  | tryPop (res : Option (Addr × V))
  | isEmpty (res : Bool)
deriving DecidableEq, Repr

structure Hist (V : Type) where
  /-- The nodes in the order they were linked. -/
  linked : List Addr
  /-- The nodes `head` was moved to, in the order of the successful `compare_set`s on `head`. -/
  claims : List Addr
  returns : List (Tid × Ret V)

inductive Event (V : Type)
  | silent
  | linked (node : Addr)
  | claimed (node : Addr)
  | returned (ret : Ret V)

def Hist.log {V : Type} (h : Hist V) (i : Tid) : Event V → Hist V
  | .silent => h
  | .linked a => { h with linked := h.linked ++ [a] }
  | .claimed a => { h with claims := h.claims ++ [a] }
  | .returned r => { h with returns := h.returns ++ [(i, r)] }

section
variable {V : Type}

def Hist.pushed (h : Hist V) : List Addr :=
  h.returns.filterMap fun
    | (_, .push a) => some a
    | _ => none

/-- The values returned by `try_pop`, with the nodes they come from. -/
def Hist.popped (h : Hist V) : List (Addr × V) :=
  h.returns.filterMap fun
    | (_, .tryPop r) => r
    | _ => none

def stepPc (m : Mem V) : Pc → Option (Mem V × Pc × Event V)
  | .idle | .panicked _ | .undefined => none
  -- `let mut tail = self.tail.load(Acquire); let next = tail.next();`
  | .loadTail new => some (m, .loadNext new m.tail, .silent)
  | .loadNext new tail =>
    match m.next tail with
    | some _ => some (m, .helpTail new tail, .silent)
    | none => some (m, .isEmpty new tail, .silent)
  -- half way through an insert: `self.tail.compare_set(tail, new_node, Release)`
  | .helpTail new tail =>
    if m.tail = tail then some ({ m with tail := new }, .idle, .returned (.push new))
    else some (m, .stashLen .guardHelp new, .silent)
  -- `self.push_guard.is_empty() && tail.next().is_null()`
  | .isEmpty new tail =>
    if m.pushGuard.isEmpty then some (m, .recheck new tail, .silent)
    else some (m, .lockPush new tail, .silent)
  | .recheck new tail =>
    match m.next tail with
    | none => some (m, .link new tail, .silent)
    | some _ => some (m, .lockPush new tail, .silent)
  -- `tail.next.compare_set(Shared::null(), new_node, Release)`
  | .link new tail =>
    match m.next tail with
    | none =>
      some ({ m with next := Function.update m.next tail (some new) }, .swing new tail, .linked new)
    | some _ => some (m, .stashLen .guardLink new, .silent)
  | .swing new tail =>
    if m.tail = tail then some ({ m with tail := new }, .idle, .returned (.push new))
    else some (m, .panicked .swapTail, .silent)
  -- `PtrGuard::push`; the rejected `Owned` is dropped before the panic
  | .stashLen site new =>
    if m.pushGuard.len = m.pushGuard.cap then
      some ({ m with freed := m.freed ++ [new] }, .panicked site, .silent)
    else some (m, .stashWrite new m.pushGuard.len, .silent)
  | .stashWrite new len =>
    some ({ m with pushGuard := m.pushGuard.write len new }, .stashCas new len, .silent)
  | .stashCas new len =>
    some ({ m with pushGuard := m.pushGuard.compareAndSwap len (len + 1) }, .loadTail new, .silent)
  -- `let _lock = self.push_guard.lock(); self.push_guard.pop()`
  | .lockPush new tail =>
    if m.pushLock then none else some ({ m with pushLock := true }, .stealLen new tail, .silent)
  | .stealLen new tail =>
    if m.pushGuard.len = 0 then some (m, .unlockPush new, .silent)
    else some (m, .stealCas new tail m.pushGuard.len, .silent)
  | .stealCas new tail len =>
    some ({ m with pushGuard := m.pushGuard.compareAndSwap len (len - 1) }, .stealRead new tail len,
      .silent)
  | .stealRead new tail len =>
    match m.pushGuard.slot len with
    | some shared => some (m, .stolenCheck new tail shared, .silent)
    | none => some (m, .undefined, .silent)
  -- `if tail.next().is_null()`, then `tail.next.compare_set(tail.next(), shared, Release)`
  | .stolenCheck new tail shared =>
    match m.next tail with
    | none => some (m, .stolenNext new tail shared, .silent)
    | some _ => some (m, .unlockPush new, .silent)
  | .stolenNext new tail shared => some (m, .stolenLink new tail shared (m.next tail), .silent)
  | .stolenLink new tail shared curr =>
    if m.next tail = curr then
      some ({ m with next := Function.update m.next tail (some shared) },
        .stolenSwing new tail shared, .linked shared)
    else some (m, .unlockPush new, .silent)
  | .stolenSwing new tail shared =>
    if m.tail = tail then some ({ m with tail := shared }, .unlockPush new, .silent)
    else some ({ m with pushLock := false }, .panicked .swapStolen, .silent)
  | .unlockPush new => some ({ m with pushLock := false }, .loadTail new, .silent)
  -- `let head = self.head.load(Acquire); let next = (*head).next();`
  | .loadHead => some (m, .headNext m.head, .silent)
  | .headNext head =>
    match m.next head with
    | none => some (m, .idle, .returned (.tryPop none))
    | some next => some (m, .casHead head next, .silent)
  | .casHead head next =>
    if m.head = head then some ({ m with head := next }, .retireLen head next, .claimed next)
    else some (m, .loadHead, .silent)
  -- `self.pop_guard.push(old_head.into_owned()).is_err()`: the rejected `Owned` is dropped here
  | .retireLen head next =>
    if m.popGuard.len = m.popGuard.cap then
      some ({ m with freed := m.freed ++ [head] }, .lockPop head next, .silent)
    else some (m, .retireWrite head next m.popGuard.len, .silent)
  | .retireWrite head next len =>
    some ({ m with popGuard := m.popGuard.write len head }, .retireCas head next len, .silent)
  | .retireCas _ next len =>
    some ({ m with popGuard := m.popGuard.compareAndSwap len (len + 1) }, .readData next, .silent)
  | .lockPop head next =>
    if m.popLock then none else some ({ m with popLock := true }, .sweepLen head next, .silent)
  -- `while let Ok(_popped) = self.pop_guard.pop() {}`: each `_popped` is dropped
  | .sweepLen head next =>
    if m.popGuard.len = 0 then some (m, .refillLen head next, .silent)
    else some (m, .sweepCas head next m.popGuard.len, .silent)
  | .sweepCas head next len =>
    some ({ m with popGuard := m.popGuard.compareAndSwap len (len - 1) }, .sweepRead head next len,
      .silent)
  | .sweepRead head next len =>
    -- nothing is freed through a slot that was never written, such as the one behind the guard
    some ({ m with freed := m.freed ++ (m.popGuard.slot len).toList }, .sweepLen head next, .silent)
  -- `assert!(self.pop_guard.push(old_head.into_owned()).is_ok())`
  | .refillLen head next =>
    if m.popGuard.len = m.popGuard.cap then
      some ({ m with freed := m.freed ++ [head], popLock := false }, .panicked .refill, .silent)
    else some (m, .refillWrite head next m.popGuard.len, .silent)
  | .refillWrite head next len =>
    some ({ m with popGuard := m.popGuard.write len head }, .refillCas head next len, .silent)
  | .refillCas _ next len =>
    some ({ m with popGuard := m.popGuard.compareAndSwap len (len + 1) }, .unlockPop next, .silent)
  | .unlockPop next => some ({ m with popLock := false }, .readData next, .silent)
  -- `Some(ptr::read((*next).data.deref()))`
  | .readData next =>
    match m.data next with
    | some v => some (m, .idle, .returned (.tryPop (some (next, v))))
    | none => some (m, .undefined, .silent)
  -- `is_empty`
  | .emptyHead => some (m, .emptyNext m.head, .silent)
  | .emptyNext head => some (m, .idle, .returned (.isEmpty (m.next head).isNone))

structure State (V : Type) where
  mem : Mem V
  pc : Tid → Pc
  hist : Hist V

def State.init (threads : Nat) : State V where
  mem := .withThreads threads
  pc _ := .idle
  hist := ⟨[], [], []⟩

inductive Act (V : Type)
  /-- `push` is called, and the allocator puts the new node at `addr`. -/
  | push (i : Tid) (val : V) (addr : Addr)
  | tryPop (i : Tid)
  | isEmpty (i : Tid)
  | run (i : Tid)
  /-- The thread prints the queue. -/
  | print (i : Tid)

def State.enter (s : State V) (i : Tid) (m : Mem V) (pc : Pc) : Option (State V) :=
  if s.pc i = .idle then some { s with mem := m, pc := Function.update s.pc i pc } else none

/-- The thread has come to a `println!` or `panic!` of the queue. -/
def Pc.prints : Pc → Bool
  -- "needed to use PtrGuard", "cmp_exc tail and push_guard", "cmp_set head with next _pop"
  | .stealLen _ _ | .unlockPush _ | .loadHead => true
  -- "push_guard failed to push"
  | .panicked .guardHelp | .panicked .guardLink => true
  | _ => false

def State.put (s : State V) (i : Tid) (r : Mem V × Pc × Event V) : State V where
  mem := r.1
  pc := Function.update s.pc i r.2.1
  hist := s.hist.log i r.2.2

def step (s : State V) : Act V → Option (State V)
  | .push i val addr =>
    if s.mem.live addr then none else s.enter i (s.mem.alloc addr val) (.loadTail addr)
  | .tryPop i => s.enter i s.mem .loadHead
  | .isEmpty i => s.enter i s.mem .emptyHead
  | .run i => (stepPc s.mem (s.pc i)).map (s.put i)
  | .print i => if (s.pc i).prints then some { s with mem := s.mem.fmt.2 } else none

def Act.tid : Act V → Tid
  | .push i _ _ | .tryPop i | .isEmpty i | .run i | .print i => i

/-- The allocator has not given out the address of the new node before. -/
def unused (s : State V) : Act V → Bool
  | .push _ _ addr => decide (addr ∉ s.mem.born)
  | _ => true

theorem enter_eq {s s' : State V} {i : Tid} {m : Mem V} {pc : Pc} (hs : s.enter i m pc = some s') :
    s.pc i = .idle ∧ s' = { s with mem := m, pc := Function.update s.pc i pc } := by
  unfold State.enter at hs
  split at hs
  · cases hs; exact ⟨‹_›, rfl⟩
  · cases hs

theorem step_push {s s' : State V} {i : Tid} {val : V} {a : Addr} (hs : step s (.push i val a) = some s') :
    s.pc i = .idle ∧ s' = ⟨s.mem.alloc a val, Function.update s.pc i (.loadTail a), s.hist⟩ := by
  simp only [step] at hs
  split at hs
  · cases hs
  · exact enter_eq hs

theorem step_print {s s' : State V} {i : Tid} (hs : step s (.print i) = some s') :
    (s.pc i).prints = true ∧ s' = { s with mem := s.mem.fmt.2 } := by
  simp only [step] at hs
  split at hs
  · cases hs; exact ⟨‹_›, rfl⟩
  · cases hs

theorem step_run {s s' : State V} {i : Tid} (hs : step s (.run i) = some s') :
    ∃ r, stepPc s.mem (s.pc i) = some r ∧ s' = s.put i r := by
  obtain ⟨r, hr, rfl⟩ := Option.map_eq_some_iff.1 hs
  exact ⟨r, hr, rfl⟩

theorem step_pc_of_ne {s s' : State V} {a : Act V} {j : Tid} (hs : step s a = some s')
    (hj : a.tid ≠ j) : s'.pc j = s.pc j := by
  cases a with
  | push i val addr =>
    obtain ⟨-, rfl⟩ := step_push hs
    exact Function.update_of_ne (Ne.symm hj) _ _
  | tryPop i | isEmpty i =>
    obtain ⟨-, rfl⟩ := enter_eq hs
    exact Function.update_of_ne (Ne.symm hj) _ _
  | run i =>
    obtain ⟨r, -, rfl⟩ := step_run hs
    exact Function.update_of_ne (Ne.symm hj) _ _
  | print i =>
    obtain ⟨-, rfl⟩ := step_print hs
    rfl

theorem idle_of_bounded {C : State V → Act V → Prop} {n threads : Nat} {s : State V}
    (hC : ∀ s a, C s a → a.tid < n) (h : Schedule.Run step C (.init threads) s) {j : Tid}
    (hj : n ≤ j) : s.pc j = .idle := by
  refine h.invariant (P := fun s => s.pc j = .idle) rfl fun t a u ht ha hs => ?_
  have hlt := hC t a ha
  rw [step_pc_of_ne hs (Nat.ne_of_lt (Nat.lt_of_lt_of_le hlt hj))]
  exact ht

/-! ### Where a thread is -/

/-- The node a thread inside `push` wants to insert, until it is linked. -/
def Pc.new : Pc → Option Addr
  | .loadTail a | .loadNext a _ | .helpTail a _ | .isEmpty a _ | .recheck a _ | .link a _
  | .stashLen _ a | .stashWrite a _ | .stashCas a _ | .lockPush a _ | .stealLen a _
  | .stealCas a _ _ | .stealRead a _ _ | .stolenCheck a _ _ | .stolenNext a _ _
  | .stolenLink a _ _ _ | .stolenSwing a _ _ | .unlockPush a => some a
  | _ => none

/-- The copy of `self.tail` a thread works with, while its node is not linked. -/
def Pc.tail : Pc → Option Addr
  | .loadNext _ t | .helpTail _ t | .isEmpty _ t | .recheck _ t | .link _ t | .lockPush _ t
  | .stealLen _ t | .stealCas _ t _ | .stealRead _ t _ | .stolenCheck _ t _ | .stolenNext _ t _
  | .stolenLink _ t _ _ | .stolenSwing _ t _ => some t
  | _ => none

def Pc.pushing : Pc → Bool
  | .swing _ _ => true
  | pc => pc.new.isSome

/-- The node a thread inside `try_pop` has moved `head` to and whose value it has yet to return. -/
def Pc.taking : Pc → Option Addr
  | .retireLen _ a | .retireWrite _ a _ | .retireCas _ a _ | .lockPop _ a | .sweepLen _ a
  | .sweepCas _ a _ | .sweepRead _ a _ | .refillLen _ a | .refillWrite _ a _ | .refillCas _ a _
  | .unlockPop a | .readData a => some a
  | _ => none

end

end CoQueue.Shift
