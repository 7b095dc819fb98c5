import CoQueue.Lib.Schedule

/-!
# `BlockingQueue` and its iterator (`blocking_col.rs`, `stream.rs`)

`push`, `pop`, `is_empty` and `len` take the `RwLock` for reading, do one operation of the queue and let go
of it; this is one step. `BlockingIter::next` takes it for writing, once in each pass of its loop, and
makes one access per step: `try_recv` of the outer channel, `write`, and then under the lock `try_recv` of
the inner channel, `is_empty`, `pop` and the release of the lock. The queue itself is a FIFO list.

A `next` that panics under the lock poisons it; from then on everybody who takes the lock panics. Messages
arrive on both channels at any time. `Call` also counts the steps of a call and lists the contents of the
queue at each poll and the values the call has taken; no step reads these.
-/

namespace CoQueue.Blocking

abbrev Tid := Nat

/-- What a `QueueState` says, as a message or as the outcome of a poll; `QueueError` has one value. -/
inductive QueueState (V : Type)
  | error
  | yield (item : V)
  | spin
  | terminate

/-- `Poll<Option<T>>`. -/
inductive Poll (V : Type)
  | item (item : V)
  | none
  | pending

/-- `Option<IterWaker<T>>`. -/
inductive Next (V : Type)
  | item (item : V)
  | poke
  | none

structure Call (V : Type) where
  wakeCount : Nat
  steps : Nat
  polls : List (List V)
  took : List V

/-- The access a thread makes next. -/
inductive Pc (V : Type)
  | idle
  | outerRecv (call : Call V)
  | lockWrite (call : Call V)
  -- with the lock
  | innerRecv (call : Call V)
  | isEmpty (call : Call V)
  | pop (call : Call V)
  | leave (call : Call V) (res : Poll V)
  | panicked

inductive Ret (V : Type)
  | push
  | pop (res : Option V)
  | isEmpty (res : Bool)
  | len (res : Nat)
  | next (res : Next V) (call : Call V)

/-- The values pushed, the values handed out by `pop` and `next`, and what every call returned. -/
structure Hist (V : Type) where
  pushed : List V
  handed : List V
  returns : List (Tid × Ret V)

structure State (V : Type) where
  items : List V
  writer : Option Tid
  poisoned : Bool
  outer : List (QueueState V)
  inner : List (QueueState V)
  pc : Tid → Pc V
  hist : Hist V

section
variable {V : Type}

def Call.new : Call V := ⟨0, 0, [], []⟩

/-- The passes of the loop, the one under way included. -/
def Call.passes (c : Call V) : Nat := c.wakeCount + 1

def Call.tick (c : Call V) : Call V := { c with steps := c.steps + 1 }

def State.init : State V := ⟨[], none, false, [], [], fun _ => .idle, ⟨[], [], []⟩⟩

def State.goto (s : State V) (i : Tid) (pc : Pc V) : State V :=
  { s with pc := Function.update s.pc i pc }

def State.ret (s : State V) (i : Tid) (r : Ret V) : State V :=
  { s with pc := Function.update s.pc i .idle, hist := { s.hist with returns := s.hist.returns ++ [(i, r)] } }

def State.handOut (s : State V) (v : V) : State V :=
  { s with hist := { s.hist with handed := s.hist.handed ++ [v] } }

/-- A panic unwinds through the write guard. -/
def State.poison (s : State V) (i : Tid) : State V :=
  { s with writer := none, poisoned := true }.goto i .panicked

/-- The end of `CoQueue::poll_next`: what it makes of the outcome of the future; `none` is a panic. -/
def pollNext : QueueState V → Option (Poll V)
  | .spin => some .pending
  | .error => none
  | .yield item => some (.item item)
  | .terminate => none

def State.polled (s : State V) (i : Tid) (c : Call V) (r : QueueState V) : State V :=
  match pollNext r with
  | some res => s.goto i (.leave c res)
  | none => s.poison i

def stepPc (s : State V) (i : Tid) : Pc V → Option (State V)
  | .idle | .panicked => none
  -- `self.0.recv.try_recv()`
  | .outerRecv c =>
    match s.outer with
    | .terminate :: outer => some ({ s with outer }.ret i (.next .none c.tick))
    | .error :: outer => some ({ s with outer }.goto i .panicked)
    | outer => some ({ s with outer := outer.tail }.goto i (.lockWrite c.tick))
  -- `self.0.que.write().unwrap()`
  | .lockWrite c =>
    if s.writer = none then
      if s.poisoned then some (s.goto i .panicked)
      else some ({ s with writer := some i }.goto i (.innerRecv c.tick))
    else none
  -- `this.recv.try_recv()`
  | .innerRecv c =>
    match s.inner with
    | .terminate :: inner => some ({ s with inner }.goto i (.leave c.tick .none))
    | .error :: inner => some ({ s with inner }.poison i)
    | inner => some ({ s with inner := inner.tail }.goto i (.isEmpty c.tick))
  -- `FutureStreamOwn::poll`
  | .isEmpty c =>
    let c := { c.tick with polls := c.polls ++ [s.items] }
    if s.items.isEmpty then some (s.polled i c .spin) else some (s.goto i (.pop c))
  | .pop c =>
    match s.items with
    | item :: items => some ({ s with items }.polled i { c.tick with took := c.took ++ [item] } (.yield item))
    | [] => some (s.polled i c.tick .error)
  -- the guard goes out of scope
  | .leave c res =>
    let s := { s with writer := none }
    match res with
    | .item item => some ((s.handOut item).ret i (.next (.item item) c.tick))
    | .none => some (s.ret i (.next .none c.tick))
    | .pending =>
      if c.wakeCount = 20 then some (s.ret i (.next .poke c.tick))
      else some (s.goto i (.outerRecv { c.tick with wakeCount := c.wakeCount + 1 }))

inductive Act (V : Type)
  | push (i : Tid) (item : V)
  | pop (i : Tid)
  | isEmpty (i : Tid)
  | len (i : Tid)
  | next (i : Tid)
  | sendOuter (msg : QueueState V)
  | sendInner (msg : QueueState V)
  | run (i : Tid)

def Pc.isIdle : Pc V → Bool
  | .idle => true
  | _ => false

/-- `self.que.read().unwrap()` and an operation under the lock. -/
def State.read (s : State V) (i : Tid) (op : State V) : Option (State V) :=
  if (s.pc i).isIdle && s.writer.isNone then
    if s.poisoned then some (s.goto i .panicked) else some op
  else none

def step (s : State V) : Act V → Option (State V)
  | .push i item => s.read i ({ s with
      items := s.items ++ [item]
      hist := { s.hist with pushed := s.hist.pushed ++ [item] } }.ret i .push)
  | .pop i => s.read i (match s.items with
    | item :: items => (State.handOut { s with items } item).ret i (.pop (some item))
    | [] => s.ret i (.pop none))
  | .isEmpty i => s.read i (s.ret i (.isEmpty s.items.isEmpty))
  | .len i => s.read i (s.ret i (.len s.items.length))
  | .next i => if (s.pc i).isIdle then some (s.goto i (.outerRecv .new)) else none
  | .sendOuter msg => some { s with outer := s.outer ++ [msg] }
  | .sendInner msg => some { s with inner := s.inner ++ [msg] }
  | .run i => stepPc s i (s.pc i)

end

end CoQueue.Blocking
