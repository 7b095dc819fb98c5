import CoQueue.Mutex.Lot

/-!
# `RawMutex` on the parking lot

The mutex of `RawMutex` together with the parking lot of `Lot`: `lock_slow` calls `park` with `validate`, and
`unlock_slow` calls `unpark_one` with the callback that changes `state`. Both are run where the parking lot runs
them, under the lock of the bucket. `with_thread_data` makes the `ThreadData` of a thread that has none, which may
grow the hash table; that happens in `park`, in `acquire_resource` and in `release_resource`.

A thread is at `pc` in the code of the mutex, and inside of the parking lot at `lot.pc` unless that is `idle`. It
goes on in the mutex when the parking lot has returned. `pc` is moved on already when the result is known: after
`unpark_one` has run the callback, and after `park` has found the thread not to be `validate`d or has put it into
the queue.
-/

namespace CoQueue.Mutex.Whole

open Lot (Choice Event)

structure State where
  word : Key → UInt8
  resources : Tid → List Key
  lot : Lot.State
  pc : Tid → Pc

def State.init : State := ⟨fun _ => 0, fun _ => [], .init, fun _ => .idle⟩

def State.goto (s : State) (i : Tid) (pc : Pc) : State := { s with pc := Function.update s.pc i pc }

def State.setWord (s : State) (key : Key) (state : UInt8) : State :=
  { s with word := Function.update s.word key state }

def State.setResources (s : State) (i : Tid) (resources : List Key) : State :=
  { s with resources := Function.update s.resources i resources }

/-- `with_thread_data`, up to the first access of `ThreadData::new`. -/
def State.withThreadData (s : State) (i : Tid) : State :=
  if s.lot.data i then s else { s with lot := s.lot.goto i .count }

/-- `acquire_resource` and the return from `lock` or `try_lock`. -/
def State.acquire (s : State) (i : Tid) (key : Key) : State :=
  ((s.setResources i (s.resources i ++ [key])).goto i .idle).withThreadData i

/-- The closures that the mutex passes to the parking lot. -/
def State.closures (s : State) (x : Choice) : Pc → Choice
  | .slowPark key _ => { x with validate := s.word key == lockedBit ||| parkedBit }
  | .unlockSlow key => { x with callback := fun res => (unlockCallback (s.word key) res).2 }
  | _ => x

/-- What the mutex makes of what the parking lot has done. `lock_slow` passes no timeout. -/
def State.returned (s : State) (i : Tid) : Pc → Event → State
  | .slowPark key wait, .queued _ _ => s.goto i (.asleep key wait)
  | .slowPark key wait, .invalid _ _ => s.goto i (.slowLoad key (spin wait).1)
  | .asleep key wait, .woken _ token =>
    if token = tokenHandoff then s.acquire i key else s.goto i (.slowLoad key (spin wait).1)
  | .unlockSlow key, .unparked _ _ result =>
    (s.setWord key (unlockCallback (s.word key) result).1).goto i .idle
  | _, _ => s

/-- A step inside of the parking lot. -/
def State.runLot (s : State) (i : Tid) (x : Choice) : Option State :=
  let a := Lot.Act.run i (s.closures x (s.pc i))
  (Lot.step s.lot a).map fun lot => match Lot.event s.lot a with
    | some e => { s with lot }.returned i (s.pc i) e
    | none => { s with lot }

def stepPc (s : State) (i : Tid) (spurious : Bool) : Pc → Option State
  | .idle | .asleep _ _ => none
  -- `self.state.compare_exchange_weak(0, LOCKED_BIT, ..)`, else `lock_slow`
  | .lockFast key =>
    if s.word key = 0 ∧ spurious = false then some ((s.setWord key lockedBit).acquire i key)
    else some (s.goto i (.slowLoad key 0))
  | .slowLoad key wait => some (s.goto i (slowLoop key wait (s.word key)))
  | .slowBarge key wait state =>
    if s.word key = state ∧ spurious = false then
      some ((s.setWord key (state ||| lockedBit)).acquire i key)
    else some (s.goto i (slowLoop key wait (s.word key)))
  | .slowMark key wait state =>
    if s.word key = state ∧ spurious = false then
      some ((s.setWord key (state ||| parkedBit)).goto i (.slowPark key wait))
    else some (s.goto i (slowLoop key wait (s.word key)))
  -- `deadlock::park(addr, .., DEFAULT_PARK_TOKEN, None)`
  | .slowPark key _ =>
    (Lot.step s.lot (if s.lot.data i then .park i key 0 false else .start i)).map fun lot => { s with lot }
  -- `self.state.compare_exchange(LOCKED_BIT, 0, ..)`, else `unlock_slow`
  | .unlockFast key =>
    if s.word key = lockedBit then some ((s.setWord key 0).goto i .idle)
    else some (s.goto i (.unlockSlow key))
  -- `deadlock::unpark_one(addr, cb)`
  | .unlockSlow key => (Lot.step s.lot (.unparkOne i key)).map fun lot => { s with lot }
  | .tryLoad key => some (s.goto i (tryLoop key (s.word key)))
  -- `self.state.compare_exchange_weak(state, state | PARKED_BIT, ..)`
  | .tryMark key state =>
    if s.word key = state ∧ spurious = false then
      some ((s.setWord key (state ||| parkedBit)).acquire i key)
    else some (s.goto i (tryLoop key (s.word key)))

inductive Act
  | lock (i : Tid) (key : Key)
  | tryLock (i : Tid) (key : Key)
  | unlock (i : Tid) (key : Key)
  | exit (i : Tid)
  | run (i : Tid) (spurious : Bool) (x : Choice)

def State.enter (s : State) (i : Tid) (pc : Pc) : Option State :=
  if s.pc i = .idle ∧ s.lot.pc i = .idle then some (s.goto i pc) else none

def step (s : State) : Act → Option State
  | .lock i key => s.enter i (.lockFast key)
  | .tryLock i key => s.enter i (.tryLoad key)
  -- `release_resource` comes first
  | .unlock i key => (s.enter i (.unlockFast key)).map fun s =>
    (s.setResources i (releaseResource (s.resources i) key)).withThreadData i
  -- the `ThreadData` is dropped, with the `resources` it has
  | .exit i => if s.pc i = .idle then
      (Lot.step s.lot (.exit i)).map fun lot => { s with lot }.setResources i []
    else none
  | .run i spurious x => if s.lot.pc i = .idle then stepPc s i spurious (s.pc i) else s.runLot i x

/-- A thread ends only when it has unlocked what it has acquired. -/
def endsFree (s : State) : Act → Prop
  | .exit i => s.resources i = []
  | _ => True

/-- A thread unlocks only what it has acquired, and does so before it ends. -/
def holderUnlocks (s : State) : Act → Prop
  | .unlock i key => key ∈ s.resources i
  | .exit i => s.resources i = []
  | _ => True

instance (s : State) : (a : Act) → Decidable (holderUnlocks s a)
  | .unlock i key => inferInstanceAs (Decidable (key ∈ s.resources i))
  | .exit i => inferInstanceAs (Decidable (s.resources i = []))
  | .lock _ _ | .tryLock _ _ | .run _ _ _ => isTrue trivial

theorem endsFree_of_holder {s : State} {a : Act} (h : holderUnlocks s a) : endsFree s a := by
  cases a with
  | exit => exact h
  | _ => trivial

def noTry : Act → Prop
  | .tryLock _ _ => False
  | _ => True

instance : (a : Act) → Decidable (noTry a)
  | .tryLock _ _ => isFalse id
  | .lock _ _ | .unlock _ _ | .exit _ | .run _ _ _ => isTrue trivial

end CoQueue.Mutex.Whole
