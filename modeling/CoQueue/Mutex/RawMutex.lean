import CoQueue.Lib.Schedule
import CoQueue.Mutex.Parking

/-!
# `RawMutex` as an interleaved system (`mutex/raw_mutex.rs`)

Any number of threads call `lock`, `try_lock` and `unlock` on any number of mutexes; a mutex is named
by its address. A thread makes one access to shared memory per step: a load or a `compare_exchange`
of `state`, the test of its own futex word, or a whole section of `park` or `unpark_one` under the
lock of a bucket. What a thread then does with its own data (a branch, `spin`, its `resources`)
belongs to the same step. The scheduler decides whether a `compare_exchange_weak` fails for no reason
(`spurious`) and what `FairTimeout::should_timeout` answers (`fair`).

The hash table may grow at any moment: `ThreadData::new` does this when a thread parks or acquires
for the first time, with the locks of all buckets held.
-/

namespace CoQueue.Mutex

def lockedBit : UInt8 := 1

def parkedBit : UInt8 := 2

/-- `state & LOCKED_BIT != 0`. -/
def locked (state : UInt8) : Bool := state &&& lockedBit != 0

/-- `state & PARKED_BIT != 0`. -/
def parked (state : UInt8) : Bool := state &&& parkedBit != 0

theorem locked_or_lockedBit (x : UInt8) : locked (x ||| lockedBit) = true := by
  obtain ⟨x⟩ := x
  revert x
  decide +kernel

@[simp] theorem locked_or_parkedBit (x : UInt8) : locked (x ||| parkedBit) = locked x := by
  obtain ⟨x⟩ := x
  revert x
  decide +kernel

@[simp] theorem parked_or_lockedBit (x : UInt8) : parked (x ||| lockedBit) = parked x := by
  obtain ⟨x⟩ := x
  revert x
  decide +kernel

theorem parked_or_parkedBit (x : UInt8) : parked (x ||| parkedBit) = true := by
  obtain ⟨x⟩ := x
  revert x
  decide +kernel

/-- The access a thread makes next. `wait` is the counter of its `SpinWait`, `state` its local copy of
the mutex's `state`. -/
inductive Pc
  | idle
  -- `lock`
  | lockFast (key : Key)
  | slowLoad (key : Key) (wait : Nat)
  | slowBarge (key : Key) (wait : Nat) (state : UInt8)
  | slowMark (key : Key) (wait : Nat) (state : UInt8)
  | slowPark (key : Key) (wait : Nat)
  | asleep (key : Key) (wait : Nat)
  -- `unlock`
  | unlockFast (key : Key)
  | unlockSlow (key : Key)
  -- `try_lock`
  | tryLoad (key : Key)
  | tryMark (key : Key) (state : UInt8)
deriving DecidableEq

/-- `SpinWait::spin`: the new counter and the answer. -/
def spin (counter : Nat) : Nat × Bool := if 10 ≤ counter then (counter, false) else (counter + 1, true)

/-- The head of the loop of `lock_slow`, up to its next access. -/
def slowLoop (key : Key) (wait : Nat) (state : UInt8) : Pc :=
  if !locked state then .slowBarge key wait state
  else if !parked state && (spin wait).2 then .slowLoad key (spin wait).1
  else if !parked state then .slowMark key wait state
  else .slowPark key wait

/-- The head of the loop of `try_lock`; `idle` is the return of `false`. -/
def tryLoop (key : Key) (state : UInt8) : Pc := if locked state then .idle else .tryMark key state

structure UnparkResult where
  unparkedThreads : Nat
  haveMoreThreads : Bool
  beFair : Bool

/-- The callback of `unlock_slow`: what it leaves in `state`, and the token. -/
def unlockCallback (state : UInt8) (res : UnparkResult) : UInt8 × UnparkToken :=
  if res.unparkedThreads != 0 && res.beFair then
    (if !res.haveMoreThreads then lockedBit else state, tokenHandoff)
  else if res.haveMoreThreads then (parkedBit, tokenNormal)
  else (0, tokenNormal)

theorem unlockCallback_fair (state : UInt8) (more : Bool) :
    unlockCallback state ⟨1, more, true⟩ = (if more then state else lockedBit, tokenHandoff) := by
  cases more <;> rfl

theorem unlockCallback_unfair (state : UInt8) (n : Nat) (more : Bool) :
    unlockCallback state ⟨n, more, false⟩ = (if more then parkedBit else 0, tokenNormal) := by
  simp only [unlockCallback, Bool.and_false, Bool.false_eq_true, if_false]
  split <;> rfl

structure State where
  word : Key → UInt8
  table : HashTable
  thread : Tid → ThreadData
  pc : Tid → Pc

def State.init : State := ⟨fun _ => 0, .create, fun _ => .new, fun _ => .idle⟩

def State.goto (s : State) (i : Tid) (pc : Pc) : State := { s with pc := Function.update s.pc i pc }

def State.setWord (s : State) (key : Key) (state : UInt8) : State :=
  { s with word := Function.update s.word key state }

def State.setThread (s : State) (i : Tid) (d : ThreadData) : State :=
  { s with thread := Function.update s.thread i d }

/-- `acquire_resource` and the return from `lock` or, with `true`, from `try_lock`. -/
def State.acquire (s : State) (i : Tid) (key : Key) : State :=
  (s.setThread i ((s.thread i).acquireResource key)).goto i .idle

/-- The section of `park` under the lock of the bucket: `validate`, then the end of the queue. -/
def State.park (s : State) (i : Tid) (key : Key) (wait : Nat) : State :=
  if s.word key = lockedBit ||| parkedBit then
    let b := s.table.bucket key
    ({ s with table := s.table.setQueue b (s.table.queue b ++ [i]) }.setThread i
      { s.thread i with key, futex := 1 }).goto i (.asleep key wait)
  else s.goto i (.slowLoad key (spin wait).1)

/-- The section of `unpark_one` under the lock of the bucket, with the callback of `unlock_slow`. -/
def State.unparkOne (s : State) (key : Key) (fair : Bool) : State :=
  let b := s.table.bucket key
  match scan (fun j => (s.thread j).key == key) (s.table.queue b) with
  | some (j, more, rest) =>
    let r := unlockCallback (s.word key) ⟨1, more, fair⟩
    (({ s with table := s.table.setQueue b rest }.setThread j
      { s.thread j with unparkToken := r.2, futex := 0 }).setWord key r.1)
  | none => s.setWord key (unlockCallback (s.word key) ⟨0, false, false⟩).1

def stepPc (s : State) (i : Tid) (spurious fair : Bool) : Pc → Option State
  | .idle => none
  -- `self.state.compare_exchange_weak(0, LOCKED_BIT, ..)`, else `lock_slow`
  | .lockFast key =>
    if s.word key = 0 ∧ spurious = false then some ((s.setWord key lockedBit).acquire i key)
    else some (s.goto i (.slowLoad key 0))
  | .slowLoad key wait => some (s.goto i (slowLoop key wait (s.word key)))
  | .slowBarge key wait state =>
    if s.word key = state ∧ spurious = false then
      some ((s.setWord key (state ||| lockedBit)).acquire i key)
    else some (s.goto i (slowLoop key wait (s.word key)))
  | .slowMark key wait state =>
    if s.word key = state ∧ spurious = false then
      some ((s.setWord key (state ||| parkedBit)).goto i (.slowPark key wait))
    else some (s.goto i (slowLoop key wait (s.word key)))
  | .slowPark key wait => some (s.park i key wait)
  -- `while self.futex.load(Acquire) != 0`, then the match on `ParkResult::Unparked`
  | .asleep key wait =>
    if (s.thread i).futex ≠ 0 then none
    else if (s.thread i).unparkToken = tokenHandoff then some (s.acquire i key)
    else some (s.goto i (.slowLoad key (spin wait).1))
  -- `self.state.compare_exchange(LOCKED_BIT, 0, ..)`, else `unlock_slow`
  | .unlockFast key =>
    if s.word key = lockedBit then some ((s.setWord key 0).goto i .idle)
    else some (s.goto i (.unlockSlow key))
  | .unlockSlow key => some ((s.unparkOne key fair).goto i .idle)
  | .tryLoad key => some (s.goto i (tryLoop key (s.word key)))
  -- `self.state.compare_exchange_weak(state, state | PARKED_BIT, ..)`
  | .tryMark key state =>
    if s.word key = state ∧ spurious = false then
      some ((s.setWord key (state ||| parkedBit)).acquire i key)
    else some (s.goto i (tryLoop key (s.word key)))

inductive Act
  | lock (i : Tid) (key : Key)
  | tryLock (i : Tid) (key : Key)
  | unlock (i : Tid) (key : Key)
  | run (i : Tid) (spurious fair : Bool)
  | grow (numThreads : Nat)

def State.enter (s : State) (i : Tid) (pc : Pc) : Option State :=
  if s.pc i = .idle then some (s.goto i pc) else none

def step (s : State) : Act → Option State
  | .lock i key => s.enter i (.lockFast key)
  | .tryLock i key => s.enter i (.tryLoad key)
  -- `release_resource` comes first
  | .unlock i key =>
    (s.enter i (.unlockFast key)).map (·.setThread i ((s.thread i).releaseResource key))
  | .run i spurious fair => stepPc s i spurious fair (s.pc i)
  | .grow numThreads => some { s with table := s.table.grow (fun i => (s.thread i).key) numThreads }

/-- A thread unlocks only what it has acquired. -/
def holderUnlocks (s : State) : Act → Prop
  | .unlock i key => key ∈ (s.thread i).resources
  | _ => True

instance (s : State) : (a : Act) → Decidable (holderUnlocks s a)
  | .unlock i key => inferInstanceAs (Decidable (key ∈ (s.thread i).resources))
  | .lock _ _ | .tryLock _ _ | .run _ _ _ | .grow _ => isTrue trivial

def noTry : Act → Prop
  | .tryLock _ _ => False
  | _ => True

instance : (a : Act) → Decidable (noTry a)
  | .tryLock _ _ => isFalse id
  | .lock _ _ | .unlock _ _ | .run _ _ _ | .grow _ => isTrue trivial

end CoQueue.Mutex
