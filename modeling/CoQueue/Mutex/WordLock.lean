import CoQueue.Lib.Mask
import CoQueue.Lib.Schedule
import CoQueue.Mutex.RawMutex

/-!
# `WordLock` as an interleaved system (`mod word_lock` of `mutex/deadlock.rs`)

The lock of a bucket: one `usize` with a lock bit, a bit that locks the queue of waiting threads, and
the address of the newest waiting thread's `ThreadData` in the bits above. Any number of threads call
`lock` and `unlock`; each step is one access to shared memory, as for `RawMutex`, and the scheduler
decides whether a `compare_exchange_weak` fails for no reason (`spurious`).

A `ThreadData` lives on the stack of `with_thread_data` (`IS_CHEAP_TO_CONSTRUCT`): it is made where the
scheduler says (`addr`, any aligned address that is not in use), and it is gone when the closure returns.
`mem` is `none` at an address without one; an access there is undefined behaviour, here the end of the
thread in `crash`. `FUTEX_WAKE` makes no access: it may be called with the address of a `ThreadData` that
is gone, or in use by another thread by then.
-/

namespace CoQueue.Mutex.WordLock

abbrev Usize := BitVec 64

def lockedBit : Usize := 1

def queueLockedBit : Usize := 2

def queueMask : Usize := ~~~3

/-! ### `LockState` -/

def isLocked (state : Usize) : Bool := state &&& lockedBit != 0

def isQueueLocked (state : Usize) : Bool := state &&& queueLockedBit != 0

def queueHead (state : Usize) : Usize := state &&& queueMask

def withQueueHead (state threadData : Usize) : Usize := state &&& ~~~queueMask ||| threadData

/-- The low bits of the address are free for the two flags. -/
def Aligned (p : Usize) : Prop := p &&& ~~~queueMask = 0

instance (p : Usize) : Decidable (Aligned p) := inferInstanceAs (Decidable (_ = _))

section
variable (w : Usize) {p : Usize}

@[simp] theorem isLocked_or_lockedBit : isLocked (w ||| lockedBit) = true := by
  rw [isLocked, BitVec.and_or_distrib_right, bne_iff_ne]
  intro h
  exact absurd (BitVec.or_eq_zero_iff.1 h).2 (by decide)

@[simp] theorem isQueueLocked_or_lockedBit : isQueueLocked (w ||| lockedBit) = isQueueLocked w := by
  rw [isQueueLocked, isQueueLocked, Mask.or_field w (by decide)]

@[simp] theorem queueHead_or_lockedBit : queueHead (w ||| lockedBit) = queueHead w :=
  Mask.or_field w (by decide)

@[simp] theorem isLocked_or_queueLockedBit : isLocked (w ||| queueLockedBit) = isLocked w := by
  rw [isLocked, isLocked, Mask.or_field w (by decide)]

@[simp] theorem isQueueLocked_or_queueLockedBit : isQueueLocked (w ||| queueLockedBit) = true := by
  rw [isQueueLocked, BitVec.and_or_distrib_right, bne_iff_ne]
  intro h
  exact absurd (BitVec.or_eq_zero_iff.1 h).2 (by decide)

@[simp] theorem queueHead_or_queueLockedBit : queueHead (w ||| queueLockedBit) = queueHead w :=
  Mask.or_field w (by decide)

@[simp] theorem isLocked_andNot_queueLockedBit : isLocked (w &&& ~~~queueLockedBit) = isLocked w := by
  rw [isLocked, isLocked, Mask.andNot_field w (by decide)]

@[simp] theorem isQueueLocked_andNot_queueLockedBit : isQueueLocked (w &&& ~~~queueLockedBit) = false := by
  rw [isQueueLocked, Mask.and_field_outside w (by decide)]
  rfl

@[simp] theorem queueHead_andNot_queueLockedBit : queueHead (w &&& ~~~queueLockedBit) = queueHead w :=
  Mask.andNot_field w (by decide)

@[simp] theorem isLocked_and_lockedBit : isLocked (w &&& lockedBit) = isLocked w := by
  rw [isLocked, isLocked, Mask.and_field_inside w (by decide)]

@[simp] theorem isQueueLocked_and_lockedBit : isQueueLocked (w &&& lockedBit) = false := by
  rw [isQueueLocked, Mask.and_field_outside w (by decide)]
  rfl

@[simp] theorem queueHead_and_lockedBit : queueHead (w &&& lockedBit) = 0 :=
  Mask.and_field_outside w (by decide)

/-- `fetch_sub(LOCKED_BIT)` of a locked word clears the bit. -/
theorem sub_lockedBit (h : isLocked w) : w - lockedBit = w &&& ~~~lockedBit := by
  have hbit : w &&& BitVec.twoPow 64 0 = if w.getLsbD 0 then BitVec.twoPow 64 0 else 0#64 :=
    BitVec.and_twoPow w 0
  refine Mask.sub_of_field ?_
  split at hbit
  · exact hbit
  · rw [isLocked, show w &&& lockedBit = 0 from hbit] at h
    cases h

theorem isLocked_sub_lockedBit (h : isLocked w) : isLocked (w - lockedBit) = false := by
  rw [sub_lockedBit w h, isLocked, Mask.and_field_outside w (by decide)]
  rfl

theorem isQueueLocked_sub_lockedBit (h : isLocked w) :
    isQueueLocked (w - lockedBit) = isQueueLocked w := by
  rw [sub_lockedBit w h, isQueueLocked, isQueueLocked, Mask.andNot_field w (by decide)]

theorem queueHead_sub_lockedBit (h : isLocked w) : queueHead (w - lockedBit) = queueHead w := by
  rw [sub_lockedBit w h]
  exact Mask.andNot_field w (by decide)

theorem isLocked_withQueueHead (h : Aligned p) : isLocked (withQueueHead w p) = isLocked w := by
  rw [isLocked, withQueueHead, Mask.or_field _ (Mask.field_eq_zero h (by decide)),
    Mask.and_field_inside w (by decide)]
  rfl

theorem isQueueLocked_withQueueHead (h : Aligned p) :
    isQueueLocked (withQueueHead w p) = isQueueLocked w := by
  rw [isQueueLocked, withQueueHead, Mask.or_field _ (Mask.field_eq_zero h (by decide)),
    Mask.and_field_inside w (by decide)]
  rfl

theorem queueHead_withQueueHead (h : Aligned p) : queueHead (withQueueHead w p) = p := by
  rw [queueHead, withQueueHead, BitVec.and_or_distrib_right, Mask.and_field_outside w (by decide),
    BitVec.zero_or]
  conv_rhs => rw [Mask.eq_or_field p (~~~queueMask), show p &&& ~~~queueMask = 0 from h]
  rw [BitVec.not_not, show (0 : Usize) = 0#64 from rfl, BitVec.or_zero]

end

/-! ### Threads -/

/-- `word_lock::ThreadData`, with `parker.futex`; `0` is the null pointer. -/
structure ThreadData where
  futex : Nat
  queueTail : Usize
  prev : Usize
  next : Usize

/-- `ThreadData::new`. -/
def ThreadData.new : ThreadData := ⟨0, 0, 0, 0⟩

/-- The `ThreadData` at `me` when `lock_slow` is about to put it in front of the queue of `state`:
`prepare_park` and the pointers. -/
def ThreadData.prepare (state me : Usize) : ThreadData :=
  if queueHead state = 0 then { ThreadData.new with futex := 1, queueTail := me, prev := 0 }
  else { ThreadData.new with futex := 1, queueTail := 0, prev := 0, next := queueHead state }

/-- The access a thread makes next. `wait` is the counter of its `SpinWait`, `state` its local copy of
the lock's `state`, `me` the address of its own `ThreadData`. -/
inductive Pc
  | idle
  -- `lock`
  | lockFast
  | slowLoad (wait : Nat)
  | slowGrab (wait : Nat) (state : Usize)
  | slowPrepare (wait : Nat) (state : Usize)
  | slowPush (wait : Nat) (state me : Usize)
  | park (me : Usize)
  | futexWait (me : Usize)
  | asleep (me : Usize)
  | woken (me : Usize)
  | holding
  -- `unlock`
  | unlockFast
  | unlockLoad
  | unlockTry (state : Usize)
  -- `unlock_slow` with the queue locked
  | scan (state current : Usize)
  | link (state current : Usize)
  | setTail (state queueTail : Usize)
  | settle (state : Usize)
  | newTail (state queueTail : Usize)
  | dropLast (state queueTail : Usize)
  | cut (state queueTail newTail : Usize)
  | leave (queueTail : Usize)
  -- and after it
  | unpark (queueTail : Usize)
  | wake (queueTail : Usize)
  | crash
deriving DecidableEq

/-- The head of the loop of `lock_slow`, up to its next access. -/
def slowLoop (wait : Nat) (state : Usize) : Pc :=
  if !isLocked state then .slowGrab wait state
  else if queueHead state == 0 && (spin wait).2 then .slowLoad (spin wait).1
  else .slowPrepare wait state

/-- The head of the first loop of `unlock_slow`; `idle` is the return. -/
def unlockLoop (state : Usize) : Pc :=
  if isQueueLocked state || queueHead state == 0 then .idle else .unlockTry state

structure State where
  word : Usize
  mem : Usize → Option ThreadData
  pc : Tid → Pc

def State.init : State := ⟨0, fun _ => none, fun _ => .idle⟩

def State.goto (s : State) (i : Tid) (pc : Pc) : State := { s with pc := Function.update s.pc i pc }

def State.setWord (s : State) (word : Usize) : State := { s with word }

def State.setMem (s : State) (p : Usize) (d : Option ThreadData) : State :=
  { s with mem := Function.update s.mem p d }

section
variable (s : State) (i : Tid) (pc : Pc) (word p : Usize) (d : Option ThreadData)

@[simp] theorem State.goto_word : (s.goto i pc).word = s.word := rfl

@[simp] theorem State.goto_mem : (s.goto i pc).mem = s.mem := rfl

@[simp] theorem State.goto_pc : (s.goto i pc).pc = Function.update s.pc i pc := rfl

@[simp] theorem State.setWord_word : (s.setWord word).word = word := rfl

@[simp] theorem State.setWord_mem : (s.setWord word).mem = s.mem := rfl

@[simp] theorem State.setWord_pc : (s.setWord word).pc = s.pc := rfl

@[simp] theorem State.setMem_word : (s.setMem p d).word = s.word := rfl

@[simp] theorem State.setMem_mem : (s.setMem p d).mem = Function.update s.mem p d := rfl

@[simp] theorem State.setMem_pc : (s.setMem p d).pc = s.pc := rfl

end

/-- An access of thread `i` to the `ThreadData` at `p`. -/
def State.deref (s : State) (i : Tid) (p : Usize) (f : ThreadData → State) : State :=
  match s.mem p with
  | some d => f d
  | none => s.goto i .crash

def stepPc (s : State) (i : Tid) (spurious : Bool) (addr : Usize) : Pc → Option State
  | .idle | .holding | .crash => none
  -- `self.state.compare_exchange_weak(0, LOCKED_BIT, ..)`, else `lock_slow`
  | .lockFast =>
    if s.word = 0 ∧ spurious = false then some ((s.setWord lockedBit).goto i .holding)
    else some (s.goto i (.slowLoad 0))
  | .slowLoad wait => some (s.goto i (slowLoop wait s.word))
  | .slowGrab wait state =>
    if s.word = state ∧ spurious = false then some ((s.setWord (state ||| lockedBit)).goto i .holding)
    else some (s.goto i (slowLoop wait s.word))
  | .slowPrepare wait state =>
    if addr ≠ 0 ∧ Aligned addr ∧ s.mem addr = none then
      some ((s.setMem addr (some (.prepare state addr))).goto i (.slowPush wait state addr))
    else none
  -- the closure returns early when the `compare_exchange_weak` fails
  | .slowPush wait state me =>
    if s.word = state ∧ spurious = false then
      some ((s.setWord (withQueueHead state me)).goto i (.park me))
    else some ((s.setMem me none).goto i (slowLoop wait s.word))
  -- `while self.futex.load(Acquire) != 0`
  | .park me => some <| s.deref i me fun d => s.goto i (if d.futex ≠ 0 then .futexWait me else .woken me)
  -- `FUTEX_WAIT`: the kernel compares once more, `EAGAIN` if the word is not `1`
  | .futexWait me => some <| s.deref i me fun d => s.goto i (if d.futex = 1 then .asleep me else .park me)
  -- `EINTR`
  | .asleep me => if spurious then some (s.goto i (.park me)) else none
  -- `spinwait.reset()`, the load, and the end of the closure
  | .woken me => some ((s.setMem me none).goto i (slowLoop 0 s.word))
  -- `self.state.fetch_sub(LOCKED_BIT, ..)`
  | .unlockFast =>
    some ((s.setWord (s.word - lockedBit)).goto i
      (if isQueueLocked s.word || queueHead s.word == 0 then .idle else .unlockLoad))
  | .unlockLoad => some (s.goto i (unlockLoop s.word))
  | .unlockTry state =>
    if s.word = state ∧ spurious = false then
      some ((s.setWord (state ||| queueLockedBit)).goto i (.scan state (queueHead state)))
    else some (s.goto i (unlockLoop s.word))
  | .scan state current => some <| s.deref i current fun d =>
    s.goto i (if d.queueTail ≠ 0 then .setTail state d.queueTail else .link state current)
  -- `(*next).prev.set(current)`
  | .link state current => some <| s.deref i current fun d => s.deref i d.next fun e =>
    (s.setMem d.next (some { e with prev := current })).goto i (.scan state d.next)
  -- `(*queue_head).queue_tail.set(queue_tail)`
  | .setTail state queueTail => some <| s.deref i (queueHead state) fun d =>
    (s.setMem (queueHead state) (some { d with queueTail })).goto i
      (if isLocked state then .settle state else .newTail state queueTail)
  | .settle state =>
    if s.word = state ∧ spurious = false then
      some ((s.setWord (state &&& ~~~queueLockedBit)).goto i .idle)
    else some (s.goto i (.scan s.word (queueHead s.word)))
  | .newTail state queueTail => some <| s.deref i queueTail fun d =>
    s.goto i (if d.prev = 0 then .dropLast state queueTail else .cut state queueTail d.prev)
  | .dropLast state queueTail =>
    if s.word = state ∧ spurious = false then
      some ((s.setWord (state &&& lockedBit)).goto i (.unpark queueTail))
    else if queueHead s.word = 0 then some (s.goto i (.dropLast s.word queueTail))
    else some (s.goto i (.scan s.word (queueHead s.word)))
  -- `(*queue_head).queue_tail.set(new_tail)`
  | .cut state queueTail newTail => some <| s.deref i (queueHead state) fun d =>
    (s.setMem (queueHead state) (some { d with queueTail := newTail })).goto i (.leave queueTail)
  -- `self.state.fetch_and(!QUEUE_LOCKED_BIT, ..)`
  | .leave queueTail =>
    some ((s.setWord (s.word &&& ~~~queueLockedBit)).goto i (.unpark queueTail))
  -- `unpark_lock`
  | .unpark queueTail => some <| s.deref i queueTail fun d =>
    (s.setMem queueTail (some { d with futex := 0 })).goto i (.wake queueTail)
  -- `FUTEX_WAKE`: no two threads sleep at one address
  | .wake queueTail =>
    some (State.goto { s with pc := fun j => if s.pc j = .asleep queueTail then .park queueTail else s.pc j }
      i .idle)

inductive Act
  | lock (i : Tid)
  | unlock (i : Tid)
  | run (i : Tid) (spurious : Bool) (addr : Usize)

/-- A thread unlocks only what it holds. -/
def step (s : State) : Act → Option State
  | .lock i => if s.pc i = .idle then some (s.goto i .lockFast) else none
  | .unlock i => if s.pc i = .holding then some (s.goto i .unlockFast) else none
  | .run i spurious addr => stepPc s i spurious addr (s.pc i)

end CoQueue.Mutex.WordLock
