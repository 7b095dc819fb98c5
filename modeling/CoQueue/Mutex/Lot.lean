import CoQueue.Mutex.Bucket

/-!
# The parking lot as an interleaved system (`mutex/deadlock.rs`)

Any number of threads start, call `park` and `unpark_one`, and exit. They share `HASHTABLE`, `NUM_THREADS` and
the tables, which a thread that starts may find too small: `grow_hashtable` then locks every bucket of the
table, moves the queues to a new one and publishes it. A thread makes one access to shared memory per step: a
load, store or `compare_exchange` of `HASHTABLE`, a `fetch_add` or `fetch_sub` of `NUM_THREADS`, taking or
releasing the lock of one bucket, a test of its own futex word, or what it does to the queues under the lock of
a bucket. A thread that takes a lock waits until it is free; that the locks are `WordLock`s is in `LotWords`.

A table is known by its address, and `none` is a freed one: a step that would touch it is not possible. The
scheduler decides where the next table is allocated, what `validate` and the callback of `unpark_one` answer, what
the clock says, and whether a timeout has expired.
-/

namespace CoQueue.Mutex.Lot

open Bucket

abbrev Addr := Nat

/-- A bucket: the address of its table and its index in `entries`. -/
abbrev Entry := Addr × Nat

/-- What is done under the lock of a bucket: `park`, `unpark_one`, or `park` behind its timeout. -/
inductive Work
  | park (parkToken : Nat) (timeout : Bool)
  | unpark
  | expire
deriving DecidableEq

/-- Who has called `get_hashtable`: `grow_hashtable`, `lock_bucket` or `lock_bucket_checked`. -/
inductive Caller
  | grow (numThreads : Nat)
  | lock (key : Key) (work : Work)
  | relock
deriving DecidableEq

def Work.caller (key : Key) : Work → Caller
  | .expire => .relock
  | work => .lock key work

/-- The access a thread makes next. -/
inductive Pc
  | idle
  -- `ThreadData::new`
  | count
  -- `get_hashtable` and `create_hashtable`
  | get (caller : Caller)
  | create (caller : Caller) (new : Addr)
  -- `grow_hashtable`: bucket `b` is the next one of its loops
  | growLock (numThreads : Nat) (t : Addr) (b : Nat)
  | growBack (numThreads : Nat) (t : Addr) (b : Nat)
  | growMove (t new : Addr) (b : Nat)
  | growUnlock (t : Addr) (b : Nat)
  -- `lock_bucket` and `lock_bucket_checked`
  | lock (key : Key) (work : Work) (t : Addr)
  | check (key : Key) (work : Work) (b : Entry)
  | back (key : Key) (work : Work) (b : Entry)
  -- the bucket is locked; `park` sleeps after it has left
  | inside (key : Key) (work : Work) (b : Entry)
  | leave (b : Entry) (sleep : Option Bool)
  | asleep (timeout : Bool)
deriving DecidableEq

structure State where
  numThreads : Nat
  hashtable : Option Addr
  /-- `hash_bits` of the tables. -/
  table : Addr → Option Nat
  /-- The threads whose `THREAD_DATA` exists. -/
  data : Tid → Bool
  mutex : Entry → Option Tid
  mem : Mem Entry
  pc : Tid → Pc

def State.init : State :=
  ⟨0, none, fun _ => none, fun _ => false, fun _ => none,
    ⟨fun _ => .new, fun _ => none, fun _ => none, fun _ => ⟨0, 1⟩⟩, fun _ => .idle⟩

def State.goto (s : State) (i : Tid) (pc : Pc) : State := { s with pc := Function.update s.pc i pc }

/-- `HashTable::new` at the address `a`. -/
def State.alloc (s : State) (a : Addr) (numThreads now : Nat) : State :=
  { s with
    table := Function.update s.table a (some (hashBits numThreads))
    mutex := fun b => if b.1 = a then none else s.mutex b
    mem := { s.mem with
      queueHead := fun b => if b.1 = a then none else s.mem.queueHead b
      queueTail := fun b => if b.1 = a then none else s.mem.queueTail b
      fairTimeout := fun b => if b.1 = a then ⟨now, UInt32.ofNat b.2 + 1⟩ else s.mem.fairTimeout b } }

/-- Drops the `HashTable` at the address `a`, which has to exist. -/
def State.free (s : State) (a : Addr) : Option State :=
  (s.table a).map fun _ => { s with table := Function.update s.table a none }

def State.lockBucket (s : State) (i : Tid) (b : Entry) : State :=
  { s with mutex := Function.update s.mutex b (some i) }

def State.unlockBucket (s : State) (b : Entry) : State := { s with mutex := Function.update s.mutex b none }

/-- What the scheduler decides. -/
structure Choice where
  addr : Addr
  now : Nat
  validate : Bool
  callback : UnparkResult → UnparkToken
  expired : Bool
  fuel : Nat

/-- `get_hashtable` has returned `t`. -/
def State.got (s : State) (i : Tid) (t : Addr) : Caller → Option Pc
  | .grow numThreads =>
    (s.table t).map fun bits => if loadFactor * numThreads ≤ 2 ^ bits then .idle else .growLock numThreads t 0
  | .lock key work => some (.lock key work t)
  | .relock => some (.lock (s.mem.node i).key .expire t)

/-- What a call has done: `queued`, `invalid` and `timedOut` are about `park`, `woken` is its return with
`ParkResult::Unparked`, and `unparked` the return of `unpark_one`. -/
inductive Event
  | queued (i : Tid) (key : Key)
  | invalid (i : Tid) (key : Key)
  | unparked (key : Key) (target : Option (Tid × UnparkToken)) (result : UnparkResult)
  | woken (i : Tid) (token : UnparkToken)
  | timedOut (i : Tid) (key : Key) (wasLastThread : Bool)

/-- What is done under the lock of bucket `b`, and whether the thread then sleeps. -/
def State.work (s : State) (i : Tid) (x : Choice) (key : Key) (b : Entry) :
    Work → Option (Mem Entry × Event × Option Bool)
  | .park parkToken timeout =>
    if x.validate then (s.mem.park b i key parkToken timeout).map fun m => (m, .queued i key, some timeout)
    else some (s.mem, .invalid i key, none)
  | .unpark => (s.mem.unparkOne b x.fuel x.now key x.callback).map fun
    | (m, j, result) => (m, .unparked key (j.map fun j => (j, x.callback result)) result, none)
  | .expire =>
    if (s.mem.node i).futex = 0 then some (s.mem, .woken i (s.mem.node i).unparkToken, none)
    else (s.mem.timedOut b x.fuel i key).map fun r => (r.1, .timedOut i key r.2, none)

def stepPc (s : State) (i : Tid) (x : Choice) : Pc → Option State
  | .idle => none
  -- `NUM_THREADS.fetch_add(1, ..) + 1`
  | .count => some ({ s with
      numThreads := s.numThreads + 1
      data := Function.update s.data i true
      mem := s.mem.setNode i .new }.goto i (.get (.grow (s.numThreads + 1))))
  -- `HASHTABLE.load(..)`
  | .get caller => match s.hashtable with
    | some t => (s.got i t caller).map (s.goto i)
    | none =>
      if s.table x.addr = none then some ((s.alloc x.addr loadFactor x.now).goto i (.create caller x.addr))
      else none
  -- `HASHTABLE.compare_exchange(ptr::null_mut(), new_table, ..)`
  | .create caller new => match s.hashtable with
    | some t => (s.free new).bind fun s => (s.got i t caller).map (s.goto i)
    | none => (s.got i new caller).map ({ s with hashtable := some new }.goto i)
  | .growLock numThreads t b => (s.table t).bind fun bits =>
    if b < 2 ^ bits then
      if s.mutex (t, b) = none then some ((s.lockBucket i (t, b)).goto i (.growLock numThreads t (b + 1)))
      else none
    -- `HASHTABLE.load(..) == table`
    else if s.hashtable = some t then
      if s.table x.addr = none then some ((s.alloc x.addr numThreads x.now).goto i (.growMove t x.addr 0))
      else none
    else some (s.goto i (.growBack numThreads t 0))
  | .growBack numThreads t b => (s.table t).bind fun bits =>
    if b < 2 ^ bits then some ((s.unlockBucket (t, b)).goto i (.growBack numThreads t (b + 1)))
    else some (s.goto i (.get (.grow numThreads)))
  | .growMove t new b => (s.table t).bind fun bits => (s.table new).bind fun bits' =>
    if b < 2 ^ bits then
      (s.mem.rehashBucketInto x.fuel (t, b) (fun h => (new, h)) bits').map fun mem =>
        { s with mem }.goto i (.growMove t new (b + 1))
    -- `HASHTABLE.store(..)`
    else some ({ s with hashtable := some new }.goto i (.growUnlock t 0))
  | .growUnlock t b => (s.table t).bind fun bits =>
    if b < 2 ^ bits then some ((s.unlockBucket (t, b)).goto i (.growUnlock t (b + 1)))
    else some (s.goto i .idle)
  | .lock key work t => (s.table t).bind fun bits =>
    if s.mutex (t, hash key bits) = none then
      some ((s.lockBucket i (t, hash key bits)).goto i (.check key work (t, hash key bits)))
    else none
  | .check key work b =>
    if s.hashtable = some b.1 ∧ (work = .expire → (s.mem.node i).key = key) then
      some (s.goto i (.inside key work b))
    else some (s.goto i (.back key work b))
  | .back key work b => (s.table b.1).bind fun _ =>
    some ((s.unlockBucket b).goto i (.get (work.caller key)))
  | .inside key work b => (s.table b.1).bind fun _ =>
    (s.work i x key b work).map fun r => { s with mem := r.1 }.goto i (.leave b r.2.2)
  | .leave b sleep => (s.table b.1).bind fun _ =>
    some ((s.unlockBucket b).goto i (match sleep with
      | some timeout => .asleep timeout
      | none => .idle))
  -- `park` and `park_until`
  | .asleep timeout =>
    if (s.mem.node i).futex = 0 then some (s.goto i .idle)
    else if timeout && x.expired then some (s.goto i (.get .relock))
    else none

inductive Act
  | start (i : Tid)
  | exit (i : Tid)
  | park (i : Tid) (key : Key) (parkToken : Nat) (timeout : Bool)
  | unparkOne (i : Tid) (key : Key)
  | run (i : Tid) (x : Choice)

/-- A thread that parks has its `ThreadData`: `with_thread_data` starts it. -/
def step (s : State) : Act → Option State
  | .start i => if s.pc i = .idle ∧ s.data i = false then some (s.goto i .count) else none
  -- `NUM_THREADS.fetch_sub(1, ..)`
  | .exit i =>
    if s.pc i = .idle ∧ s.data i = true then
      some { s with numThreads := s.numThreads - 1, data := Function.update s.data i false }
    else none
  | .park i key parkToken timeout =>
    if s.pc i = .idle ∧ s.data i = true then some (s.goto i (.get (.lock key (.park parkToken timeout))))
    else none
  | .unparkOne i key => if s.pc i = .idle then some (s.goto i (.get (.lock key .unpark))) else none
  | .run i x => stepPc s i x (s.pc i)

def event (s : State) : Act → Option Event
  | .run i x => match s.pc i with
    | .inside key work b => (s.work i x key b work).map (·.2.1)
    | .asleep _ => if (s.mem.node i).futex = 0 then some (.woken i (s.mem.node i).unparkToken) else none
    | _ => none
  | _ => none

/-- What the calls have done so far, the oldest first. -/
def note (s : State) (a : Act) (l : List Event) : List Event := l ++ (event s a).toList

end CoQueue.Mutex.Lot
