import CoQueue.Mutex.Lot

/-!
# What a step of the parking lot does

`Step s i e s'` lists everything that a step of thread `i` can do, with the event `e` it is for the callers, and
`step_cases` says that this is all. Every invariant is proved from it.
-/

namespace CoQueue.Mutex.Lot

open Bucket

variable {s s' : State} {i : Tid}

/-- The steps that change nothing but the place in the code. -/
inductive Moves (s : State) (i : Tid) : Pc → Pc → Prop
  | start (hd : s.data i = false) : Moves s i .idle .count
  | park (key : Key) (parkToken : Nat) (timeout : Bool) (hd : s.data i = true) :
      Moves s i .idle (.get (.lock key (.park parkToken timeout)))
  | unparkOne (key : Key) : Moves s i .idle (.get (.lock key .unpark))
  | get {caller : Caller} {t : Addr} {pc : Pc} (ht : s.hashtable = some t) (hg : s.got i t caller = some pc) :
      Moves s i (.get caller) pc
  | stale {numThreads b bits : Nat} {t : Addr} (hb : s.table t = some bits) (hle : 2 ^ bits ≤ b)
      (ht : s.hashtable ≠ some t) : Moves s i (.growLock numThreads t b) (.growBack numThreads t 0)
  | again {numThreads b bits : Nat} {t : Addr} (hb : s.table t = some bits) (hle : 2 ^ bits ≤ b) :
      Moves s i (.growBack numThreads t b) (.get (.grow numThreads))
  | grown {b bits : Nat} {t : Addr} (hb : s.table t = some bits) (hle : 2 ^ bits ≤ b) :
      Moves s i (.growUnlock t b) .idle
  | enter {key : Key} {work : Work} {b : Entry} (ht : s.hashtable = some b.1)
      (hk : work = .expire → (s.mem.node i).key = key) : Moves s i (.check key work b) (.inside key work b)
  | wrong {key : Key} {work : Work} {b : Entry}
      (h : ¬(s.hashtable = some b.1 ∧ (work = .expire → (s.mem.node i).key = key))) :
      Moves s i (.check key work b) (.back key work b)
  | expired (hf : (s.mem.node i).futex ≠ 0) : Moves s i (.asleep true) (.get .relock)

/-- The steps that take the lock of a bucket. -/
inductive Acquires (s : State) : Pc → Entry → Pc → Prop
  | growLock {numThreads b bits : Nat} {t : Addr} (hb : s.table t = some bits) (hlt : b < 2 ^ bits) :
      Acquires s (.growLock numThreads t b) (t, b) (.growLock numThreads t (b + 1))
  | lock {key : Key} {work : Work} {t : Addr} {bits : Nat} (hb : s.table t = some bits) :
      Acquires s (.lock key work t) (t, hash key bits) (.check key work (t, hash key bits))

/-- The steps that release the lock of a bucket. -/
inductive Releases (s : State) : Pc → Entry → Pc → Prop
  | growBack {numThreads b bits : Nat} {t : Addr} (hb : s.table t = some bits) (hlt : b < 2 ^ bits) :
      Releases s (.growBack numThreads t b) (t, b) (.growBack numThreads t (b + 1))
  | growUnlock {b bits : Nat} {t : Addr} (hb : s.table t = some bits) (hlt : b < 2 ^ bits) :
      Releases s (.growUnlock t b) (t, b) (.growUnlock t (b + 1))
  | back (key : Key) (work : Work) {b : Entry} (hb : s.table b.1 ≠ none) :
      Releases s (.back key work b) b (.get (work.caller key))
  | sleep {b : Entry} (timeout : Bool) (hb : s.table b.1 ≠ none) :
      Releases s (.leave b (some timeout)) b (.asleep timeout)
  | leave {b : Entry} (hb : s.table b.1 ≠ none) : Releases s (.leave b none) b .idle

/-- Everything a step of thread `i` can do. -/
inductive Step (s : State) (i : Tid) : Option Event → State → Prop
  | move {pc : Pc} (h : Moves s i (s.pc i) pc) : Step s i none (s.goto i pc)
  | exit (hpc : s.pc i = .idle) (hd : s.data i = true) :
      Step s i none { s with numThreads := s.numThreads - 1, data := Function.update s.data i false }
  | count (hpc : s.pc i = .count) :
      Step s i none ({ s with
        numThreads := s.numThreads + 1
        data := Function.update s.data i true
        mem := s.mem.setNode i .new }.goto i (.get (.grow (s.numThreads + 1))))
  | alloc {caller : Caller} {a : Addr} {now : Nat} (hpc : s.pc i = .get caller) (ht : s.hashtable = none)
      (ha : s.table a = none) : Step s i none ((s.alloc a loadFactor now).goto i (.create caller a))
  | won {caller : Caller} {new : Addr} {pc : Pc} (hpc : s.pc i = .create caller new) (ht : s.hashtable = none)
      (hg : s.got i new caller = some pc) : Step s i none ({ s with hashtable := some new }.goto i pc)
  | lost {caller : Caller} {t new : Addr} {pc : Pc} (hpc : s.pc i = .create caller new)
      (ht : s.hashtable = some t) (hg : s.got i t caller = some pc) (hn : s.table new ≠ none) :
      Step s i none ({ s with table := Function.update s.table new none }.goto i pc)
  | acquire {b : Entry} {pc : Pc} (h : Acquires s (s.pc i) b pc) (hb : s.mutex b = none) :
      Step s i none ((s.lockBucket i b).goto i pc)
  | release {b : Entry} {pc : Pc} (h : Releases s (s.pc i) b pc) : Step s i none ((s.unlockBucket b).goto i pc)
  | growAlloc {numThreads b bits now : Nat} {t a : Addr} (hpc : s.pc i = .growLock numThreads t b)
      (hb : s.table t = some bits) (hle : 2 ^ bits ≤ b) (ht : s.hashtable = some t) (ha : s.table a = none) :
      Step s i none ((s.alloc a numThreads now).goto i (.growMove t a 0))
  | rehash {t new : Addr} {b bits bits' n : Nat} {mem : Mem Entry} (hpc : s.pc i = .growMove t new b)
      (hb : s.table t = some bits) (hb' : s.table new = some bits') (hlt : b < 2 ^ bits)
      (hm : s.mem.rehashBucketInto n (t, b) (fun h => (new, h)) bits' = some mem) :
      Step s i none ({ s with mem }.goto i (.growMove t new (b + 1)))
  | publish {t new : Addr} {b bits bits' : Nat} (hpc : s.pc i = .growMove t new b) (hb : s.table t = some bits)
      (hb' : s.table new = some bits') (hle : 2 ^ bits ≤ b) :
      Step s i none ({ s with hashtable := some new }.goto i (.growUnlock t 0))
  | inside {key : Key} {work : Work} {b : Entry} {x : Choice} {mem : Mem Entry} {e : Event}
      {sleep : Option Bool} (hpc : s.pc i = .inside key work b)
      (hw : s.work i x key b work = some (mem, e, sleep)) (hb : s.table b.1 ≠ none) :
      Step s i (some e) ({ s with mem }.goto i (.leave b sleep))
  | woken {timeout : Bool} (hpc : s.pc i = .asleep timeout) (hf : (s.mem.node i).futex = 0) :
      Step s i (some (.woken i (s.mem.node i).unparkToken)) (s.goto i .idle)

theorem Step.pc_other {j : Tid} {e : Option Event} (hs : Step s i e s') (hji : j ≠ i) : s'.pc j = s.pc j := by
  cases hs with
  | exit => rfl
  | _ => exact Function.update_of_ne hji _ _

/-- What `get_hashtable` returns is not the table that has been freed. -/
theorem State.got_of_free {u : State} {t a : Addr} {caller : Caller} {pc : Pc} (hu : s.free a = some u)
    (hg : u.got i t caller = some pc) : s.got i t caller = some pc := by
  obtain ⟨bits, -, rfl⟩ := Option.map_eq_some_iff.1 hu
  cases caller with
  | lock | relock => exact hg
  | grow numThreads =>
    obtain ⟨bits', hb, rfl⟩ := Option.map_eq_some_iff.1 hg
    change Function.update s.table a none t = some bits' at hb
    by_cases hta : t = a
    · rw [hta, Function.update_self] at hb
      cases hb
    · rw [Function.update_of_ne hta] at hb
      rw [State.got, hb, Option.map_some]

theorem run_cases {x : Choice} (h : stepPc s i x (s.pc i) = some s') : Step s i (event s (.run i x)) s' := by
  generalize hpc : s.pc i = pc at h
  cases pc with
  | idle => cases h
  | count =>
    cases h
    simp only [event, hpc]
    exact .count hpc
  | get caller =>
    simp only [event, hpc]
    simp only [stepPc] at h
    split at h
    · rename_i t ht
      obtain ⟨pc, hg, rfl⟩ := Option.map_eq_some_iff.1 h
      exact .move (hpc ▸ .get ht hg)
    · rename_i ht
      split at h
      · cases h
        exact .alloc hpc ht ‹_›
      · cases h
  | create caller new =>
    simp only [event, hpc]
    simp only [stepPc] at h
    split at h
    · rename_i t ht
      obtain ⟨u, hu, h⟩ := Option.bind_eq_some_iff.1 h
      obtain ⟨pc, hg, rfl⟩ := Option.map_eq_some_iff.1 h
      have hg' := State.got_of_free hu hg
      obtain ⟨bits, hb, rfl⟩ := Option.map_eq_some_iff.1 hu
      exact .lost hpc ht hg' (Option.ne_none_iff_exists'.2 ⟨bits, hb⟩)
    · rename_i ht
      obtain ⟨pc, hg, rfl⟩ := Option.map_eq_some_iff.1 h
      exact .won hpc ht hg
  | growLock numThreads t b =>
    simp only [event, hpc]
    obtain ⟨bits, hb, h⟩ := Option.bind_eq_some_iff.1 h
    split at h
    · rename_i hlt
      split at h
      · cases h
        exact .acquire (hpc ▸ .growLock hb hlt) ‹_›
      · cases h
    · rename_i hle
      split at h
      · rename_i ht
        split at h
        · cases h
          exact .growAlloc hpc hb (Nat.not_lt.1 hle) ht ‹_›
        · cases h
      · cases h
        exact .move (hpc ▸ .stale hb (Nat.not_lt.1 hle) ‹_›)
  | growBack numThreads t b =>
    simp only [event, hpc]
    obtain ⟨bits, hb, h⟩ := Option.bind_eq_some_iff.1 h
    split at h
    · cases h
      exact .release (hpc ▸ .growBack hb ‹_›)
    · cases h
      exact .move (hpc ▸ .again hb (Nat.not_lt.1 ‹_›))
  | growMove t new b =>
    simp only [event, hpc]
    obtain ⟨bits, hb, h⟩ := Option.bind_eq_some_iff.1 h
    obtain ⟨bits', hb', h⟩ := Option.bind_eq_some_iff.1 h
    split at h
    · obtain ⟨mem, hm, rfl⟩ := Option.map_eq_some_iff.1 h
      exact .rehash hpc hb hb' ‹_› hm
    · cases h
      exact .publish hpc hb hb' (Nat.not_lt.1 ‹_›)
  | growUnlock t b =>
    simp only [event, hpc]
    obtain ⟨bits, hb, h⟩ := Option.bind_eq_some_iff.1 h
    split at h
    · cases h
      exact .release (hpc ▸ .growUnlock hb ‹_›)
    · cases h
      exact .move (hpc ▸ .grown hb (Nat.not_lt.1 ‹_›))
  | lock key work t =>
    simp only [event, hpc]
    obtain ⟨bits, hb, h⟩ := Option.bind_eq_some_iff.1 h
    split at h
    · cases h
      exact .acquire (hpc ▸ .lock hb) ‹_›
    · cases h
  | check key work b =>
    simp only [event, hpc]
    simp only [stepPc] at h
    split at h
    · rename_i hok
      cases h
      exact .move (hpc ▸ .enter hok.1 hok.2)
    · cases h
      exact .move (hpc ▸ .wrong ‹_›)
  | back key work b =>
    simp only [event, hpc]
    obtain ⟨bits, hb, h⟩ := Option.bind_eq_some_iff.1 h
    cases h
    exact .release (hpc ▸ .back key work (Option.ne_none_iff_exists'.2 ⟨bits, hb⟩))
  | inside key work b =>
    obtain ⟨bits, hb, h⟩ := Option.bind_eq_some_iff.1 h
    obtain ⟨⟨mem, e, sleep⟩, hw, rfl⟩ := Option.map_eq_some_iff.1 h
    simp only [event, hpc, hw, Option.map_some]
    exact .inside hpc hw (Option.ne_none_iff_exists'.2 ⟨bits, hb⟩)
  | leave b sleep =>
    simp only [event, hpc]
    obtain ⟨bits, hb, h⟩ := Option.bind_eq_some_iff.1 h
    cases h
    have hne : s.table b.1 ≠ none := Option.ne_none_iff_exists'.2 ⟨bits, hb⟩
    cases sleep with
    | none => exact .release (hpc ▸ .leave hne)
    | some timeout => exact .release (hpc ▸ .sleep timeout hne)
  | asleep timeout =>
    simp only [event, hpc]
    simp only [stepPc] at h
    split at h
    · rename_i hf
      cases h
      rw [if_pos hf]
      exact .woken hpc hf
    · rename_i hf
      rw [if_neg hf]
      split at h
      · rename_i ht
        cases h
        obtain rfl : timeout = true := by simp_all
        exact .move (hpc ▸ .expired hf)
      · cases h

def Act.thread : Act → Tid
  | .start i | .exit i | .park i _ _ _ | .unparkOne i _ | .run i _ => i

theorem step_cases {a : Act} (h : step s a = some s') : Step s a.thread (event s a) s' := by
  cases a with
  | start i =>
    simp only [step] at h
    split at h
    · rename_i hc
      cases h
      exact .move (hc.1 ▸ .start hc.2)
    · cases h
  | exit i =>
    simp only [step] at h
    split at h
    · rename_i hc
      cases h
      exact .exit hc.1 hc.2
    · cases h
  | park i key parkToken timeout =>
    simp only [step] at h
    split at h
    · rename_i hc
      cases h
      exact .move (hc.1 ▸ .park key parkToken timeout hc.2)
    · cases h
  | unparkOne i key =>
    simp only [step] at h
    split at h
    · rename_i hc
      cases h
      exact .move (hc ▸ .unparkOne key)
    · cases h
  | run i x => exact run_cases h

end CoQueue.Mutex.Lot
