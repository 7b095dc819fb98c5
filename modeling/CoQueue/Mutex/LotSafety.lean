import CoQueue.Mutex.LotRefines

/-!
# What the parking lot guarantees

In every run: a thread works on the queue of a key only under the lock of the key's bucket in the current table,
and alone; what the calls return is a history of one queue per key, whatever the hash function does and however
often the table grows; no thread follows a null pointer, touches a freed table or runs into `debug_assert!`; and
the threads never block one another for good.
-/

namespace CoQueue.Mutex.Lot

open Bucket Linked Schedule

variable {s : State} {Q : Spec} {i j : Tid} {key : Key} {work : Work} {b : Entry} {t : Addr}

theorem inv_of_unwatched (h : Run step Any .init s) : ∃ Q, Inv s Q := by
  obtain ⟨l, h⟩ : ∃ l, Run (watch step note) Any (.init, []) (s, l) := h.watch []
  obtain ⟨Q, -, hinv⟩ := inv_of_run h
  exact ⟨Q, hinv⟩

/-- Threads 0 to 4 start, and thread 1 parks with key 8; `k` are the steps it has made in `park`. Then thread 5
starts, which has to grow the table, and makes `l` steps. -/
def crowd (k l : Nat) : List Act :=
  let run (i : Tid) (n : Nat) : List Act := List.replicate n (.run i ⟨i, 1, true, fun _ => 7, false, 2⟩)
  [.start 0] ++ run 0 3 ++ ([1, 2, 3, 4].flatMap fun i => .start i :: run i 2) ++ [.park 1 8 0 true] ++ run 1 k ++
    [.start 5] ++ run 5 l

/-- A thread works on a queue under the lock of the bucket of its key in the current table. No other thread works
on this bucket or for this key, and nobody moves the queues. -/
theorem inside_alone (h : Run step Any .init s) (hi : s.pc i = .inside key work b) :
    s.mutex b = some i ∧ s.hashtable = some b.1 ∧ (∃ bits, s.table b.1 = some bits ∧ b.2 = hash key bits) ∧
      (∀ j key' work' b', s.pc j = .inside key' work' b' → b' = b ∨ key' = key → j = i) ∧
      ∀ j t new c, s.pc j ≠ .growMove t new c := by
  obtain ⟨Q, hinv⟩ := inv_of_unwatched h
  have hl := hinv.locks
  have hcur : s.hashtable = some b.1 := hl.current i b.1 (by rw [hi]; rfl)
  have hfits := hl.fits i
  rw [hi] at hfits
  have hfits : ∃ bits, s.table b.1 = some bits ∧ b.2 = hash key bits := hfits
  refine ⟨(hl.mutex i b).2 (by rw [hi]; rfl), hcur, hfits, ?_, ?_⟩
  · intro j key' work' b' hj hor
    have hbb : b' = b := by
      rcases hor with hbb | rfl
      · exact hbb
      -- the same key has the same bucket in the same table
      · have hcur' : s.hashtable = some b'.1 := hl.current j b'.1 (by rw [hj]; rfl)
        have hfits' := hl.fits j
        rw [hj] at hfits'
        obtain ⟨bits', hb', hh'⟩ := hfits'
        obtain ⟨bits, hb, hh⟩ := hfits
        have h1 : b'.1 = b.1 := Option.some.inj (hcur'.symm.trans hcur)
        rw [h1] at hb'
        refine Prod.ext h1 ?_
        rw [hh', hh, Option.some.inj (hb'.symm.trans hb)]
    subst hbb
    exact hl.holds_inj (b := b') (by rw [hj]; rfl) (by rw [hi]; rfl)
  · intro j t new c hj
    obtain rfl := hl.mover hj (j := i) (by rw [hi]; exact Option.some_ne_none _)
    cases hi.symm.trans hj

theorem inside_alone_crowd : ∃ s, Run step Any .init s ∧ s.pc 1 = .inside 8 (.park 0 true) (0, 15) ∧
    s.mutex (0, 15) = some 1 ∧ ∀ j t new c, s.pc j ≠ .growMove t new c := by
  obtain ⟨s, h, hpc⟩ : ∃ s, Run step Any .init s ∧ s.pc 1 = .inside 8 (.park 0 true) (0, 15) :=
    Run.of_exec_map (l := crowd 3 0) (by decide +kernel)
  obtain ⟨hm, -, -, -, hno⟩ := inside_alone h hpc
  exact ⟨s, h, hpc, hm, hno⟩

/-- What the calls have returned is a history of `Spec`, and where no queues are being moved, the queue of a key is
what its bucket in the current table has for the key. -/
theorem lot_refines {l : List Event} (h : Run (watch step note) Any (.init, []) (s, l)) :
    ∃ Q, Spec.Trace l Q ∧ ∀ t bits, s.hashtable = some t → s.table t = some bits →
      (∀ i new c, s.pc i ≠ .growMove t new c) → ∀ key, ∃ q, s.mem.Queue (t, hash key bits) q ∧
        (q.filter fun i => (s.mem.node i).key = key) = Q.queue key := by
  obtain ⟨Q, htr, hinv⟩ := inv_of_run h
  exact ⟨Q, htr, fun t bits ht hb hno => hinv.settled ht hb hno⟩

/-- Thread 1 is in the queue of its key in the new table, which has been published at the address 5. -/
theorem lot_refines_crowd : ∃ s l Q, Run (watch step note) Any (.init, []) (s, l) ∧ l.length = 1 ∧
    s.hashtable = some 5 ∧ s.mem.queueHead (5, hash 8 5) = some 1 ∧ Spec.Trace l Q := by
  obtain ⟨⟨s, l⟩, h, heq⟩ : ∃ w : State × List Event, Run (watch step note) Any (.init, []) w ∧
      (w.2.length, w.1.hashtable, w.1.mem.queueHead (5, hash 8 5)) = (1, some 5, some 1) :=
    Run.of_exec_map (f := fun w : State × List Event =>
      (w.2.length, w.1.hashtable, w.1.mem.queueHead (5, hash 8 5))) (l := crowd 5 53) (by decide +kernel)
  simp only [Prod.mk.injEq] at heq
  obtain ⟨Q, htr, -⟩ := lot_refines h
  exact ⟨s, l, Q, h, heq.1, heq.2.1, heq.2.2, htr⟩

/-! ### Progress -/

/-- A thread waits for the lock of a bucket that somebody holds, or for somebody to unpark it. -/
inductive Blocked (s : State) (i : Tid) : Prop
  | growLock {numThreads b bits : Nat} {t : Addr} (hpc : s.pc i = .growLock numThreads t b)
      (hb : s.table t = some bits) (hlt : b < 2 ^ bits) (hm : s.mutex (t, b) ≠ none)
  | lock {key : Key} {work : Work} {t : Addr} {bits : Nat} (hpc : s.pc i = .lock key work t)
      (hb : s.table t = some bits) (hm : s.mutex (t, hash key bits) ≠ none)
  | asleep {timeout : Bool} (hpc : s.pc i = .asleep timeout) (hf : (s.mem.node i).futex ≠ 0)

/-- With enough fuel for the loops, the thread can make a step; a new table may be anywhere where none is. -/
def CanStep (s : State) (i : Tid) : Prop :=
  ∃ N, ∀ x : Choice, N ≤ x.fuel → s.table x.addr = none → ∃ s', step s (.run i x) = some s'

/-- There is room for another table. -/
def Room (s : State) : Prop := ∃ N, ∀ a, N ≤ a → s.table a = none

theorem Step.room {s' : State} {e : Option Event} (hs : Step s i e s') (h : Room s) : Room s' := by
  obtain ⟨N, hN⟩ := h
  have hset : ∀ c bits, ∃ N, ∀ a, N ≤ a → Function.update s.table c bits a = none := by
    intro c bits
    refine ⟨max N (c + 1), fun a ha => ?_⟩
    have hca : c < a := Nat.le_trans (Nat.le_max_right N (c + 1)) ha
    rw [Function.update_of_ne (Nat.ne_of_gt hca)]
    exact hN a (Nat.le_trans (Nat.le_max_left N (c + 1)) ha)
  cases hs with
  | @alloc caller c now => exact hset c _
  | @growAlloc numThreads b bits now t c => exact hset c _
  | @lost caller t c pc => exact hset c none
  | _ => exact ⟨N, hN⟩

theorem room_of_run (h : Run step Any .init s) : Room s :=
  h.invariant (P := Room) ⟨0, fun _ _ => rfl⟩ fun _ _ _ hroom _ hs => (step_cases hs).room hroom

theorem got_some (ht : s.table t ≠ none) (i : Tid) (caller : Caller) : ∃ pc, s.got i t caller = some pc := by
  cases caller with
  | grow numThreads =>
    obtain ⟨bits, hb⟩ := Option.ne_none_iff_exists'.1 ht
    exact ⟨_, by rw [State.got, hb]; rfl⟩
  | lock key work => exact ⟨_, rfl⟩
  | relock => exact ⟨_, rfl⟩

theorem Inv.work_total (hinv : Inv s Q) (hi : s.pc i = .inside key work b) :
    ∃ N, ∀ x : Choice, N ≤ x.fuel → ∃ r, s.work i x key b work = some r := by
  obtain ⟨loc, live, hp, hF⟩ := hinv.kept
  obtain ⟨rfl, hlive⟩ := hp.inside hinv.locks hi
  cases work with
  | park parkToken timeout =>
    obtain ⟨m, hm, -⟩ := hF.park hlive (hinv.not_queued (by rw [hi]; rintro ⟨⟩)) parkToken timeout
    refine ⟨0, fun x _ => ?_⟩
    rw [State.work, hm]
    split <;> exact ⟨_, rfl⟩
  | unpark =>
    -- how long the loop runs depends on neither the clock nor the callback
    obtain ⟨L, hQ, hfiles⟩ := hF
    refine ⟨(L (loc key)).length + 1, fun x hx => ?_⟩
    have hrun := hQ.unparkOne key hlive hx x.now x.callback
    rw [State.work]
    cases hs : scan (fun j => (s.mem.node j).key == key) (L (loc key)) with
    | none =>
      simp only [hs] at hrun
      exact ⟨_, by rw [hrun]; rfl⟩
    | some r =>
      simp only [hs] at hrun
      obtain ⟨m, hm, -⟩ := hrun
      exact ⟨_, by rw [hm]; rfl⟩
  | expire =>
    by_cases hf : (s.mem.node i).futex = 0
    · refine ⟨0, fun x _ => ?_⟩
      rw [State.work, if_pos hf]
      exact ⟨_, rfl⟩
    · have hkey : (s.mem.info i).key = key := hinv.own i key (by rw [hi]; rfl)
      have hiQ : i ∈ Q.queue key := (hinv.queued i key).2 ⟨by rw [hi]; rfl, hf, hkey⟩
      obtain ⟨N, r, hrun, -⟩ := hF.timedOut hiQ
      refine ⟨N, fun x hx => ?_⟩
      rw [State.work, if_neg hf, hrun x.fuel hx]
      exact ⟨_, rfl⟩

theorem Inv.rehash_total (hinv : Inv s Q) {new : Addr} {c bits bits' : Nat} (hi : s.pc i = .growMove t new c)
    (hb : s.table t = some bits) (hb' : s.table new = some bits') :
    ∃ N, ∀ n, N ≤ n → ∃ m, s.mem.rehashBucketInto n (t, c) (fun h => (new, h)) bits' = some m := by
  obtain ⟨loc, live, hp, L, hQ, hF⟩ := hinv.kept
  obtain ⟨-, hold, hnew⟩ := hp.moving i t new c bits bits' hi hb hb'
  have hne : new ≠ t := by
    rintro rfl
    exact hinv.locks.fresh i i new (by rw [hi]; rfl) (by rw [hi]; rfl)
  refine ⟨(L (t, c)).length + 1, fun n hn => ?_⟩
  obtain ⟨m, hm, -⟩ := hQ.rehashBucketInto (fun h => (new, h)) bits' (hold c (Nat.le_refl c))
    (fun key => ⟨hnew _, fun heq => hne (congrArg Prod.fst heq)⟩) hn
  exact ⟨m, hm⟩

theorem Inv.canStep (hinv : Inv s Q) (hi : s.pc i ≠ .idle) : Blocked s i ∨ CanStep s i := by
  have hold := hinv.locks.old i
  have hnew := hinv.locks.new i
  have hcur := hinv.locks.cur
  show Blocked s i ∨ ∃ N, ∀ x : Choice, N ≤ x.fuel → s.table x.addr = none → ∃ s', stepPc s i x (s.pc i) = some s'
  cases hpc : s.pc i with
  | idle => exact absurd hpc hi
  | count => exact .inr ⟨0, fun x _ _ => ⟨_, rfl⟩⟩
  | get caller =>
    refine .inr ⟨0, fun x _ hx => ?_⟩
    cases ht : s.hashtable with
    | none =>
      simp only [stepPc, ht, if_pos hx]
      exact ⟨_, rfl⟩
    | some t =>
      obtain ⟨pc, hg⟩ := got_some (hcur t ht) i caller
      simp only [stepPc, ht, hg, Option.map_some]
      exact ⟨_, rfl⟩
  | create caller new =>
    refine .inr ⟨0, fun x _ _ => ?_⟩
    cases ht : s.hashtable with
    | none =>
      obtain ⟨pc, hg⟩ := got_some (hnew new (by rw [hpc]; rfl)).1 i caller
      simp only [stepPc, ht, hg, Option.map_some]
      exact ⟨_, rfl⟩
    | some t =>
      -- the table that has lost the race is another one
      have hown := hnew new (by rw [hpc]; rfl)
      obtain ⟨bits, hb⟩ := Option.ne_none_iff_exists'.1 hown.1
      have hne : t ≠ new := fun heq => hown.2 (heq ▸ ht)
      obtain ⟨u, hu, hut⟩ : ∃ u, s.free new = some u ∧ u.table t = s.table t :=
        ⟨_, by rw [State.free, hb, Option.map_some], Function.update_of_ne hne _ _⟩
      obtain ⟨pc, hg⟩ := got_some (by rw [hut]; exact hcur t ht) i caller
      simp only [stepPc, ht, hu, hg, Option.bind_some, Option.map_some]
      exact ⟨_, rfl⟩
  | growLock numThreads t c =>
    obtain ⟨bits, hb⟩ := Option.ne_none_iff_exists'.1 (hold t (by rw [hpc]; rfl))
    by_cases hlt : c < 2 ^ bits
    · by_cases hm : s.mutex (t, c) = none
      · refine .inr ⟨0, fun x _ _ => ?_⟩
        simp only [stepPc, hb, Option.bind_some, if_pos hlt, if_pos hm]
        exact ⟨_, rfl⟩
      · exact .inl (.growLock hpc hb hlt hm)
    · refine .inr ⟨0, fun x _ hx => ?_⟩
      simp only [stepPc, hb, Option.bind_some, if_neg hlt, if_pos hx]
      split <;> exact ⟨_, rfl⟩
  | growBack numThreads t c =>
    obtain ⟨bits, hb⟩ := Option.ne_none_iff_exists'.1 (hold t (by rw [hpc]; rfl))
    refine .inr ⟨0, fun x _ _ => ?_⟩
    simp only [stepPc, hb, Option.bind_some]
    split <;> exact ⟨_, rfl⟩
  | growMove t new c =>
    obtain ⟨bits, hb⟩ := Option.ne_none_iff_exists'.1 (hold t (by rw [hpc]; rfl))
    obtain ⟨bits', hb'⟩ := Option.ne_none_iff_exists'.1 (hnew new (by rw [hpc]; rfl)).1
    obtain ⟨N, hN⟩ := hinv.rehash_total hpc hb hb'
    refine .inr ⟨N, fun x hx _ => ?_⟩
    obtain ⟨m, hm⟩ := hN x.fuel hx
    simp only [stepPc, hb, hb', hm, Option.bind_some, Option.map_some]
    split <;> exact ⟨_, rfl⟩
  | growUnlock t c =>
    obtain ⟨bits, hb⟩ := Option.ne_none_iff_exists'.1 (hold t (by rw [hpc]; rfl))
    refine .inr ⟨0, fun x _ _ => ?_⟩
    simp only [stepPc, hb, Option.bind_some]
    split <;> exact ⟨_, rfl⟩
  | lock key work t =>
    obtain ⟨bits, hb⟩ := Option.ne_none_iff_exists'.1 (hold t (by rw [hpc]; rfl))
    by_cases hm : s.mutex (t, hash key bits) = none
    · refine .inr ⟨0, fun x _ _ => ?_⟩
      simp only [stepPc, hb, Option.bind_some, if_pos hm]
      exact ⟨_, rfl⟩
    · exact .inl (.lock hpc hb hm)
  | check key work b =>
    refine .inr ⟨0, fun x _ _ => ?_⟩
    simp only [stepPc]
    split <;> exact ⟨_, rfl⟩
  | back key work b =>
    obtain ⟨bits, hb⟩ := Option.ne_none_iff_exists'.1 (hold b.1 (by rw [hpc]; rfl))
    exact .inr ⟨0, fun x _ _ => ⟨_, by rw [stepPc, hb]; rfl⟩⟩
  | inside key work b =>
    obtain ⟨bits, hb⟩ := Option.ne_none_iff_exists'.1 (hold b.1 (by rw [hpc]; rfl))
    obtain ⟨N, hN⟩ := hinv.work_total hpc
    refine .inr ⟨N, fun x hx _ => ?_⟩
    obtain ⟨r, hr⟩ := hN x hx
    exact ⟨_, by rw [stepPc, hb, hr]; rfl⟩
  | leave b sleep =>
    obtain ⟨bits, hb⟩ := Option.ne_none_iff_exists'.1 (hold b.1 (by rw [hpc]; rfl))
    refine .inr ⟨0, fun x _ _ => ?_⟩
    simp only [stepPc, hb, Option.bind_some]
    exact ⟨_, rfl⟩
  | asleep timeout =>
    by_cases hf : (s.mem.node i).futex = 0
    · exact .inr ⟨0, fun x _ _ => ⟨_, if_pos hf⟩⟩
    · exact .inl (.asleep hpc hf)

/-- Behind a thread that waits for a bucket stands one that can make a step. -/
theorem Inv.unblocked (hinv : Inv s Q) {bits c : Nat} (hb : s.table t = some bits) (hlt : c < 2 ^ bits)
    (hm : s.mutex (t, c) = some j) : ∃ k, s.pc k ≠ .idle ∧ (∀ timeout, s.pc k ≠ .asleep timeout) ∧ CanStep s k := by
  -- the holder waits, if at all, for a bucket further on
  induction hd : 2 ^ bits - c using Nat.strong_induction_on generalizing c j with
  | _ d ih =>
    have hholds := (hinv.locks.mutex j (t, c)).1 hm
    have hidle : s.pc j ≠ .idle := fun hj => by rw [hj] at hholds; exact hholds
    have hawake : ∀ timeout, s.pc j ≠ .asleep timeout := fun _ hj => by rw [hj] at hholds; exact hholds
    rcases hinv.canStep hidle with hblocked | hcan
    · cases hblocked with
      | @growLock numThreads c' bits' t' hpc hb' hlt' hm' =>
        rw [hpc] at hholds
        obtain ⟨rfl, hcc⟩ : t = t' ∧ c < c' := hholds
        cases hb.symm.trans hb'
        obtain ⟨k, hk⟩ := Option.ne_none_iff_exists'.1 hm'
        exact ih (2 ^ bits - c') (by omega) hlt' hk rfl
      | lock hpc =>
        rw [hpc] at hholds
        exact hholds.elim
      | asleep hpc => exact absurd hpc (hawake _)
    · exact ⟨j, hidle, hawake, hcan⟩

/-- As long as some thread is in a call and not asleep, there is one that can make a step and is not asleep. -/
theorem lot_progress (h : Run step Any .init s) (hi : s.pc i ≠ .idle) (ha : ∀ timeout, s.pc i ≠ .asleep timeout) :
    (∃ a, s.table a = none) ∧ ∃ j, (∀ timeout, s.pc j ≠ .asleep timeout) ∧ CanStep s j := by
  obtain ⟨Q, hinv⟩ := inv_of_unwatched h
  obtain ⟨N, hN⟩ := room_of_run h
  refine ⟨⟨N, hN N (Nat.le_refl N)⟩, ?_⟩
  rcases hinv.canStep hi with hblocked | hcan
  · cases hblocked with
    | growLock hpc hb hlt hm =>
      obtain ⟨j, hj⟩ := Option.ne_none_iff_exists'.1 hm
      obtain ⟨k, -, hk⟩ := hinv.unblocked hb hlt hj
      exact ⟨k, hk⟩
    | lock hpc hb hm =>
      obtain ⟨j, hj⟩ := Option.ne_none_iff_exists'.1 hm
      obtain ⟨k, -, hk⟩ := hinv.unblocked hb (hash_lt _ _) hj
      exact ⟨k, hk⟩
    | asleep hpc => exact absurd hpc (ha _)
  · exact ⟨i, ha, hcan⟩

/-- Thread 5 has locked every bucket while thread 1 waits for one. -/
theorem lot_progress_crowd : ∃ s, Run step Any .init s ∧ s.pc 5 = .growLock 6 0 16 ∧ s.pc 1 = .lock 8 (.park 0 true) 0 ∧
    ∃ j, (∀ timeout, s.pc j ≠ .asleep timeout) ∧ CanStep s j := by
  obtain ⟨s, h, heq⟩ : ∃ s, Run step Any .init s ∧ (s.pc 5, s.pc 1) = (.growLock 6 0 16, .lock 8 (.park 0 true) 0) :=
    Run.of_exec_map (f := fun s : State => (s.pc 5, s.pc 1)) (l := crowd 1 18) (by decide +kernel)
  obtain ⟨h5, h1⟩ := Prod.mk.inj heq
  refine ⟨s, h, h5, h1, (lot_progress (i := 1) h ?_ fun timeout => ?_).2⟩
  · rw [h1]
    rintro ⟨⟩
  · rw [h1]
    rintro ⟨⟩

/-- A thread in a call either waits or makes its step: it never touches a freed table or a null pointer, its loops
end, and `debug_assert!` holds. -/
theorem never_crashes (h : Run step Any .init s) (hi : s.pc i ≠ .idle) : Blocked s i ∨ CanStep s i := by
  obtain ⟨Q, hinv⟩ := inv_of_unwatched h
  exact hinv.canStep hi

theorem never_crashes_crowd : ∃ s, Run step Any .init s ∧ s.pc 5 = .growMove 0 5 15 ∧ CanStep s 5 := by
  obtain ⟨s, h, hpc⟩ : ∃ s, Run step Any .init s ∧ s.pc 5 = .growMove 0 5 15 :=
    Run.of_exec_map (f := fun s : State => s.pc 5) (l := crowd 5 34) (by decide +kernel)
  refine ⟨s, h, hpc, (never_crashes (i := 5) h (by rw [hpc]; rintro ⟨⟩)).resolve_left ?_⟩
  intro hblocked
  cases hblocked with
  | growLock hpc' | lock hpc' | asleep hpc' => cases hpc.symm.trans hpc'

end CoQueue.Mutex.Lot
