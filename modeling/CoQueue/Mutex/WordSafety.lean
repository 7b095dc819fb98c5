import CoQueue.Mutex.WordNodes

/-!
# What a `WordLock` guarantees

In every run: one thread at a time holds the lock and one at a time walks the queue; no step accesses a
`ThreadData` that is gone; a thread that is about to be unparked is asleep or about to be, and nobody else
will wake it; threads leave the queue in the order in which they joined it; and a thread never sleeps on
while all others are outside of the lock or asleep too.
-/

namespace CoQueue.Mutex.WordLock

open Schedule Token Linked

variable {s s' : State} {i j : Tid} {fresh done : List Usize} {pc pc' : Pc}

theorem inv_of_run (h : Run step Any .init s) : ∃ fresh done, Inv s fresh done := by
  refine h.invariant (P := fun s => ∃ fresh done, Inv s fresh done) ⟨[], [], inv_init⟩ ?_
  rintro t a u ⟨fresh, done, hinv⟩ - hs
  obtain ⟨i, hs⟩ := step_cases hs
  obtain ⟨fresh', done', hinv', -⟩ := hinv.step hs
  exact ⟨fresh', done', hinv'⟩

/-- `n` steps of thread `i`, with its `ThreadData` at `addr`. -/
def turns (i : Tid) (n : Nat) (addr : Usize) : List Act := List.replicate n (.run i false addr)

/-- Thread 1 queues up while thread 0 has the lock, and thread 0 takes it off the queue. -/
def handOver : List Act :=
  [.lock 0] ++ turns 0 1 0 ++ [.lock 1] ++ turns 1 16 8 ++ [.unlock 0] ++ turns 0 11 0

theorem handOver_run : ∃ s, Run step Any .init s ∧ (s.pc 0, s.pc 1) = (.unpark 8, .asleep 8) :=
  Run.of_exec_map (l := handOver) (by decide +kernel)

theorem Pc.holds_pos (pc : Pc) : 0 < pc.holds ↔ pc = .holding ∨ pc = .unlockFast := by
  cases pc <;> simp [Pc.holds]

/-- The lock bit is set exactly while some thread has the lock, and then one thread has it; no two threads
walk the queue, and nobody does while the queue bit is clear. -/
theorem lock_exclusive (h : Run step Any .init s) :
    (isLocked s.word = true ↔ ∃ i, s.pc i = .holding ∨ s.pc i = .unlockFast) ∧
    (∀ i j, (s.pc i = .holding ∨ s.pc i = .unlockFast) → (s.pc j = .holding ∨ s.pc j = .unlockFast) → i = j) ∧
    (isQueueLocked s.word = true ↔ ∃ i, (s.pc i).works = 1) ∧
    ∀ i j, (s.pc i).works = 1 → (s.pc j).works = 1 → i = j := by
  obtain ⟨fresh, done, hinv⟩ := inv_of_run h
  have hworks : ∀ i, 0 < (s.pc i).works ↔ (s.pc i).works = 1 := fun i => by
    have := hinv.queueLock.le_one i
    omega
  refine ⟨?_, fun i j hi hj => ?_, ?_, fun i j hi hj => ?_⟩
  · simpa only [Pc.holds_pos] using hinv.lock.iff_pos
  · exact hinv.lock.unique ((Pc.holds_pos _).2 hi) ((Pc.holds_pos _).2 hj)
  · simpa only [hworks] using hinv.queueLock.iff_pos
  · exact hinv.queueLock.unique ((hworks i).2 hi) ((hworks j).2 hj)

theorem lock_exclusive_handOver : ∃ s, Run step Any .init s ∧ s.pc 1 = .asleep 8 ∧
    ∀ i j, (s.pc i = .holding ∨ s.pc i = .unlockFast) → (s.pc j = .holding ∨ s.pc j = .unlockFast) → i = j := by
  obtain ⟨s, h, hpc⟩ := handOver_run
  exact ⟨s, h, (Prod.mk.inj hpc).2, (lock_exclusive h).2.1⟩

/-- No thread accesses a `ThreadData` that is not there. -/
theorem never_dangling (h : Run step Any .init s) (i : Tid) : s.pc i ≠ .crash := by
  obtain ⟨fresh, done, hinv⟩ := inv_of_run h
  intro hpc
  have hfact := hinv.fact i
  rwa [hpc] at hfact

theorem never_dangling_handOver :
    ∃ s, Run step Any .init s ∧ s.pc 0 = .unpark 8 ∧ ∀ i, s.pc i ≠ .crash := by
  obtain ⟨s, h, hpc⟩ := handOver_run
  exact ⟨s, h, (Prod.mk.inj hpc).1, never_dangling h⟩

/-- A thread that is about to be unparked is inside `park` with its futex word set, and no other thread is
about to unpark it. -/
theorem unparks_sleeper (h : Run step Any .init s) {t : Usize} (hpc : s.pc i = .unpark t) :
    (∃ j d, (s.pc j = .park t ∨ s.pc j = .futexWait t ∨ s.pc j = .asleep t) ∧ s.mem t = some d ∧ d.futex = 1 ∧
      ∀ k, (s.pc k).node = some t → k = j) ∧ ∀ k, s.pc k = .unpark t ∨ s.pc k = .leave t → k = i := by
  obtain ⟨fresh, done, hinv⟩ := inv_of_run h
  obtain ⟨-, j, d, hj, hd, hf⟩ := hinv.taken i t (by rw [hpc]; rfl)
  refine ⟨⟨j, d, ?_, hd, hf, fun k hk => hinv.own k j t hk (Pc.node_of_parked hj)⟩, fun k hk => ?_⟩
  · generalize s.pc j = x at hj
    cases x <;> cases hj <;> simp
  · refine hinv.once k i t ?_ (by rw [hpc]; rfl)
    rcases hk with hk | hk <;> rw [hk] <;> rfl

theorem unparks_sleeper_handOver :
    ∃ s, Run step Any .init s ∧ s.pc 0 = .unpark 8 ∧ ∀ k, s.pc k = .unpark 8 ∨ s.pc k = .leave 8 → k = 0 := by
  obtain ⟨s, h, hpc⟩ := handOver_run
  have hpc := (Prod.mk.inj hpc).1
  exact ⟨s, h, hpc, (unparks_sleeper h hpc).2⟩

/-! ### First come, first served -/

/-- The log of the queue: who joined and what was taken off, in this order. -/
def note (s : State) (a : Act) (log : List Event) : List Event := log ++ (event s a).toList

def joined (log : List Event) : List (Tid × Usize) :=
  log.filterMap fun
    | .joins i me => some (i, me)
    | .taken _ => none

def takenOff (log : List Event) : List Usize :=
  log.filterMap fun
    | .joins _ _ => none
    | .taken queueTail => some queueTail

/-- Inside `park` a thread stays until its futex word is cleared. -/
theorem Step.parked {e : Option Event} {p : Usize} {d : ThreadData} (hs : Step s i e s')
    (hj : (s.pc j).parked = some p) (hd : s.mem p = some d) (hf : d.futex = 1) :
    (s'.pc j).parked = some p := by
  -- a step of another thread
  have hother : ∀ pc, j ≠ i → (Function.update s.pc i pc j).parked = some p := fun pc hji => by
    rwa [Function.update_of_ne hji]
  cases hs with
  | move hm =>
    by_cases hji : j = i
    · subst j
      rw [State.goto_pc, Function.update_self]
      rcases hm.parked with hsame | ⟨-, q, d', hq, hd', hf'⟩
      · exact hsame.trans hj
      · obtain rfl := Option.some.inj (hj.symm.trans hq)
        obtain rfl := Option.some.inj (hd.symm.trans hd')
        omega
    · exact hother _ hji
  | wake hpc =>
    by_cases hji : j = i
    · subst j
      rw [hpc] at hj
      cases hj
    · rw [State.goto_pc, Function.update_of_ne hji]
      dsimp only
      split
      · rename_i hsleep
        rw [hsleep] at hj
        exact hj
      · exact hj
  | crash hacc hm =>
    by_cases hji : j = i
    · subst j
      generalize s.pc i = x at hacc hj
      cases hacc <;> cases hj <;> cases hm.symm.trans hd
    · exact hother _ hji
  | grabFast hpc | grab hpc | prepare hpc | push hpc | back hpc | woken hpc | unlockFast hpc
  | unlockTry hpc | link hpc | setTail hpc | settle hpc | dropLast hpc | cut hpc | leave hpc | unpark hpc =>
    refine hother _ ?_
    rintro rfl
    rw [hpc] at hj
    cases hj

/-- Who joined is, in this order, who was taken off and then who is waiting still. -/
structure Ordered (s : State) (q : List Usize) (log : List Event) (served waiting : List (Tid × Usize)) :
    Prop where
  all : joined log = served ++ waiting
  off : served.map Prod.snd = takenOff log
  queue : waiting.map Prod.snd = q.reverse
  parked : ∀ w ∈ waiting, (s.pc w.1).parked = some w.2

theorem Ordered.waits {log : List Event} {served waiting : List (Tid × Usize)} {w : Tid × Usize}
    (h : Ordered s (fresh ++ done) log served waiting) (hinv : Inv s fresh done) (hw : w ∈ waiting) :
    ∃ d, s.mem w.2 = some d ∧ d.futex = 1 := by
  have hmem : w.2 ∈ (fresh ++ done).reverse := h.queue ▸ List.mem_map_of_mem hw
  obtain ⟨-, d, -, hd, hf⟩ := hinv.queued w.2 (List.mem_reverse.1 hmem)
  exact ⟨d, hd, hf⟩

theorem Step.joins {k : Tid} {me : Usize} (hs : Step s i (some (.joins k me)) s')
    (hcrash : ∀ p, Access s (s.pc i) p → s.mem p ≠ none) : (s'.pc k).parked = some me := by
  cases hs with
  | push hpc =>
    rw [State.goto_pc, Function.update_self]
    rfl
  | crash hacc hm => exact absurd hm (hcrash _ hacc)

theorem Ordered.step {q q' : List Usize} {log : List Event} {served waiting : List (Tid × Usize)}
    {e : Option Event} (h : Ordered s q log served waiting) (hpark : ∀ w ∈ waiting, (s'.pc w.1).parked = some w.2)
    (hturn : Turn e q q') (hnew : ∀ k me, e = some (.joins k me) → (s'.pc k).parked = some me) :
    ∃ served' waiting', Ordered s' q' (log ++ e.toList) served' waiting' := by
  obtain ⟨hjoined, hserved, hwaiting, -⟩ := h
  cases e with
  | none =>
    obtain rfl : q' = q := hturn
    exact ⟨served, waiting, by simpa using hjoined, by simpa using hserved, hwaiting, hpark⟩
  | some e => cases e with
    | joins k me =>
      obtain rfl : q' = me :: q := hturn
      refine ⟨served, waiting ++ [(k, me)], ?_, ?_, ?_, fun w hw => ?_⟩
      · rw [← List.append_assoc, ← hjoined]
        simp [joined]
      · simpa [takenOff] using hserved
      · simpa using hwaiting
      · rcases List.mem_append.1 hw with hw | hw
        · exact hpark w hw
        · rw [List.mem_singleton.1 hw]
          exact hnew k me rfl
    | taken t =>
      rw [show q = q' ++ [t] from hturn, List.reverse_append, List.reverse_singleton, List.singleton_append,
        List.map_eq_cons_iff] at hwaiting
      obtain ⟨w, rest, rfl, hw, hrest⟩ := hwaiting
      refine ⟨served ++ [w], rest, ?_, ?_, hrest, fun w' hw' => hpark w' (List.mem_cons_of_mem _ hw')⟩
      · simpa [joined] using hjoined
      · simpa [takenOff, hw] using hserved

/-- Threads are taken off the queue in the order in which they joined it, and who has not been taken off
is waiting. -/
theorem taken_in_order {log : List Event}
    (h : Run (watch step note) (fun w a => Any w.1 a) (.init, []) (s, log)) :
    ∃ served waiting, joined log = served ++ waiting ∧ served.map Prod.snd = takenOff log ∧
      ∀ w ∈ waiting, ∃ d, (s.pc w.1).parked = some w.2 ∧ s.mem w.2 = some d ∧ d.futex = 1 := by
  obtain ⟨fresh, done, served, waiting, hinv, hord⟩ : ∃ fresh done served waiting,
      Inv s fresh done ∧ Ordered s (fresh ++ done) log served waiting := by
    refine h.invariant (P := fun w => ∃ fresh done served waiting,
      Inv w.1 fresh done ∧ Ordered w.1 (fresh ++ done) w.2 served waiting) ?_ ?_
    · exact ⟨[], [], [], [], inv_init, rfl, rfl, rfl, by simp⟩
    · rintro ⟨t, log⟩ a ⟨u, log'⟩ ⟨fresh, done, served, waiting, hinv, hord⟩ - hs
      obtain ⟨hs, rfl⟩ := watch_eq hs
      obtain ⟨i, hs⟩ := step_cases hs
      obtain ⟨fresh', done', hinv', hturn⟩ := hinv.step hs
      have hpark : ∀ w ∈ waiting, (u.pc w.1).parked = some w.2 := by
        intro w hw
        obtain ⟨d, hd, hf⟩ := hord.waits hinv hw
        exact hs.parked (hord.parked w hw) hd hf
      have hnew : ∀ k me, event t a = some (.joins k me) → (u.pc k).parked = some me := by
        intro k me he
        rw [he] at hs
        exact hs.joins fun p hacc => hinv.access hacc
      obtain ⟨served', waiting', hord'⟩ := hord.step hpark hturn hnew
      exact ⟨fresh', done', served', waiting', hinv', hord'⟩
  refine ⟨served, waiting, hord.all, hord.off, fun w hw => ?_⟩
  obtain ⟨d, hd, hf⟩ := hord.waits hinv hw
  exact ⟨d, hord.parked w hw, hd, hf⟩

theorem taken_in_order_handOver :
    ∃ s log, Run (watch step note) (fun w a => Any w.1 a) (.init, []) (s, log) ∧
      log = [.joins 1 8, .taken 8] ∧ ∃ served waiting, joined log = served ++ waiting ∧
        served.map Prod.snd = takenOff log := by
  obtain ⟨⟨s, log⟩, h, hlog⟩ : ∃ w, Run (watch step note) (fun w a => Any w.1 a) (.init, []) w ∧
      w.2 = [.joins 1 8, .taken 8] := Run.of_exec_map (l := handOver) (f := Prod.snd) (by decide +kernel)
  obtain ⟨served, waiting, hjoined, hserved, -⟩ := taken_in_order h
  exact ⟨s, log, h, hlog, served, waiting, hjoined, hserved⟩

/-! ### Nobody is forgotten -/

/-- The thread will take the lock, queue up behind somebody who has it, or see to a waiting thread. -/
def Active (mem : Usize → Option ThreadData) : Pc → Prop
  | .lockFast | .slowLoad _ | .slowGrab _ _ | .slowPrepare _ _ | .slowPush _ _ _ | .woken _ => True
  | .park me | .futexWait me | .asleep me => ∃ d, mem me = some d ∧ d.futex = 0
  | .unlockLoad | .unlockTry _ | .unpark _ => True
  | _ => False

/-- With both locks free, somebody looks after the queue. -/
def Awake (s : State) (q : List Usize) : Prop :=
  isLocked s.word = false → isQueueLocked s.word = false → q ≠ [] → ∃ i, Active s.mem (s.pc i)

theorem slowLoop_active (mem : Usize → Option ThreadData) (wait : Nat) (state : Usize) :
    Active mem (slowLoop wait state) := by
  rcases slowLoop_cases wait state with ⟨-, h⟩ | h | ⟨-, h⟩ <;> rw [h] <;> trivial

theorem Active.congr {mem mem' : Usize → Option ThreadData} (h : Active mem pc)
    (hmem : ∀ p, pc.parked = some p → mem' p = mem p) : Active mem' pc := by
  cases pc
  case park me | futexWait me | asleep me =>
    obtain ⟨d, hd, hf⟩ := h
    exact ⟨d, (hmem me rfl).trans hd, hf⟩
  all_goals exact h

theorem Moves.active (hm : Moves s pc pc') (h : Active s.mem pc) (hfree : isQueueLocked s.word = false)
    (hhead : queueHead s.word ≠ 0) : Active s.mem pc' := by
  cases hm with
  | fast | again | interrupt => exact h
  | load | lost => exact slowLoop_active ..
  | wait hd hf =>
    obtain ⟨d, hd', hf'⟩ := h
    obtain rfl := Option.some.inj (hd.symm.trans hd')
    exact absurd hf' hf
  | up => trivial
  | sleep hd hf =>
    obtain ⟨d, hd', hf'⟩ := h
    obtain rfl := Option.some.inj (hd.symm.trans hd')
    omega
  | look | missed =>
    rcases unlockLoop_cases s.word with ⟨hl | hh, -⟩ | ⟨-, -, hpc⟩
    · cases hl.symm.trans hfree
    · exact absurd hh hhead
    · rw [hpc]
      trivial
  | _ => cases h

theorem Awake.step {e : Option Event} {fresh' done' : List Usize} (hA : Awake s (fresh ++ done))
    (h : Inv s fresh done) (hs : Step s i e s') (h' : Inv s' fresh' done')
    (hturn : Turn e (fresh ++ done) (fresh' ++ done')) : Awake s' (fresh' ++ done') := by
  intro hlock hqueue hne
  have hworks : (s'.pc i).works = 0 := Held.eq_zero (f := fun j => (s'.pc j).works) (hqueue ▸ h'.queueLock) i
  -- the active thread of before, if it is not the one that moves
  have hother : ∀ {word mem pc'}, isLocked s.word = false → isQueueLocked s.word = false → fresh ++ done ≠ [] →
      (∀ j p, j ≠ i → (s.pc j).parked = some p → mem p = s.mem p) → (Active s.mem (s.pc i) → Active mem pc') →
      ∃ j, Active mem ((State.mk word mem (Function.update s.pc i pc')).pc j) := by
    intro word mem pc' h1 h2 h3 hmem hi
    obtain ⟨j, hj⟩ := hA h1 h2 h3
    by_cases hji : j = i
    · subst j
      exact ⟨i, by simpa using hi hj⟩
    · exact ⟨j, by simpa [hji] using hj.congr fun p hp => hmem j p hji hp⟩
  have hnode : ∀ j p q, j ≠ i → (s.pc j).parked = some p → (s.pc i).node = some q → p ≠ q := by
    rintro j p q hji hj hi rfl
    exact hji (h.own j i p (Pc.node_of_parked hj) hi)
  have hfact := h.fact i
  cases hs with
  | move hm =>
    rw [show fresh' ++ done' = fresh ++ done from hturn] at hne
    obtain ⟨p, hp⟩ := List.exists_mem_of_ne_nil _ hne
    exact hother hlock hqueue hne (fun _ _ _ _ => rfl) fun ha =>
      hm.active ha hqueue (h.head_ne_zero (h.lazy.ne_nil hp))
  | grabFast hpc hw => cases hlock.symm.trans (show isLocked lockedBit = true by decide)
  | grab hpc => cases hlock.symm.trans (isLocked_or_lockedBit s.word)
  | @prepare wait state addr hpc h0 ha hm =>
    rw [show fresh' ++ done' = fresh ++ done from hturn] at hne
    refine hother hlock hqueue hne (fun j p hji hp => Function.update_of_ne ?_ _ _) fun _ => trivial
    rintro rfl
    exact (h.node j p (Pc.node_of_parked hp)).1 hm
  | push hpc =>
    rw [hpc] at hfact
    obtain ⟨-, -, halign⟩ := h.node i _ (by rw [hpc]; rfl)
    have hl : isLocked s.word = false := (isLocked_withQueueHead s.word halign).symm.trans hlock
    cases hl.symm.trans hfact.1
  | back hpc =>
    rw [show fresh' ++ done' = fresh ++ done from hturn] at hne
    exact hother hlock hqueue hne
      (fun j p hji hp => Function.update_of_ne (hnode j p _ hji hp (by rw [hpc]; rfl)) _ _)
      fun _ => slowLoop_active ..
  | woken hpc =>
    rw [show fresh' ++ done' = fresh ++ done from hturn] at hne
    exact hother hlock hqueue hne
      (fun j p hji hp => Function.update_of_ne (hnode j p _ hji hp (by rw [hpc]; rfl)) _ _)
      fun _ => slowLoop_active ..
  | unlockFast hpc =>
    rw [show fresh' ++ done' = fresh ++ done from hturn] at hne
    obtain ⟨p, hp⟩ := List.exists_mem_of_ne_nil _ hne
    have hw : isLocked s.word = true := h.lock.set_of_pos (i := i) (by rw [hpc]; exact Nat.one_pos)
    have hq : isQueueLocked s.word = false := (isQueueLocked_sub_lockedBit _ hw).symm.trans hqueue
    have hh : (queueHead s.word == 0) = false := beq_eq_false_iff_ne.2 (h.head_ne_zero (h.lazy.ne_nil hp))
    refine ⟨i, ?_⟩
    rw [hq, hh, State.goto_pc, Function.update_self]
    trivial
  | unlockTry hpc => cases hqueue.symm.trans (isQueueLocked_or_queueLockedBit s.word)
  | link hpc | cut hpc =>
    rw [State.goto_pc, Function.update_self] at hworks
    cases hworks
  | @setTail state queueTail d hpc =>
    rw [State.goto_pc, Function.update_self] at hworks
    cases hl : isLocked state <;> rw [hl] at hworks <;> cases hworks
  | settle hpc =>
    rw [hpc] at hfact
    cases hfact.1.symm.trans ((isLocked_andNot_queueLockedBit s.word).symm.trans hlock)
  | dropLast hpc =>
    have hnil := (h.dropLast hpc).1
    rw [show fresh ++ done = fresh' ++ done' ++ [_] from hturn] at hnil
    exact absurd (List.append_left_eq_self.1 hnil) hne
  | leave hpc => exact ⟨i, by rw [State.goto_pc, Function.update_self]; trivial⟩
  | @unpark t d hpc hd =>
    obtain ⟨-, k, -, hk, -⟩ := h.taken i t (by rw [hpc]; rfl)
    have hki : k ≠ i := by
      rintro rfl
      rw [hpc] at hk
      cases hk
    refine ⟨k, ?_⟩
    rw [State.goto_pc, Function.update_of_ne hki, State.setMem_pc]
    have hmem : ∃ e, Function.update s.mem t (some { d with futex := 0 }) t = some e ∧ e.futex = 0 :=
      ⟨_, Function.update_self .., rfl⟩
    generalize s.pc k = x at hk
    cases x <;> cases hk <;> exact hmem
  | @wake t hpc =>
    rw [show fresh' ++ done' = fresh ++ done from hturn] at hne
    obtain ⟨j, hj⟩ := hA hlock hqueue hne
    have hji : j ≠ i := by
      rintro rfl
      rw [hpc] at hj
      exact hj
    refine ⟨j, ?_⟩
    rw [State.goto_pc, Function.update_of_ne hji]
    dsimp only
    split
    · rename_i hsleep
      rw [hsleep] at hj
      exact hj
    · exact hj
  | crash hacc hm => exact absurd hm (h.access hacc)

theorem exists_awake {p : Usize} (h : Run step Any .init s) (hj : s.pc j = .asleep p) :
    ∃ i, s.pc i ≠ .idle ∧ ∀ q, s.pc i ≠ .asleep q := by
  obtain ⟨fresh, done, hinv, hA⟩ : ∃ fresh done, Inv s fresh done ∧ Awake s (fresh ++ done) := by
    refine h.invariant (P := fun s => ∃ fresh done, Inv s fresh done ∧ Awake s (fresh ++ done))
      ⟨[], [], inv_init, fun _ _ hne => absurd rfl hne⟩ ?_
    rintro t a u ⟨fresh, done, hinv, hA⟩ - hs
    obtain ⟨i, hs⟩ := step_cases hs
    obtain ⟨fresh', done', hinv', hturn⟩ := hinv.step hs
    exact ⟨fresh', done', hinv', hA.step hinv hs hinv' hturn⟩
  by_contra hall
  have hquiet : ∀ i, s.pc i = .idle ∨ ∃ q, s.pc i = .asleep q := by
    intro i
    by_contra hi
    rw [not_or, not_exists] at hi
    exact hall ⟨i, hi.1, hi.2⟩
  have hlock : isLocked s.word = false := hinv.lock.eq_false fun i => by
    rcases hquiet i with hi | ⟨q, hi⟩ <;> rw [hi] <;> rfl
  have hqueue : isQueueLocked s.word = false := hinv.queueLock.eq_false fun i => by
    rcases hquiet i with hi | ⟨q, hi⟩ <;> rw [hi] <;> rfl
  -- a sleeper with its futex word clear would have its `FUTEX_WAKE` coming
  have hset : ∀ i q d, s.pc i = .asleep q → s.mem q = some d → d.futex ≠ 0 := by
    intro i q d hi hd hf
    obtain ⟨k, hk⟩ := hinv.woken i q d hi hd hf
    rcases hquiet k with hk' | ⟨r, hk'⟩ <;> cases hk.symm.trans hk'
  obtain ⟨d, hd⟩ := Option.ne_none_iff_exists'.1 (hinv.node j p (by rw [hj]; rfl)).1
  rcases hinv.waits j p d (by rw [hj]; rfl) hd (hset j p d hj hd) with hin | ⟨k, hk⟩
  · obtain ⟨i, hi⟩ := hA hlock hqueue (List.ne_nil_of_mem hin)
    rcases hquiet i with hpc | ⟨q, hpc⟩ <;> rw [hpc] at hi
    · exact hi
    · obtain ⟨e, he, hf⟩ := hi
      exact hset i q e hpc he hf
  · rcases hquiet k with hpc | ⟨q, hpc⟩ <;> rw [hpc] at hk <;> cases hk

/-- While a thread sleeps, some thread has the lock or is under way in `lock` or `unlock`: it cannot be
that everybody is outside or asleep. -/
theorem sleeper_not_forgotten {p : Usize} (h : Run step Any .init s) (hj : s.pc j = .asleep p) :
    ∃ i, s.pc i ≠ .idle ∧ ∀ q, s.pc i ≠ .asleep q := exists_awake h hj

theorem sleeper_not_forgotten_handOver :
    ∃ s, Run step Any .init s ∧ s.pc 1 = .asleep 8 ∧ ∃ i, s.pc i ≠ .idle ∧ ∀ q, s.pc i ≠ .asleep q := by
  obtain ⟨s, h, hpc⟩ := handOver_run
  have hpc := (Prod.mk.inj hpc).2
  exact ⟨s, h, hpc, sleeper_not_forgotten h hpc⟩

end CoQueue.Mutex.WordLock
