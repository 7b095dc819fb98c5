import CoQueue.Mutex.WordSafety

/-!
# `unlock` returns

A thread inside `unlock` that is left alone (and whose `compare_exchange_weak` does not fail for no
reason) returns. The walk visits every node at most once. When it is over, `unlock_slow` is done, or the
word has changed since the walk began and it walks a second time, now from the front of the queue as it
is; this second walk is the last one.
-/

namespace CoQueue.Mutex.WordLock

open Schedule Token Linked

variable {s s' : State} {i j : Tid} {fresh done : List Usize} {state current t : Usize}

/-- Thread `i` on its own. -/
def solo (i : Tid) (s : State) : Option State := step s (.run i false 0)

theorem solo_eq {pc : Pc} (hpc : s.pc i = pc) : solo i s = stepPc s i false 0 pc := by
  rw [solo, step, hpc]

theorem deref_some {p : Usize} {d : ThreadData} (hd : s.mem p = some d) (f : ThreadData → State) :
    s.deref i p f = f d := by
  rw [State.deref, hd]

/-- Thread `i` alone gets from `s` to a state with `P`. -/
def Reaches (i : Tid) (s : State) (P : State → Prop) : Prop := ∃ s', Leads (solo i) s s' ∧ P s'

namespace Reaches
variable {P Q : State → Prop}

theorem here (h : P s) : Reaches i s P := ⟨s, .refl s, h⟩

theorem step (hs : solo i s = some s') (h : Reaches i s' P) : Reaches i s P := by
  obtain ⟨t, hleads, hP⟩ := h
  exact ⟨t, .head hs hleads, hP⟩

theorem andThen (h : Reaches i s P) (hPQ : ∀ s', P s' → Reaches i s' Q) : Reaches i s Q := by
  obtain ⟨s', hleads, hP⟩ := h
  obtain ⟨t, hleads', hQ⟩ := hPQ s' hP
  exact ⟨t, hleads.trans hleads', hQ⟩

end Reaches

theorem Inv.walk (h : Inv s fresh done) (hpc : s.pc i = .scan state current) :
    Reaches i s fun s' => s'.word = s.word ∧
      ∃ t fresh' done', s'.pc i = .setTail state t ∧ Inv s' fresh' done' := by
  -- on the number of nodes behind `current`
  generalize hn : (fresh ++ done).length - (fresh ++ done).idxOf current = n
  induction n using Nat.strongRecOn generalizing s current with
  | ind n ih =>
    have hfact := h.fact i
    rw [hpc] at hfact
    have hacc : Access s (s.pc i) current := by rw [hpc]; exact .scan ..
    obtain ⟨d, hd⟩ := Option.ne_none_iff_exists'.1 (h.access hacc)
    by_cases htail : d.queueTail = 0
    · -- `current` is linked to the node behind it
      have hmove : Moves s (s.pc i) (.link state current) := by rw [hpc]; exact .behind hd htail
      have hlink := h.move hmove
      have hpc' : (s.goto i (.link state current)).pc i = .link state current := by simp
      have hacc' : Access (s.goto i (.link state current)) ((s.goto i (.link state current)).pc i) d.next := by
        rw [hpc']
        exact .linkNext hd
      obtain ⟨e, he⟩ := Option.ne_none_iff_exists'.1 (hlink.access hacc')
      have hidx := Walk.next_idxOf hfact h.lazy ((cells_of_mem hd).2.2.trans htail)
      rw [(cells_of_mem hd).1] at hidx
      have hlt := List.idxOf_lt_length_iff.2 (Walk.mem hfact)
      have hscan := ih _ (by rw [← hn]; omega) (hlink.link hpc' hd he) (Function.update_self ..) rfl
      refine .step (by rw [solo_eq hpc, stepPc, deref_some hd, if_neg (not_not.2 htail)]) (.step ?_ hscan)
      rw [solo_eq hpc', stepPc, deref_some (s := s.goto i _) hd, deref_some (s := s.goto i _) he]
    · have hmove : Moves s (s.pc i) (.setTail state d.queueTail) := by rw [hpc]; exact .found hd htail
      refine .step (by rw [solo_eq hpc, stepPc, deref_some hd, if_pos htail]) (.here ?_)
      exact ⟨rfl, d.queueTail, fresh, done, by simp, h.move hmove⟩

theorem Inv.finish (h : Inv s fresh done) (hpc : s.pc i = .unpark t) :
    Reaches i s fun s' => s'.pc i = .idle := by
  have hacc : Access s (s.pc i) t := by rw [hpc]; exact .unpark t
  obtain ⟨d, hd⟩ := Option.ne_none_iff_exists'.1 (h.access hacc)
  have hunpark : solo i s = some ((s.setMem t (some { d with futex := 0 })).goto i (.wake t)) := by
    rw [solo_eq hpc, stepPc, deref_some hd]
  have hwake : ∀ s' : State, s'.pc i = .wake t → Reaches i s' fun s' => s'.pc i = .idle := by
    intro s' hpc'
    refine .step (by rw [solo_eq hpc', stepPc]) (.here ?_)
    simp
  exact .step hunpark (hwake _ (by simp))

/-- `unlock_slow` returns or, if the word is not `state` any more, begins to walk the queue as it is. -/
def Ends (i : Tid) (state : Usize) (s : State) : Prop :=
  Reaches i s fun s' => s'.pc i = .idle ∨ state ≠ s.word ∧ s'.word = s.word ∧
    s'.pc i = .scan s.word (queueHead s.word) ∧ ∃ fresh' done', Inv s' fresh' done'

theorem Ends.step (hs : solo i s = some s') (hword : s'.word = s.word) (h : Ends i state s') :
    Ends i state s := by
  unfold Ends at h
  rw [hword] at h
  exact Reaches.step hs h

theorem Ends.of_idle (h : Reaches i s fun s' => s'.pc i = .idle) : Ends i state s :=
  h.andThen fun _ hs' => .here (.inl hs')

theorem Inv.dropLast_ends (h : Inv s fresh done) (hpc : s.pc i = .dropLast state t) : Ends i state s := by
  by_cases hst : s.word = state
  · subst state
    refine .of_idle (.step (by rw [solo_eq hpc, stepPc, if_pos ⟨rfl, rfl⟩]) ?_)
    exact (h.dropLast hpc).2.finish (Function.update_self ..)
  · have hfact := h.fact i
    rw [hpc] at hfact
    have hhead := h.head_ne_zero (by rw [hfact.2]; exact List.cons_ne_nil _ _)
    have hmove : Moves s (s.pc i) (.scan s.word (queueHead s.word)) := by rw [hpc]; exact .grown hhead
    refine Reaches.step (by rw [solo_eq hpc, stepPc, if_neg fun hc => hst hc.1, if_neg hhead])
      (.here (.inr ?_))
    exact ⟨Ne.symm hst, rfl, by simp, fresh, done, h.move hmove⟩

theorem Inv.leave_returns (h : Inv s fresh done) (hpc : s.pc i = .leave t) :
    Reaches i s fun s' => s'.pc i = .idle := by
  have h' : Inv ((s.setWord (s.word &&& ~~~queueLockedBit)).goto i (.unpark t)) fresh done :=
    h.release (by rw [hpc]; rfl) rfl (by rw [hpc]; rfl) (by rw [hpc]; rfl) rfl (by rw [hpc]; rfl) trivial
  exact .step (by rw [solo_eq hpc, stepPc]) (h'.finish (Function.update_self ..))

theorem Inv.cut_returns {newTail : Usize} (h : Inv s fresh done) (hpc : s.pc i = .cut state t newTail) :
    Reaches i s fun s' => s'.pc i = .idle := by
  have hacc : Access s (s.pc i) (queueHead state) := by rw [hpc]; exact .cut ..
  obtain ⟨d, hd⟩ := Option.ne_none_iff_exists'.1 (h.access hacc)
  obtain ⟨done', -, h'⟩ := h.cut hpc hd
  exact .step (by rw [solo_eq hpc, stepPc, deref_some hd]) (h'.leave_returns (Function.update_self ..))

theorem Inv.newTail_ends (h : Inv s fresh done) (hpc : s.pc i = .newTail state t) : Ends i state s := by
  have hacc : Access s (s.pc i) t := by rw [hpc]; exact .newTail ..
  obtain ⟨d, hd⟩ := Option.ne_none_iff_exists'.1 (h.access hacc)
  by_cases hprev : d.prev = 0
  · have hmove : Moves s (s.pc i) (.dropLast state t) := by rw [hpc]; exact .only hd hprev
    have hstep : solo i s = some (s.goto i (.dropLast state t)) := by
      rw [solo_eq hpc, stepPc, deref_some hd, if_pos hprev]
    exact .step hstep rfl ((h.move hmove).dropLast_ends (Function.update_self ..))
  · have hmove : Moves s (s.pc i) (.cut state t d.prev) := by rw [hpc]; exact .several hd hprev
    exact .of_idle (.step (by rw [solo_eq hpc, stepPc, deref_some hd, if_neg hprev])
      ((h.move hmove).cut_returns (Function.update_self ..)))

theorem Inv.settle_ends (h : Inv s fresh done) (hpc : s.pc i = .settle state) : Ends i state s := by
  by_cases hst : s.word = state
  · refine Reaches.step (by rw [solo_eq hpc, stepPc, if_pos ⟨hst, rfl⟩]) (.here (.inl ?_))
    simp
  · have hmove : Moves s (s.pc i) (.scan s.word (queueHead s.word)) := by rw [hpc]; exact .rescan state
    refine Reaches.step (by rw [solo_eq hpc, stepPc, if_neg fun hc => hst hc.1]) (.here (.inr ?_))
    exact ⟨Ne.symm hst, rfl, by simp, fresh, done, h.move hmove⟩

theorem Inv.setTail_ends (h : Inv s fresh done) (hpc : s.pc i = .setTail state t) : Ends i state s := by
  have hacc : Access s (s.pc i) (queueHead state) := by rw [hpc]; exact .setTail ..
  obtain ⟨d, hd⟩ := Option.ne_none_iff_exists'.1 (h.access hacc)
  obtain ⟨fresh', done', -, h'⟩ := h.setTail hpc hd
  have hstep : solo i s = some ((s.setMem (queueHead state) (some { d with queueTail := t })).goto i
      (if isLocked state then .settle state else .newTail state t)) := by
    rw [solo_eq hpc, stepPc, deref_some hd]
  cases hl : isLocked state with
  | true =>
    rw [hl, if_pos rfl] at hstep h'
    exact .step hstep rfl (h'.settle_ends (Function.update_self ..))
  | false =>
    rw [hl, if_neg (by decide)] at hstep h'
    exact .step hstep rfl (h'.newTail_ends (Function.update_self ..))

theorem Inv.scan_ends (h : Inv s fresh done) (hpc : s.pc i = .scan state current) : Ends i state s := by
  refine (h.walk hpc).andThen ?_
  rintro s' ⟨hword, t, fresh', done', hpc', h'⟩
  rw [← hword]
  exact h'.setTail_ends hpc'

/-- The second walk is the last one. -/
theorem Ends.returns (h : Ends i state s) : Reaches i s fun s' => s'.pc i = .idle := by
  refine h.andThen ?_
  rintro s₁ (hidle | ⟨-, hword, hpc, fresh, done, h₁⟩)
  · exact .here hidle
  · refine (h₁.scan_ends hpc).andThen ?_
    rintro s₂ (hidle | ⟨hne, -⟩)
    · exact .here hidle
    · exact absurd hword.symm hne

/-- The thread is inside `unlock`. -/
def Pc.unlocking : Pc → Bool
  | .unlockFast | .unlockLoad | .unlockTry _ | .scan _ _ | .link _ _ | .setTail _ _ | .settle _
  | .newTail _ _ | .dropLast _ _ | .cut _ _ _ | .leave _ | .unpark _ | .wake _ => true
  | _ => false

theorem Inv.unlockTry_returns (h : Inv s fresh done) (hpc : s.pc i = .unlockTry s.word) :
    Reaches i s fun s' => s'.pc i = .idle := by
  refine .step (by rw [solo_eq hpc, stepPc, if_pos ⟨rfl, rfl⟩]) ?_
  exact ((h.unlockTry hpc).scan_ends (Function.update_self ..)).returns

theorem Inv.unlockLoop_returns (h : Inv s fresh done) {pc : Pc} (hpc : s.pc i = pc)
    (hm : Moves s pc (unlockLoop s.word)) :
    Reaches i (s.goto i (unlockLoop s.word)) fun s' => s'.pc i = .idle := by
  rcases unlockLoop_cases s.word with ⟨-, hloop⟩ | ⟨-, -, hloop⟩
  · rw [hloop]
    exact .here (Function.update_self ..)
  · have h' := h.move (hpc ▸ hm)
    rw [hloop] at h' ⊢
    exact h'.unlockTry_returns (Function.update_self ..)

theorem Inv.unlockLoad_returns (h : Inv s fresh done) (hpc : s.pc i = .unlockLoad) :
    Reaches i s fun s' => s'.pc i = .idle :=
  .step (by rw [solo_eq hpc, stepPc]) (h.unlockLoop_returns hpc .look)

theorem Inv.unlocking_returns (h : Inv s fresh done) (hpc : (s.pc i).unlocking = true) :
    Reaches i s fun s' => s'.pc i = .idle := by
  cases hi : s.pc i <;> rw [hi] at hpc <;> try cases hpc
  case unlockFast =>
    have h' := h.unlockFast hi
    refine .step (by rw [solo_eq hi, stepPc]) ?_
    cases hb : isQueueLocked s.word || queueHead s.word == 0 with
    | true => exact .here (by simp)
    | false =>
      rw [hb] at h'
      exact h'.unlockLoad_returns (Function.update_self ..)
  case unlockLoad => exact h.unlockLoad_returns hi
  case unlockTry state =>
    by_cases hst : s.word = state
    · subst state
      exact h.unlockTry_returns hi
    · exact .step (by rw [solo_eq hi, stepPc, if_neg fun hc => hst hc.1])
        (h.unlockLoop_returns hi (.missed state))
  case scan state current => exact (h.scan_ends hi).returns
  case link state current =>
    have hacc : Access s (s.pc i) current := by rw [hi]; exact .link ..
    obtain ⟨d, hd⟩ := Option.ne_none_iff_exists'.1 (h.access hacc)
    have hacc' : Access s (s.pc i) d.next := by rw [hi]; exact .linkNext hd
    obtain ⟨e, he⟩ := Option.ne_none_iff_exists'.1 (h.access hacc')
    refine .step (by rw [solo_eq hi, stepPc, deref_some hd, deref_some he]) ?_
    exact ((h.link hi hd he).scan_ends (Function.update_self ..)).returns
  case setTail => exact (h.setTail_ends hi).returns
  case settle => exact (h.settle_ends hi).returns
  case newTail => exact (h.newTail_ends hi).returns
  case dropLast => exact (h.dropLast_ends hi).returns
  case cut => exact h.cut_returns hi
  case leave => exact h.leave_returns hi
  case unpark => exact h.finish hi
  case wake => exact .step (by rw [solo_eq hi, stepPc]) (.here (by simp))

/-- In every state of every run, a thread inside `unlock` returns if it is left alone for long enough. -/
theorem unlock_completes (h : Run step Any .init s) (hpc : (s.pc i).unlocking = true) :
    ∃ N, ∀ n, N ≤ n → (follow (solo i) n s).pc i = .idle := by
  obtain ⟨fresh, done, hinv⟩ := inv_of_run h
  obtain ⟨s', hleads, hidle⟩ := hinv.unlocking_returns hpc
  obtain ⟨N, hN⟩ := hleads.enough (by rw [solo_eq hidle, stepPc])
  exact ⟨N, fun n hn => by rw [hN n hn, hidle]⟩

theorem unlock_completes_handOver :
    ∃ s, Run step Any .init s ∧ s.pc 0 = .unpark 8 ∧ ∃ N, ∀ n, N ≤ n → (follow (solo 0) n s).pc 0 = .idle := by
  obtain ⟨s, h, hpc⟩ := handOver_run
  have hpc := (Prod.mk.inj hpc).1
  exact ⟨s, h, hpc, unlock_completes h (by rw [hpc]; rfl)⟩

end CoQueue.Mutex.WordLock
