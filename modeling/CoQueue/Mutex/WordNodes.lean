import CoQueue.Mutex.WordInvariant

/-!
# The nodes of a `WordLock`

The steps that make, drop or change a `ThreadData`. A thread makes and drops its own while nobody else
knows of it (`Inv.private`); the thread with the queue locked changes pointers of nodes that are in the
queue and takes the last one off (`Inv.rework`); `unpark_lock` clears the futex word of a node that was
taken off. With them every step keeps the invariant (`Inv.step`).
-/

namespace CoQueue.Mutex.WordLock

open Schedule Token Linked

variable {s s' : State} {i j : Tid} {fresh done : List Usize} {pc pc' : Pc}

/-! ### Steps that make, drop or change a node -/

theorem Fact.congr {mem mem' : Usize → Option ThreadData} (hF : Fact mem fresh done pc)
    (hcells : ∀ p ∈ fresh ++ done, (cells mem).Same (cells mem') p)
    (hown : ∀ wait state me, pc = .slowPush wait state me → mem' me = mem me) :
    Fact mem' fresh done pc := by
  have hdone : ∀ p ∈ done, (cells mem).Same (cells mem') p := fun p hp =>
    hcells p (List.mem_append_right _ hp)
  cases pc
  case slowPush wait state me => exact ⟨hF.1, (hown wait state me rfl).trans hF.2.1, hF.2.2⟩
  case scan => exact Walk.congr hF hcells
  case link state current => exact ⟨hF.1.congr hcells, (hcells current hF.1.mem).2.2.trans hF.2⟩
  case setTail => exact Found.congr hF hcells
  case newTail => exact Settled.congr hF hdone
  case dropLast => exact ⟨hF.1.congr hdone, hF.2⟩
  case cut state queueTail newTail =>
    exact ⟨hF.1.congr hdone, (hdone queueTail hF.1.last_mem).2.1.trans hF.2.1, hF.2.2⟩
  all_goals exact hF

/-- What a thread knows that does not walk the queue is not about the queue. -/
theorem Fact.other {mem mem' : Usize → Option ThreadData} {fresh' done' : List Usize}
    (hF : Fact mem fresh done pc) (hworks : pc.works = 0)
    (hown : ∀ wait state me, pc = .slowPush wait state me → mem' me = mem me)
    (hsub : ∀ p ∈ fresh' ++ done', p ∈ fresh ++ done) : Fact mem' fresh' done' pc := by
  cases pc
  case slowPush wait state me =>
    exact ⟨hF.1, (hown wait state me rfl).trans hF.2.1, fun hp => hF.2.2 (hsub me hp)⟩
  case scan | link | setTail | settle | newTail | dropLast | cut | leave => cases hworks
  all_goals exact hF

theorem cells_update_of_ne {mem : Usize → Option ThreadData} {p q : Usize} (d : Option ThreadData)
    (h : q ≠ p) : (cells mem).Same (cells (Function.update mem p d)) q := by
  simp [Cells.Same, cells, Function.update_of_ne h]

theorem Pc.node_of_parked {p : Usize} (h : pc.parked = some p) : pc.node = some p := by
  cases pc <;> first | exact h | cases h

theorem Inv.private (h : Inv s fresh done) {a : Usize} {x : Option ThreadData} (hout : a ∉ fresh ++ done)
    (hmine : ∀ j, j ≠ i → (s.pc j).node ≠ some a) (hholds : pc.holds = (s.pc i).holds)
    (hworks : pc.works = (s.pc i).works) (htarget : (s.pc i).target = none) (htarget' : pc.target = none)
    (hparked : (s.pc i).parked = none) (hparked' : pc.parked = none)
    (hnode : ∀ p, pc.node = some p → (s.pc i).node = none ∧ p = a ∧ x ≠ none ∧ p ≠ 0 ∧ Aligned p)
    (hwake : ∀ p, s.pc i ≠ .wake p)
    (hfact : Fact (Function.update s.mem a x) fresh done pc) :
    Inv ((s.setMem a x).goto i pc) fresh done := by
  have hne : ∀ j p, j ≠ i → (s.pc j).node = some p → p ≠ a := by
    rintro j p hj hp rfl
    exact hmine j hj hp
  have hpark : ∀ j p, (s.pc j).parked = some p → j ≠ i ∧ Function.update s.mem a x p = s.mem p := by
    intro j p hj
    have hji : j ≠ i := by
      rintro rfl
      rw [hparked] at hj
      cases hj
    exact ⟨hji, Function.update_of_ne (hne j p hji (Pc.node_of_parked hj)) _ _⟩
  have hwaiting : ∀ p, (∃ j d, (s.pc j).parked = some p ∧ s.mem p = some d ∧ d.futex = 1) →
      ∃ j d, (Function.update s.pc i pc j).parked = some p ∧ Function.update s.mem a x p = some d ∧
        d.futex = 1 := by
    rintro p ⟨j, d, hj, hd, hf⟩
    obtain ⟨hji, hmem⟩ := hpark j p hj
    exact ⟨j, d, by rwa [Function.update_of_ne hji], hmem.trans hd, hf⟩
  have htarget'' : ∀ j, (Function.update s.pc i pc j).target = (s.pc j).target :=
    update_same (F := Pc.target) (htarget'.trans htarget.symm)
  have hparked'' : ∀ j, (Function.update s.pc i pc j).parked = (s.pc j).parked :=
    update_same (F := Pc.parked) (hparked'.trans hparked.symm)
  have hcells : ∀ p ∈ fresh ++ done, (cells s.mem).Same (cells (Function.update s.mem a x)) p := by
    intro p hp
    exact cells_update_of_ne x (by rintro rfl; exact hout hp)
  refine ⟨h.lock.keep_update (F := Pc.holds) hholds, h.queueLock.keep_update (F := Pc.works) hworks, h.head,
    h.lazy.congr hcells, fun j p hj => ?_, fun j k p => ?_, fun p hp => hwaiting p (h.queued p hp),
    fun j p hj => ?_, fun j k p hj hk => h.once j k p ((htarget'' j).symm.trans hj) ((htarget'' k).symm.trans hk),
    fun j p d hj hd hf => ?_, fun j p d hj hd hf => ?_, fun j => ?_⟩
  · rcases at_update (P := fun y : Pc => y.node = some p) hj with ⟨-, hp⟩ | ⟨hji, hp⟩
    · obtain ⟨-, rfl, hx, h0, ha⟩ := hnode p hp
      exact ⟨by simpa using hx, h0, ha⟩
    · obtain ⟨hm, hp'⟩ := h.node j p hp
      exact ⟨by simpa [hne j p hji hp] using hm, hp'⟩
  · refine inj_update (F := Pc.node) (fun j k => h.own j k p) fun hp k hk => ?_
    obtain ⟨hi, rfl, -⟩ := hnode p hp
    by_cases hki : k = i
    · subst k
      cases hi.symm.trans hk
    · exact hmine k hki hk
  · obtain ⟨hmem, hwait⟩ := h.taken j p ((htarget'' j).symm.trans hj)
    exact ⟨hmem, hwaiting p hwait⟩
  · have hold := (hparked'' j).symm.trans hj
    refine (h.waits j p d hold ((hpark j p hold).2.symm.trans hd) hf).imp_right ?_
    rintro ⟨k, hk⟩
    exact ⟨k, (htarget'' k).trans hk⟩
  · rcases at_update (P := fun y : Pc => y = .asleep p) hj with ⟨-, hp⟩ | ⟨-, hp⟩
    · rw [hp] at hparked'
      cases hparked'
    · have hold : (s.pc j).parked = some p := congrArg Pc.parked hp
      refine exists_update (P := fun y : Pc => y = .wake p) ?_ fun hi => absurd hi (hwake p)
      exact h.woken j p d hp ((hpark j p hold).2.symm.trans hd) hf
  · by_cases hj : j = i
    · subst j
      simpa using hfact
    · have hold : Fact (Function.update s.mem a x) fresh done (s.pc j) :=
        (h.fact j).congr hcells fun w st me hpc => by
          rw [Function.update_of_ne (hne j me hj (by rw [hpc]; rfl))]
      simpa [hj] using hold

theorem Inv.prepare (h : Inv s fresh done) {wait : Nat} {state a : Usize}
    (hpc : s.pc i = .slowPrepare wait state) (h0 : a ≠ 0) (ha : Aligned a) (hm : s.mem a = none) :
    Inv ((s.setMem a (some (.prepare state a))).goto i (.slowPush wait state a)) fresh done := by
  have hout : a ∉ fresh ++ done := by
    intro hmem
    obtain ⟨j, d, -, hd, -⟩ := h.queued a hmem
    cases hm.symm.trans hd
  have hfact := h.fact i
  rw [hpc] at hfact
  refine h.private hout (fun j _ hj => (h.node j a hj).1 hm) (by rw [hpc]; rfl) (by rw [hpc]; rfl)
    (by rw [hpc]; rfl) rfl (by rw [hpc]; rfl) rfl ?_ (by simp [hpc])
    ⟨hfact, Function.update_self .., hout⟩
  rintro p hp
  cases hp
  exact ⟨by rw [hpc]; rfl, rfl, by simp, h0, ha⟩

theorem Inv.drop (h : Inv s fresh done) {me : Usize} (wait : Nat) (hnode : (s.pc i).node = some me)
    (hparked : (s.pc i).parked = none) : Inv ((s.setMem me none).goto i (slowLoop wait s.word)) fresh done := by
  obtain ⟨hholds, hworks, hnone, htarget⟩ := slowLoop_plain wait s.word
  have hi : (s.pc i).holds = 0 ∧ (s.pc i).works = 0 ∧ (s.pc i).target = none ∧ ∀ p, s.pc i ≠ .wake p := by
    cases hpc : s.pc i <;> rw [hpc] at hnode hparked <;>
      first
      | cases hnode
        done
      | exact ⟨rfl, rfl, rfl, by rintro p ⟨⟩⟩
  refine h.private (fun hmem => ?_) (fun j hj hjn => hj (h.own j i me hjn hnode)) (hholds.trans hi.1.symm)
    (hworks.trans hi.2.1.symm) hi.2.2.1 htarget hparked (Pc.parked_of_node hnone) ?_ hi.2.2.2
    (slowLoop_fact ..)
  · obtain ⟨j, d, hj, -⟩ := h.queued me hmem
    obtain rfl := h.own j i me (Pc.node_of_parked hj) hnode
    cases hparked.symm.trans hj
  · intro p hp
    rw [hnone] at hp
    cases hp

theorem Fact.push {mem : Usize → Option ThreadData} {me : Usize} (hF : Fact mem fresh done pc)
    (hown : ∀ wait state p, pc = .slowPush wait state p → p ≠ me) : Fact mem (me :: fresh) done pc := by
  cases pc
  case slowPush wait state p => exact ⟨hF.1, hF.2.1, by simpa using ⟨hown wait state p rfl, by simpa using hF.2.2⟩⟩
  case scan => exact Walk.push hF me
  case link => exact ⟨hF.1.push me, hF.2⟩
  case setTail => exact Found.push hF me
  all_goals exact hF

theorem Fact.first {mem : Usize → Option ThreadData} {me : Usize} (hF : Fact mem [] [] pc)
    (hown : ∀ wait state p, pc = .slowPush wait state p → p ≠ me) : Fact mem [] [me] pc := by
  cases pc
  case slowPush wait state p => exact ⟨hF.1, hF.2.1, by simpa using hown wait state p rfl⟩
  case scan => exact absurd (Walk.mem hF) List.not_mem_nil
  case link => exact absurd hF.1.mem List.not_mem_nil
  case setTail => exact absurd (Found.head_mem hF) List.not_mem_nil
  case settle => exact absurd rfl hF.2
  case newTail => cases hF.1
  case dropLast => cases hF.2
  case cut => cases hF.1.1
  all_goals exact hF

theorem Inv.push (h : Inv s fresh done) {wait : Nat} {me : Usize}
    (hpc : s.pc i = .slowPush wait s.word me) :
    ∃ fresh' done', fresh' ++ done' = me :: (fresh ++ done) ∧
      Inv ((s.setWord (withQueueHead s.word me)).goto i (.park me)) fresh' done' := by
  have hfact := h.fact i
  rw [hpc] at hfact
  obtain ⟨hlocked, hme, hout⟩ := hfact
  have hnode : (s.pc i).node = some me := by rw [hpc]; rfl
  obtain ⟨-, h0, halign⟩ := h.node i me hnode
  have hcells := cells_of_mem hme
  have hown : ∀ j, j ≠ i → ∀ w st p, s.pc j = .slowPush w st p → p ≠ me := by
    rintro j hj w st p hp rfl
    exact hj (h.own j i p (by rw [hp]; rfl) hnode)
  -- the new node is the only one, or it is in front of the others
  obtain ⟨fresh', done', hq, hlazy, hfacts⟩ : ∃ fresh' done', fresh' ++ done' = me :: (fresh ++ done) ∧
      Lazy 0 (cells s.mem) fresh' done' ∧ ∀ j, j ≠ i → Fact s.mem fresh' done' (s.pc j) := by
    by_cases hw : queueHead s.word = 0
    · have hnil : fresh ++ done = [] := by
        by_contra hne
        obtain ⟨p, hp⟩ := List.exists_mem_of_ne_nil _ hne
        exact h.head_ne_zero (h.lazy.ne_nil hp) hw
      obtain ⟨rfl, rfl⟩ := List.append_eq_nil_iff.1 hnil
      rw [ThreadData.prepare, if_pos hw] at hcells
      exact ⟨[], [me], rfl, .single h0 hcells.2.2 hcells.2.1, fun j hj => (h.fact j).first (hown j hj)⟩
    · rw [ThreadData.prepare, if_neg hw] at hcells
      have hne := h.done_ne_nil hw
      refine ⟨me :: fresh, done, rfl, h.lazy.push hne h0 hout ?_ hcells.2.2 hcells.2.1,
        fun j hj => (h.fact j).push (hown j hj)⟩
      intro p hp
      rw [h.head_eq hne] at hp
      exact hcells.1.trans (Option.some.inj hp)
  have hwaiting : ∀ p, (∃ j d, (s.pc j).parked = some p ∧ s.mem p = some d ∧ d.futex = 1) →
      ∃ j d, (Function.update s.pc i (.park me) j).parked = some p ∧ s.mem p = some d ∧ d.futex = 1 := by
    intro p hp
    refine exists_update (P := fun y : Pc => ∃ d, y.parked = some p ∧ s.mem p = some d ∧ d.futex = 1) hp ?_
    rintro ⟨d, hi, -⟩
    rw [hpc] at hi
    cases hi
  have htarget : ∀ j, (Function.update s.pc i (.park me) j).target = (s.pc j).target :=
    update_same (F := Pc.target) (by rw [hpc]; rfl)
  have hnode' : ∀ j, (Function.update s.pc i (.park me) j).node = (s.pc j).node :=
    update_same (F := Pc.node) hnode.symm
  have hmine : ∃ d, s.mem me = some d ∧ d.futex = 1 := by
    refine ⟨_, hme, ?_⟩
    unfold ThreadData.prepare
    split <;> rfl
  refine ⟨fresh', done', hq, ?_, ?_, ?_, hlazy, fun j p hj => h.node j p ((hnode' j).symm.trans hj),
    fun j k p hj hk => h.own j k p ((hnode' j).symm.trans hj) ((hnode' k).symm.trans hk), fun p hp => ?_,
    fun j p hj => ?_, fun j k p hj hk => h.once j k p ((htarget j).symm.trans hj) ((htarget k).symm.trans hk),
    fun j p d hj hd hf => ?_, fun j p d hj hd hf => ?_, fun j => ?_⟩
  · rw [State.goto_word, State.setWord_word, isLocked_withQueueHead _ halign]
    exact h.lock.keep_update (F := Pc.holds) (by rw [hpc]; rfl)
  · rw [State.goto_word, State.setWord_word, isQueueLocked_withQueueHead _ halign]
    exact h.queueLock.keep_update (F := Pc.works) (by rw [hpc]; rfl)
  · rw [hq, State.goto_word, State.setWord_word, queueHead_withQueueHead _ halign]
    rfl
  · rw [hq] at hp
    rcases List.mem_cons.1 hp with rfl | hp
    · obtain ⟨d, hd, hf⟩ := hmine
      exact ⟨i, d, by simp [Pc.parked], hd, hf⟩
    · exact hwaiting p (h.queued p hp)
  · obtain ⟨hmem, k, d, hk, hwait⟩ := h.taken j p ((htarget j).symm.trans hj)
    refine ⟨?_, hwaiting p ⟨k, d, hk, hwait⟩⟩
    rw [hq, List.mem_cons, not_or]
    refine ⟨?_, hmem⟩
    rintro rfl
    obtain rfl := h.own k i p (Pc.node_of_parked hk) hnode
    rw [hpc] at hk
    cases hk
  · rw [hq, List.mem_cons]
    rcases at_update (P := fun y : Pc => y.parked = some p) hj with ⟨-, hp⟩ | ⟨-, hp⟩
    · cases hp
      exact .inl (.inl rfl)
    · rcases h.waits j p d hp hd hf with hmem | ⟨k, hk⟩
      · exact .inl (.inr hmem)
      · exact .inr ⟨k, (htarget k).trans hk⟩
  · rcases at_update (P := fun y : Pc => y = .asleep p) hj with ⟨-, hp⟩ | ⟨-, hp⟩
    · cases hp
    · exact exists_update (P := fun y : Pc => y = .wake p) (h.woken j p d hp hd hf) fun hi => by
        cases hpc.symm.trans hi
  · by_cases hj : j = i
    · subst j
      rw [State.goto_pc, Function.update_self]
      trivial
    · rw [State.goto_pc, Function.update_of_ne hj]
      exact hfacts j hj

theorem futex_of_map {x y : Option ThreadData} {d : ThreadData} (h : x.map (·.futex) = y.map (·.futex))
    (hd : y = some d) : ∃ e, x = some e ∧ e.futex = d.futex := by
  rw [hd] at h
  exact Option.map_eq_some_iff.1 h

/-- A step of the thread that walks the queue: it changes pointers of nodes in the queue, and what it
takes off the queue becomes its target. -/
theorem Inv.rework (h : Inv s fresh done) {word : Usize} (mem : Usize → Option ThreadData)
    {fresh' done' : List Usize} (hworks : (s.pc i).works = 1) (hholds : pc.holds = (s.pc i).holds)
    (hlock : isLocked word = isLocked s.word)
    (hqueue : Held (isQueueLocked word) fun j => (Function.update s.pc i pc j).works)
    (hhead : (fresh' ++ done').head?.getD 0 = queueHead word) (hlazy : Lazy 0 (cells mem) fresh' done')
    (hmem : ∀ p, (mem p).map (·.futex) = (s.mem p).map (·.futex))
    (hprivate : ∀ p, p ∉ fresh ++ done → mem p = s.mem p) (hnode : (s.pc i).node = none)
    (hnode' : pc.node = none) (htarget : (s.pc i).target = none)
    (hsub : ∀ p ∈ fresh' ++ done', p ∈ fresh ++ done)
    (hgone : ∀ p, pc.target = some p ↔ p ∈ fresh ++ done ∧ p ∉ fresh' ++ done')
    (hfact : Fact mem fresh' done' pc) : Inv ⟨word, mem, Function.update s.pc i pc⟩ fresh' done' := by
  have hnodes : ∀ j, (Function.update s.pc i pc j).node = (s.pc j).node :=
    update_same (F := Pc.node) (hnode'.trans hnode.symm)
  have hparked : ∀ j, (Function.update s.pc i pc j).parked = (s.pc j).parked :=
    update_same (F := Pc.parked) ((Pc.parked_of_node hnode').trans (Pc.parked_of_node hnode).symm)
  have hwaiting : ∀ p, (∃ j d, (s.pc j).parked = some p ∧ s.mem p = some d ∧ d.futex = 1) →
      ∃ j d, (Function.update s.pc i pc j).parked = some p ∧ mem p = some d ∧ d.futex = 1 := by
    rintro p ⟨j, d, hj, hd, hf⟩
    obtain ⟨e, he, hef⟩ := futex_of_map (hmem p) hd
    exact ⟨j, e, (hparked j).trans hj, he, hef.trans hf⟩
  have htargets : ∀ j p, j ≠ i → (s.pc j).target = some p → (Function.update s.pc i pc j).target = some p :=
    fun j p hj hp => by rwa [Function.update_of_ne hj]
  refine ⟨?_, hqueue, hhead, hlazy, fun j p hj => ?_,
    fun j k p hj hk => h.own j k p ((hnodes j).symm.trans hj) ((hnodes k).symm.trans hk),
    fun p hp => hwaiting p (h.queued p (hsub p hp)), fun j p hj => ?_, fun j k p hj hk => ?_,
    fun j p d hj hd hf => ?_, fun j p d hj hd hf => ?_, fun j => ?_⟩
  · rw [hlock]
    exact h.lock.keep_update (F := Pc.holds) hholds
  · obtain ⟨hm, hp⟩ := h.node j p ((hnodes j).symm.trans hj)
    refine ⟨fun hnone => hm ?_, hp⟩
    have hmap := hmem p
    rw [show mem p = none from hnone] at hmap
    exact Option.map_eq_none_iff.1 hmap.symm
  · rcases at_update (P := fun y : Pc => y.target = some p) hj with ⟨-, hp⟩ | ⟨-, hp⟩
    · obtain ⟨hin, hout⟩ := (hgone p).1 hp
      exact ⟨hout, hwaiting p (h.queued p hin)⟩
    · obtain ⟨hout, hwait⟩ := h.taken j p hp
      exact ⟨fun hin => hout (hsub p hin), hwaiting p hwait⟩
  · rcases at_update (P := fun y : Pc => y.target = some p) hj with ⟨rfl, hp⟩ | ⟨-, hp⟩ <;>
      rcases at_update (P := fun y : Pc => y.target = some p) hk with ⟨rfl, hp'⟩ | ⟨-, hp'⟩
    · rfl
    · exact absurd ((hgone p).1 hp).1 (h.taken k p hp').1
    · exact absurd ((hgone p).1 hp').1 (h.taken j p hp).1
    · exact h.once j k p hp hp'
  · obtain ⟨e, he, hef⟩ := futex_of_map (hmem p).symm hd
    rcases h.waits j p e ((hparked j).symm.trans hj) he (by omega) with hin | ⟨k, hk⟩
    · by_cases hin' : p ∈ fresh' ++ done'
      · exact .inl hin'
      · exact .inr ⟨i, by simpa using (hgone p).2 ⟨hin, hin'⟩⟩
    · refine .inr ⟨k, htargets k p ?_ hk⟩
      rintro rfl
      cases htarget.symm.trans hk
  · obtain ⟨e, he, hef⟩ := futex_of_map (hmem p).symm hd
    rcases at_update (P := fun y : Pc => y = .asleep p) hj with ⟨-, hp⟩ | ⟨-, hp⟩
    · rw [hp] at hnode'
      cases hnode'
    · refine exists_update (P := fun y : Pc => y = .wake p) (h.woken j p e hp he (hef.trans hf)) fun hi => ?_
      rw [hi] at hworks
      cases hworks
  · by_cases hj : j = i
    · subst j
      simpa using hfact
    · have hidle : (s.pc j).works = 0 := h.queueLock.eq_zero_of_ne (i := i) (by rw [hworks]; exact Nat.one_pos) hj
      have hold : Fact mem fresh' done' (s.pc j) := by
        refine (h.fact j).other hidle (fun wait state me hpc => hprivate me ?_) hsub
        have hmine := h.fact j
        rw [hpc] at hmine
        exact hmine.2.2
      simpa [hj] using hold

section
variable {mem : Usize → Option ThreadData} {p : Usize} {d : ThreadData}

theorem cells_setPrev (hd : mem p = some d) (v : Usize) :
    cells (Function.update mem p (some { d with prev := v })) =
      { cells mem with prev := Function.update (cells mem).prev p v } := by
  unfold cells
  congr 1 <;> funext q <;> by_cases hq : q = p <;> simp [hq, hd]

theorem cells_setTail (hd : mem p = some d) (v : Usize) :
    cells (Function.update mem p (some { d with queueTail := v })) =
      { cells mem with tail := Function.update (cells mem).tail p v } := by
  unfold cells
  congr 1 <;> funext q <;> by_cases hq : q = p <;> simp [hq, hd]

theorem futex_update (hd : mem p = some d) {e : ThreadData} (he : e.futex = d.futex) (q : Usize) :
    (Function.update mem p (some e) q).map (·.futex) = (mem q).map (·.futex) := by
  by_cases hq : q = p
  · subst q
    rw [Function.update_self, hd, Option.map_some, Option.map_some, he]
  · rw [Function.update_of_ne hq]

theorem update_outside {q : List Usize} (hp : p ∈ q) (x : Option ThreadData) (a : Usize) (ha : a ∉ q) :
    Function.update mem p x a = mem a :=
  Function.update_of_ne (by rintro rfl; exact ha hp) _ _

end

theorem Inv.link (h : Inv s fresh done) {state current : Usize} {d e : ThreadData}
    (hpc : s.pc i = .link state current) (hd : s.mem current = some d) (he : s.mem d.next = some e) :
    Inv ((s.setMem d.next (some { e with prev := current })).goto i (.scan state d.next)) fresh done := by
  have hfact := h.fact i
  rw [hpc] at hfact
  obtain ⟨hin, hlazy, hwalk⟩ := hfact.1.next h.lazy hfact.2
  rw [(cells_of_mem hd).1] at hin hlazy hwalk
  rw [← cells_setPrev he] at hlazy hwalk
  exact h.rework _ (by rw [hpc]; rfl) (by rw [hpc]; rfl) rfl
    (h.queueLock.keep_update (F := Pc.works) (by rw [hpc]; rfl)) h.head hlazy (futex_update he rfl)
    (update_outside hin _) (by rw [hpc]; rfl) rfl (by rw [hpc]; rfl) (fun _ hp => hp)
    (fun p => ⟨by rintro ⟨⟩, fun hp => absurd hp.1 hp.2⟩) hwalk

theorem Inv.setTail (h : Inv s fresh done) {state queueTail : Usize} {d : ThreadData}
    (hpc : s.pc i = .setTail state queueTail) (hd : s.mem (queueHead state) = some d) :
    ∃ fresh' done', fresh' ++ done' = fresh ++ done ∧
      Inv ((s.setMem (queueHead state) (some { d with queueTail })).goto i
        (if isLocked state then .settle state else .newTail state queueTail)) fresh' done' := by
  have hfact := h.fact i
  rw [hpc] at hfact
  obtain ⟨fresh', done', hq, hlazy, hsettled⟩ := Found.set hfact h.lazy
  rw [← cells_setTail hd] at hlazy hsettled
  generalize hx : (if isLocked state then Pc.settle state else .newTail state queueTail) = x
  have hnext : x.works = 1 ∧ x.holds = 0 ∧ x.node = none ∧ x.target = none ∧
      Fact (Function.update s.mem (queueHead state) (some { d with queueTail })) fresh' done' x := by
    subst x
    cases hl : isLocked state
    · exact ⟨rfl, rfl, rfl, rfl, hsettled⟩
    · exact ⟨rfl, rfl, rfl, rfl, hl, List.ne_nil_of_mem hsettled.last_mem⟩
  obtain ⟨hworks, hholds, hnode, htarget, hfact'⟩ := hnext
  refine ⟨fresh', done', hq, h.rework _ (by rw [hpc]; rfl) (by rw [hpc]; exact hholds) rfl
    (h.queueLock.keep_update (F := Pc.works) (by rw [hpc]; exact hworks)) (by rw [hq]; exact h.head) hlazy
    (futex_update hd rfl) (update_outside (Found.head_mem hfact) _) (by rw [hpc]; rfl) hnode
    (by rw [hpc]; rfl) (fun p hp => hq ▸ hp) (fun p => ?_) hfact'⟩
  rw [hq, htarget]
  exact ⟨by rintro ⟨⟩, fun hp => absurd hp.1 hp.2⟩

theorem Inv.cut (h : Inv s fresh done) {state queueTail newTail : Usize} {d : ThreadData}
    (hpc : s.pc i = .cut state queueTail newTail) (hd : s.mem (queueHead state) = some d) :
    ∃ done', done = done' ++ [queueTail] ∧
      Inv ((s.setMem (queueHead state) (some { d with queueTail := newTail })).goto i (.leave queueTail))
        fresh done' := by
  have hfact := h.fact i
  rw [hpc] at hfact
  obtain ⟨hsettled, rfl, hne⟩ := hfact
  obtain ⟨done', rfl, hnil, hout, hlazy⟩ := hsettled.cut h.lazy hne
  rw [← cells_setTail hd] at hlazy
  have hin : queueHead state ∈ fresh ++ (done' ++ [queueTail]) :=
    List.mem_append_right _ (List.mem_of_mem_head? hsettled.1)
  refine ⟨done', rfl, h.rework _ (by rw [hpc]; rfl) (by rw [hpc]; rfl) rfl
    (h.queueLock.keep_update (F := Pc.works) (by rw [hpc]; rfl)) ?_ hlazy (futex_update hd rfl)
    (update_outside hin _) (by rw [hpc]; rfl) rfl (by rw [hpc]; rfl) (fun p hp => ?_) (fun p => ?_) trivial⟩
  · rw [State.setMem_word, ← h.head, ← List.append_assoc]
    rw [List.head?_append_of_ne_nil _ (List.append_ne_nil_of_right_ne_nil _ hnil)]
  · rw [← List.append_assoc]
    exact List.mem_append_left _ hp
  · rw [← List.append_assoc, List.mem_append, List.mem_singleton]
    constructor
    · intro hp
      cases hp
      exact ⟨.inr rfl, hout⟩
    · rintro ⟨hp | rfl, hp'⟩
      · exact absurd hp hp'
      · rfl

/-- The `compare_exchange` succeeds only if nobody has come since the walk began. -/
theorem Inv.dropLast (h : Inv s fresh done) {queueTail : Usize} (hpc : s.pc i = .dropLast s.word queueTail) :
    fresh ++ done = [queueTail] ∧
      Inv ((s.setWord (s.word &&& lockedBit)).goto i (.unpark queueTail)) [] [] := by
  have hfact := h.fact i
  rw [hpc] at hfact
  obtain ⟨⟨hhead, -, -⟩, rfl⟩ := hfact
  obtain rfl : fresh = [] := by
    have hfront := h.head_eq (List.cons_ne_nil _ _)
    cases fresh with
    | nil => rfl
    | cons p fresh =>
      obtain rfl : queueTail = p := by
        have hp : p = queueHead s.word := by simpa using hfront
        have ht : queueTail = queueHead s.word := by simpa using hhead
        exact ht.trans hp.symm
      exact absurd h.lazy.nodup (by simp)
  refine ⟨rfl, h.rework s.mem (by rw [hpc]; rfl) (by rw [hpc]; rfl) (isLocked_and_lockedBit _) ?_
    (queueHead_and_lockedBit _).symm .nil (fun _ => rfl) (fun _ _ => rfl) (by rw [hpc]; rfl) rfl
    (by rw [hpc]; rfl) (by simp) (fun p => ?_) trivial⟩
  · rw [State.setWord_word, isQueueLocked_and_lockedBit]
    exact h.queueLock.drop_update (F := Pc.works) (by rw [hpc]; rfl)
  · simp only [Pc.target, Option.some.injEq, List.nil_append, List.mem_singleton, List.not_mem_nil,
      not_false_eq_true, and_true]
    exact eq_comm

theorem Inv.unpark (h : Inv s fresh done) {t : Usize} {d : ThreadData} (hpc : s.pc i = .unpark t)
    (hd : s.mem t = some d) :
    Inv ((s.setMem t (some { d with futex := 0 })).goto i (.wake t)) fresh done := by
  have htarget : (s.pc i).target = some t := by rw [hpc]; rfl
  obtain ⟨hout, k, -, hk, -⟩ := h.taken i t htarget
  have hnodes : ∀ j, (Function.update s.pc i (.wake t) j).node = (s.pc j).node :=
    update_same (F := Pc.node) (by rw [hpc]; rfl)
  have hparked : ∀ j, (Function.update s.pc i (.wake t) j).parked = (s.pc j).parked :=
    update_same (F := Pc.parked) (by rw [hpc]; rfl)
  have hwaiting : ∀ p, p ≠ t → (∃ j d, (s.pc j).parked = some p ∧ s.mem p = some d ∧ d.futex = 1) →
      ∃ j e, (Function.update s.pc i (.wake t) j).parked = some p ∧
        Function.update s.mem t (some { d with futex := 0 }) p = some e ∧ e.futex = 1 := by
    rintro p hp ⟨j, e, hj, he⟩
    exact ⟨j, e, (hparked j).trans hj, by rwa [Function.update_of_ne hp]⟩
  have htargets : ∀ j p, (Function.update s.pc i (.wake t) j).target = some p →
      j ≠ i ∧ (s.pc j).target = some p ∧ p ≠ t := by
    intro j p hj
    obtain ⟨hji, hp⟩ := of_update (P := fun y : Pc => y.target = some p) hj (by rintro ⟨⟩)
    refine ⟨hji, hp, ?_⟩
    rintro rfl
    exact hji (h.once j i p hp htarget)
  have hcells : ∀ p ∈ fresh ++ done,
      (cells s.mem).Same (cells (Function.update s.mem t (some { d with futex := 0 }))) p := by
    intro p hp
    exact cells_update_of_ne _ (by rintro rfl; exact hout hp)
  refine ⟨h.lock.keep_update (F := Pc.holds) (by rw [hpc]; rfl),
    h.queueLock.keep_update (F := Pc.works) (by rw [hpc]; rfl), h.head, h.lazy.congr hcells,
    fun j p hj => ?_, fun j k p hj hk => h.own j k p ((hnodes j).symm.trans hj) ((hnodes k).symm.trans hk),
    fun p hp => hwaiting p (by rintro rfl; exact hout hp) (h.queued p hp), fun j p hj => ?_,
    fun j k p hj hk => h.once j k p (htargets j p hj).2.1 (htargets k p hk).2.1,
    fun j p e hj he hf => ?_, fun j p e hj he hf => ?_, fun j => ?_⟩
  · obtain ⟨hm, hp⟩ := h.node j p ((hnodes j).symm.trans hj)
    refine ⟨?_, hp⟩
    by_cases hpt : p = t
    · subst p
      simp
    · simpa [hpt] using hm
  · obtain ⟨-, hp, hne⟩ := htargets j p hj
    obtain ⟨hmem, hwait⟩ := h.taken j p hp
    exact ⟨hmem, hwaiting p hne hwait⟩
  · have hpt : p ≠ t := by
      rintro rfl
      simp only [State.goto_mem, State.setMem_mem, Function.update_self, Option.some.injEq] at he
      subst e
      exact hf rfl
    simp only [State.goto_mem, State.setMem_mem, Function.update_of_ne hpt] at he
    refine (h.waits j p e ((hparked j).symm.trans hj) he hf).imp_right ?_
    rintro ⟨k, hk⟩
    refine ⟨k, (congrArg Pc.target (Function.update_of_ne ?_ _ _)).trans hk⟩
    rintro rfl
    exact hpt (Option.some.inj (hk.symm.trans htarget))
  · obtain ⟨-, hp⟩ := of_update (P := fun y : Pc => y = .asleep p) hj (by rintro ⟨⟩)
    by_cases hpt : p = t
    · subst p
      exact ⟨i, by simp⟩
    · simp only [State.goto_mem, State.setMem_mem, Function.update_of_ne hpt] at he
      exact exists_update (P := fun y : Pc => y = .wake p) (h.woken j p e hp he hf) fun hi => by
        cases hpc.symm.trans hi
  · by_cases hj : j = i
    · subst j
      rw [State.goto_pc, Function.update_self]
      trivial
    · rw [State.goto_pc, Function.update_of_ne hj]
      refine (h.fact j).congr hcells fun wait state me hpc' => Function.update_of_ne ?_ _ _
      -- the thread to wake is inside `park`
      rintro rfl
      obtain rfl := h.own j k me (by rw [hpc']; rfl) (Pc.node_of_parked hk)
      rw [hpc'] at hk
      cases hk

/-! ### Every run -/

/-- What the events make of the queue. -/
def Turn : Option Event → List Usize → List Usize → Prop
  | none, q, q' => q' = q
  | some (.joins _ me), q, q' => q' = me :: q
  | some (.taken t), q, q' => q = q' ++ [t]

/-- Every access is to a `ThreadData` that is there. -/
theorem Inv.access (h : Inv s fresh done) {p : Usize} (hacc : Access s (s.pc i) p) : s.mem p ≠ none := by
  have hqueued : ∀ p ∈ fresh ++ done, s.mem p ≠ none := by
    intro p hp hnone
    obtain ⟨j, d, -, hd, -⟩ := h.queued p hp
    cases hnone.symm.trans hd
  have hfact := h.fact i
  have hnode := h.node i
  have htaken := h.taken i
  generalize s.pc i = x at hacc hfact hnode htaken
  cases hacc with
  | park | futexWait => exact (hnode p rfl).1
  | scan => exact hqueued p (Walk.mem hfact)
  | link => exact hqueued p hfact.1.mem
  | linkNext hd =>
    have hin := (hfact.1.next h.lazy hfact.2).1
    rw [(cells_of_mem hd).1] at hin
    exact hqueued _ hin
  | setTail => exact hqueued _ (Found.head_mem hfact)
  | newTail => exact hqueued p (List.mem_append_right _ (Settled.last_mem hfact))
  | cut => exact hqueued _ (List.mem_append_right _ (List.mem_of_mem_head? hfact.1.1))
  | unpark =>
    obtain ⟨-, k, d, -, hd, -⟩ := htaken p rfl
    rw [hd]
    exact Option.some_ne_none d

theorem Inv.step (h : Inv s fresh done) {e : Option Event} (hs : Step s i e s') :
    ∃ fresh' done', Inv s' fresh' done' ∧ Turn e (fresh ++ done) (fresh' ++ done') := by
  have hfact := h.fact i
  cases hs with
  | move hm => exact ⟨_, _, h.move hm, rfl⟩
  | grabFast hpc hw =>
    refine ⟨fresh, done, ?_, rfl⟩
    have hgrab := h.grab (i := i) (by rw [hw]; decide) (by rw [hpc]; exact ⟨rfl, rfl, rfl, rfl⟩) (by simp [hpc])
    rwa [hw] at hgrab
  | grab hpc =>
    rw [hpc] at hfact
    exact ⟨_, _, h.grab hfact (by rw [hpc]; exact ⟨rfl, rfl, rfl, rfl⟩) (by simp [hpc]), rfl⟩
  | prepare hpc h0 ha hm => exact ⟨_, _, h.prepare hpc h0 ha hm, rfl⟩
  | push hpc =>
    obtain ⟨fresh', done', hq, h'⟩ := h.push hpc
    exact ⟨fresh', done', h', hq⟩
  | back hpc => exact ⟨_, _, h.drop _ (by rw [hpc]; rfl) (by rw [hpc]; rfl), rfl⟩
  | woken hpc => exact ⟨_, _, h.drop _ (by rw [hpc]; rfl) (by rw [hpc]; rfl), rfl⟩
  | unlockFast hpc => exact ⟨_, _, h.unlockFast hpc, rfl⟩
  | unlockTry hpc => exact ⟨_, _, h.unlockTry hpc, rfl⟩
  | link hpc hd he => exact ⟨_, _, h.link hpc hd he, rfl⟩
  | setTail hpc hd =>
    obtain ⟨fresh', done', hq, h'⟩ := h.setTail hpc hd
    exact ⟨fresh', done', h', hq⟩
  | settle hpc =>
    exact ⟨_, _, h.release (by rw [hpc]; rfl) rfl (by rw [hpc]; rfl) (by rw [hpc]; rfl) rfl
      (by rw [hpc]; rfl) trivial, rfl⟩
  | dropLast hpc =>
    obtain ⟨hq, h'⟩ := h.dropLast hpc
    exact ⟨_, _, h', hq⟩
  | cut hpc hd =>
    obtain ⟨done', rfl, h'⟩ := h.cut hpc hd
    exact ⟨_, _, h', (List.append_assoc ..).symm⟩
  | leave hpc =>
    exact ⟨_, _, h.release (by rw [hpc]; rfl) rfl (by rw [hpc]; rfl) (by rw [hpc]; rfl) rfl
      (by rw [hpc]; rfl) trivial, rfl⟩
  | unpark hpc hd => exact ⟨_, _, h.unpark hpc hd, rfl⟩
  | wake hpc => exact ⟨_, _, h.wake hpc, rfl⟩
  | crash hacc hm => exact absurd hm (h.access hacc)

end CoQueue.Mutex.WordLock
