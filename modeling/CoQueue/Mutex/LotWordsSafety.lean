import CoQueue.Mutex.LotSafety
import CoQueue.Mutex.LotWords

/-!
# The locks of the buckets do what `Lot` takes them to do

`words_refine`: in every run of the parking lot on its `WordLock`s, the parking lot makes a run of `Lot`, so all
that is proved of `Lot` in every run holds there too. `never_refused`: the parking lot is always ready to go on
when `WordLock` lets a thread in. `words_progress`: while a thread is in a call and not parked, some thread can make
a step, also when threads sleep in the locks.
-/

namespace CoQueue.Mutex.LotWords

open Schedule Token
open Lot (Entry Choice)

variable {s s' : State} {i j : Tid} {b : Entry}

/-! ### The invariant -/

/-- No table that a thread may still free. -/
def Lasting (l : Lot.State) (t : Lot.Addr) : Prop := l.table t ≠ none ∧ ∀ j, (l.pc j).new ≠ some t

structure Inv (s : State) : Prop where
  lot : Run Lot.step Any .init s.lot
  word : ∀ b, Run WordLock.step Any .init (s.word b)
  mutex : ∀ b i, s.lot.mutex b = some i ↔ 0 < ((s.word b).pc i).holds
  call : ∀ i b, s.call i = some b ↔ (stage ((s.word b).pc i)).calls = true
  lasting : ∀ i b, s.call i = some b → Lasting s.lot b.1
  taking : ∀ i b, stage ((s.word b).pc i) = .taking → takes s.lot (s.lot.pc i) = some b
  giving : ∀ i b, stage ((s.word b).pc i) = .giving → gives s.lot (s.lot.pc i) = some b

theorem inv_init : Inv .init where
  lot := .refl
  word _ := .refl
  mutex _ _ := iff_of_false (by rintro ⟨⟩) (Nat.lt_irrefl 0)
  call _ _ := iff_of_false (by rintro ⟨⟩) Bool.false_ne_true
  lasting := by rintro i b ⟨⟩
  taking := by rintro i b ⟨⟩
  giving := by rintro i b ⟨⟩

theorem Lasting.step {l l' : Lot.State} {e : Option Lot.Event} {t : Lot.Addr} (h : Lasting l t)
    (hs : Lot.Step l i e l') : Lasting l' t := by
  obtain ⟨hsame, hnew⟩ := hs.table_same h.1 h.2
  exact ⟨by rw [hsame]; exact h.1, hnew⟩

theorem Inv.idle (h : Inv s) (hi : s.call i = none) (b : Entry) :
    (s.word b).pc i = .idle ∨ (s.word b).pc i = .holding := by
  by_contra hne
  cases hi.symm.trans ((h.call i b).2 ((calls_iff _).2 hne))

/-- A thread is in one call at a time. -/
theorem Inv.elsewhere (h : Inv s) {b' : Entry} (hi : s.call i = some b) (hb : b' ≠ b) :
    (stage ((s.word b').pc i)).calls = false := by
  rw [← Bool.not_eq_true, ← h.call, hi]
  exact fun heq => hb (Option.some.inj heq).symm

/-- A step of the parking lot outside of `lock` and `unlock`. -/
theorem Inv.setLot (h : Inv s) {a : Lot.Act} {l : Lot.State} (hi : s.call a.thread = none)
    (ht : takes s.lot (s.lot.pc a.thread) = none) (hg : gives s.lot (s.lot.pc a.thread) = none)
    (hl : Lot.step s.lot a = some l) : Inv (s.setLot l) := by
  have hs := Lot.step_cases hl
  -- a lock that a thread is in is not a new one
  have hold : ∀ j b, (stage (((s.setLot l).word b).pc j)).calls = true →
      (s.setLot l).word b = s.word b ∧ s.call j = some b := by
    intro j b hj
    by_cases hb : s.lot.table b.1 = none ∧ l.table b.1 ≠ none
    · rw [show (s.setLot l).word b = .init from if_pos hb] at hj
      cases hj
    · rw [show (s.setLot l).word b = s.word b from if_neg hb] at hj ⊢
      exact ⟨rfl, (h.call j b).2 hj⟩
  have hother : ∀ j b, s.call j = some b → j ≠ a.thread ∧ l.table b.1 = s.lot.table b.1 := by
    intro j b hj
    have hlast := h.lasting j b hj
    refine ⟨?_, (hs.table_same hlast.1 hlast.2).1⟩
    rintro rfl
    cases hi.symm.trans hj
  refine ⟨.tail h.lot trivial hl, fun b => ?_, fun b j => ?_, fun j b => ⟨fun hj => ?_, fun hj => (hold j b hj).2⟩,
    fun j b hj => (h.lasting j b hj).step hs, fun j b hj => ?_, fun j b hj => ?_⟩
  · show Run WordLock.step Any .init (if s.lot.table b.1 = none ∧ l.table b.1 ≠ none then .init else s.word b)
    split
    · exact .refl
    · exact h.word b
  · show l.mutex b = some j ↔
      0 < ((if s.lot.table b.1 = none ∧ l.table b.1 ≠ none then .init else s.word b : WordLock.State).pc j).holds
    rw [mutex_quiet hs ht hg b]
    split
    · exact iff_of_false (by rintro ⟨⟩) (Nat.lt_irrefl 0)
    · exact h.mutex b j
  · have hne : ¬(s.lot.table b.1 = none ∧ l.table b.1 ≠ none) := fun hb => (h.lasting j b hj).1 hb.1
    rw [show (s.setLot l).word b = s.word b from if_neg hne]
    exact (h.call j b).1 hj
  · obtain ⟨hw, hc⟩ := hold j b (by rw [hj]; rfl)
    obtain ⟨hji, htable⟩ := hother j b hc
    rw [hw] at hj
    show takes l (l.pc j) = some b
    rw [hs.pc_other hji]
    exact takes_congr (h.taking j b hj) htable
  · obtain ⟨hw, hc⟩ := hold j b (by rw [hj]; rfl)
    obtain ⟨hji, htable⟩ := hother j b hc
    rw [hw] at hj
    show gives l (l.pc j) = some b
    rw [hs.pc_other hji]
    exact gives_congr (h.giving j b hj) htable

/-- An access of thread `i` inside of `lock` or `unlock` of `b`, with what the parking lot does in this step. -/
theorem Inv.put {w : WordLock.State} {a : WordLock.Act} {l : Lot.State} (h : Inv s)
    (hi : s.call i = none ∨ s.call i = some b) (hw : WordLock.step (s.word b) a = some w)
    (hother : ∀ j, j ≠ i → stage (w.pc j) = stage ((s.word b).pc j))
    (hrun : Run Lot.step Any .init l) (hpc : ∀ j, j ≠ i → l.pc j = s.lot.pc j) (htable : l.table = s.lot.table)
    (hnew : ∀ t, Lasting s.lot t → Lasting l t) (hmutex : ∀ c, c ≠ b → l.mutex c = s.lot.mutex c)
    (hholds : ∀ j, l.mutex b = some j ↔ 0 < (w.pc j).holds)
    (hlast : (stage (w.pc i)).calls = true → Lasting l b.1)
    (htaking : stage (w.pc i) = .taking → takes l (l.pc i) = some b)
    (hgiving : stage (w.pc i) = .giving → gives l (l.pc i) = some b) : Inv { s.put i b w with lot := l } := by
  have hsame : ∀ c, c ≠ b → (s.put i b w).word c = s.word c := fun c hc => Function.update_of_ne hc _ _
  have hthis : (s.put i b w).word b = w := Function.update_self ..
  have hcall : ∀ j, j ≠ i → (s.put i b w).call j = s.call j := fun j hj => Function.update_of_ne hj _ _
  have hnone : ∀ c, c ≠ b → (stage ((s.word c).pc i)).calls = false := by
    intro c hc
    rcases hi with hi | hi
    · rcases h.idle hi c with hpc | hpc <;> rw [hpc] <;> rfl
    · exact h.elsewhere hi hc
  have hstage : ∀ j c, j ≠ i → stage (((s.put i b w).word c).pc j) = stage ((s.word c).pc j) := by
    intro j c hj
    by_cases hc : c = b
    · rw [hc, hthis, hother j hj]
    · rw [hsame c hc]
  refine ⟨hrun, fun c => ?_, fun c j => ?_, fun j c => ?_, fun j c hj => ?_, fun j c hj => ?_, fun j c hj => ?_⟩
  · by_cases hc : c = b
    · rw [hc]
      show Run WordLock.step Any .init ((s.put i b w).word b)
      rw [hthis]
      exact .tail (h.word b) trivial hw
    · show Run WordLock.step Any .init ((s.put i b w).word c)
      rw [hsame c hc]
      exact h.word c
  · show l.mutex c = some j ↔ 0 < (((s.put i b w).word c).pc j).holds
    by_cases hc : c = b
    · rw [hc, hthis]
      exact hholds j
    · rw [hsame c hc, hmutex c hc]
      exact h.mutex c j
  · show (s.put i b w).call j = some c ↔ (stage (((s.put i b w).word c).pc j)).calls = true
    by_cases hj : j = i
    · subst hj
      rw [show (s.put j b w).call j = if w.pc j = .idle ∨ w.pc j = .holding then none else some b from
        Function.update_self ..]
      by_cases hc : c = b
      · rw [hc, hthis, calls_iff]
        split
        · exact iff_of_false (by rintro ⟨⟩) (not_not.2 ‹_›)
        · exact iff_of_true rfl ‹_›
      · rw [hsame c hc, hnone c hc]
        refine iff_of_false ?_ Bool.false_ne_true
        split
        · rintro ⟨⟩
        · exact fun heq => hc (Option.some.inj heq).symm
    · rw [hcall j hj, hstage j c hj]
      exact h.call j c
  · by_cases hji : j = i
    · subst hji
      replace hj : (if w.pc j = .idle ∨ w.pc j = .holding then none else some b) = some c :=
        (Function.update_self j _ s.call).symm.trans hj
      split at hj
      · cases hj
      · cases hj
        exact hlast ((calls_iff _).2 ‹_›)
    · exact hnew _ (h.lasting j c (by rw [← hcall j hji]; exact hj))
  · by_cases hji : j = i
    · subst hji
      by_cases hc : c = b
      · subst hc
        exact htaking (by rw [← hthis]; exact hj)
      · have hcalls := hnone c hc
        rw [← hsame c hc, show stage (((s.put j b w).word c).pc j) = .taking from hj] at hcalls
        cases hcalls
    · show takes l (l.pc j) = some c
      rw [hpc j hji]
      exact takes_congr (h.taking j c (by rw [← hstage j c hji]; exact hj)) (by rw [htable])
  · by_cases hji : j = i
    · subst hji
      by_cases hc : c = b
      · subst hc
        exact hgiving (by rw [← hthis]; exact hj)
      · have hcalls := hnone c hc
        rw [← hsame c hc, show stage (((s.put j b w).word c).pc j) = .giving from hj] at hcalls
        cases hcalls
    · show gives l (l.pc j) = some c
      rw [hpc j hji]
      exact gives_congr (h.giving j c (by rw [← hstage j c hji]; exact hj)) (by rw [htable])

/-- The parking lot does not go on. -/
theorem Inv.access {w : WordLock.State} {a : WordLock.Act} (h : Inv s) (hi : s.call i = none ∨ s.call i = some b)
    (hw : WordLock.step (s.word b) a = some w) (hother : ∀ j, j ≠ i → stage (w.pc j) = stage ((s.word b).pc j))
    (hholds : 0 < (w.pc i).holds ↔ 0 < ((s.word b).pc i).holds)
    (hlast : (stage (w.pc i)).calls = true → Lasting s.lot b.1)
    (htaking : stage (w.pc i) = .taking → takes s.lot (s.lot.pc i) = some b)
    (hgiving : stage (w.pc i) = .giving → gives s.lot (s.lot.pc i) = some b) : Inv (s.put i b w) := by
  refine h.put hi hw hother h.lot (fun _ _ => rfl) rfl (fun _ => id) (fun _ _ => rfl) (fun j => ?_) hlast htaking hgiving
  rw [h.mutex b j]
  by_cases hj : j = i
  · rw [hj]
    exact hholds.symm
  · rw [holds_iff, holds_iff, hother j hj]

theorem lasting_of_old {l : Lot.State} {t : Lot.Addr} (h : Run Lot.step Any .init l) (ht : (l.pc i).old = some t) :
    Lasting l t := by
  have hlocks := (Lot.load_of_run h).locks
  exact ⟨hlocks.old i t ht, fun j hj => hlocks.fresh j i t hj ht⟩

/-- `lock` or `unlock` is called. -/
theorem Inv.enter {w : WordLock.State} {a : WordLock.Act} {pc pc' : WordLock.Pc} (h : Inv s)
    (hi : s.call i = none) (hw : WordLock.step (s.word b) a = some w) (hpc : (s.word b).pc i = pc)
    (heq : w = (s.word b).goto i pc') (hholds : 0 < pc'.holds ↔ 0 < pc.holds)
    (hold : (s.lot.pc i).old = some b.1) (htaking : stage pc' = .taking → takes s.lot (s.lot.pc i) = some b)
    (hgiving : stage pc' = .giving → gives s.lot (s.lot.pc i) = some b) : Inv (s.put i b w) := by
  have hi' : w.pc i = pc' := by rw [heq]; exact Function.update_self ..
  refine h.access (.inl hi) hw (fun j hj => ?_) (by rw [hi', hpc]; exact hholds)
    (fun _ => lasting_of_old h.lot hold) (fun hst => htaking (by rw [← hi']; exact hst))
    fun hst => hgiving (by rw [← hi']; exact hst)
  rw [heq, WordLock.State.goto_pc, Function.update_of_ne hj]

theorem Lasting.goto {l l' : Lot.State} {t : Lot.Addr} {pc : Lot.Pc} (h : Lasting l t)
    (htable : l'.table = l.table) (hpc : l'.pc = Function.update l.pc i pc) (hn : pc.new = none) : Lasting l' t := by
  refine ⟨by rw [htable]; exact h.1, fun j hj => ?_⟩
  rw [hpc] at hj
  rcases at_update (P := fun pc : Lot.Pc => pc.new = some t) hj with ⟨-, hj⟩ | ⟨-, hj⟩
  · rw [hn] at hj
    cases hj
  · exact h.2 j hj

section
variable {w : WordLock.State} {spurious : Bool} {addr : WordLock.Usize}

/-- `lock` returns only when nobody is at the bucket, and the parking lot goes on. -/
theorem Inv.granted (h : Inv s) (hc : s.call i = some b)
    (hw : WordLock.step (s.word b) (.run i spurious addr) = some w) (hpc : w.pc i = .holding) (x : Choice) :
    s.lot.mutex b = none ∧ ∃ l, Lot.step s.lot (.run i x) = some l ∧ Inv { s.put i b w with lot := l } := by
  have hs := WordLock.stepPc_cases hw
  have hrun : Run WordLock.step Any .init w := .tail (h.word b) trivial hw
  have hother : ∀ j, j ≠ i → stage (w.pc j) = stage ((s.word b).pc j) := fun j hj => stage_other hs hj
  have hst : stage ((s.word b).pc i) = .taking := by
    have hnext := next_of_step hs ((h.call i b).1 hc) (ne_crash hrun i)
    rw [hpc] at hnext
    generalize stage ((s.word b).pc i) = st at hnext
    cases hnext with
    | stay _ hstay => rcases hstay with hstay | hstay <;> cases hstay
    | got => rfl
    | gave hstay => rcases hstay with hstay | hstay <;> cases hstay
  have hholds : ∀ j, 0 < (w.pc j).holds ↔ j = i := by
    have hi : 0 < (w.pc i).holds := by rw [hpc]; exact Nat.one_pos
    exact fun j => ⟨fun hj => holds_unique hrun hj hi, fun hj => by rw [hj]; exact hi⟩
  have hm : s.lot.mutex b = none := by
    refine Option.eq_none_iff_forall_ne_some.2 fun j hj => ?_
    have hj := (holds_iff _).1 ((h.mutex b j).1 hj)
    have hji : j ≠ i := by
      rintro rfl
      rw [hst] at hj
      rcases hj with hj | hj <;> cases hj
    exact hji ((hholds j).1 ((holds_iff _).2 (by rw [hother j hji]; exact hj)))
  refine ⟨hm, ?_⟩
  obtain ⟨pc, hl, hn⟩ := take_eq (h.taking i b hst) hm x
  refine ⟨_, hl, h.put (.inr hc) hw hother (.tail h.lot trivial hl) (fun j hj => Function.update_of_ne hj _ _) rfl
    (fun t ht => ht.goto rfl rfl hn) (fun c hcb => Function.update_of_ne hcb _ _) (fun j => ?_) ?_ ?_ ?_⟩
  · rw [hholds j]
    show Function.update s.lot.mutex b (some i) b = some j ↔ _
    rw [Function.update_self, Option.some.injEq]
    exact eq_comm
  all_goals
    rw [hpc]
    rintro ⟨⟩

/-- In `fetch_sub` the parking lot goes on too. -/
theorem Inv.gave (h : Inv s) (hc : s.call i = some b)
    (hw : WordLock.step (s.word b) (.run i spurious addr) = some w) (hpc : (s.word b).pc i = .unlockFast) (x : Choice) :
    ∃ l, Lot.step s.lot (.run i x) = some l ∧ Inv { s.put i b w with lot := l } := by
  have hs := WordLock.stepPc_cases hw
  have hrun : Run WordLock.step Any .init w := .tail (h.word b) trivial hw
  have hother : ∀ j, j ≠ i → stage (w.pc j) = stage ((s.word b).pc j) := fun j hj => stage_other hs hj
  have hst : stage (w.pc i) = .leaving ∨ stage (w.pc i) = .out := by
    have hnext := next_of_step hs ((h.call i b).1 hc) (ne_crash hrun i)
    rw [hpc] at hnext
    generalize stage (w.pc i) = st at hnext
    cases hnext with
    | stay _ hstay => rcases hstay with hstay | hstay <;> cases hstay
    | gave hst => exact hst
  have hlast := h.lasting i b hc
  obtain ⟨pc, hl, hn⟩ := give_eq (h.giving i b (by rw [hpc]; rfl)) x
  refine ⟨_, hl, h.put (.inr hc) hw hother (.tail h.lot trivial hl) (fun j hj => Function.update_of_ne hj _ _) rfl
    (fun t ht => ht.goto rfl rfl hn) (fun c hcb => Function.update_of_ne hcb _ _) (fun j => ?_)
    (fun _ => hlast.goto rfl rfl hn) (fun htaking => ?_) fun hgiving => ?_⟩
  · show Function.update s.lot.mutex b none b = some j ↔ _
    rw [Function.update_self]
    refine iff_of_false (by rintro ⟨⟩) fun hj => ?_
    rw [holds_iff] at hj
    by_cases hji : j = i
    · subst hji
      rcases hst with hst | hst <;> rw [hst] at hj <;> rcases hj with hj | hj <;> cases hj
    · rw [hother j hji, ← holds_iff] at hj
      exact hji (holds_unique (h.word b) hj (by rw [hpc]; exact Nat.one_pos))
  · rcases hst with hst | hst <;> cases hst.symm.trans htaking
  · rcases hst with hst | hst <;> cases hst.symm.trans hgiving

theorem Inv.inside (h : Inv s) (hc : s.call i = some b)
    (hw : WordLock.step (s.word b) (.run i spurious addr) = some w) (hgot : w.pc i ≠ .holding)
    (hgave : (s.word b).pc i ≠ .unlockFast) : Inv (s.put i b w) := by
  have hs := WordLock.stepPc_cases hw
  have hnext := next_of_step hs ((h.call i b).1 hc) (ne_crash (.tail (h.word b) trivial hw) i)
  have hhas : stage (w.pc i) ≠ .has := fun hst => hgot (by generalize w.pc i = pc at hst; cases pc <;> cases hst; rfl)
  have hgiv : stage ((s.word b).pc i) ≠ .giving :=
    fun hst => hgave (by generalize (s.word b).pc i = pc at hst; cases pc <;> cases hst; rfl)
  suffices ¬0 < (w.pc i).holds ∧ ¬0 < ((s.word b).pc i).holds ∧
      (stage (w.pc i) = .taking → stage ((s.word b).pc i) = .taking) ∧ stage (w.pc i) ≠ .giving by
    obtain ⟨hnew, hold, htaking, hgiving⟩ := this
    exact h.access (.inr hc) hw (fun j hj => stage_other hs hj) (iff_of_false hnew hold) (fun _ => h.lasting i b hc)
      (fun hst => h.taking i b (htaking hst)) fun hst => absurd hst hgiving
  rw [holds_iff, holds_iff]
  generalize stage (w.pc i) = new at hnext hhas
  generalize stage ((s.word b).pc i) = old at hnext hgiv
  cases hnext with
  | stay _ hstay => rcases hstay with rfl | rfl <;> decide
  | got => exact absurd rfl hhas
  | gave => exact absurd rfl hgiv
  | left => decide

end

theorem Inv.step {a : Act} (h : Inv s) (hs : step s a = some s') : Inv s' := by
  cases a with
  | lot a =>
    simp only [LotWords.step] at hs
    split at hs
    · obtain ⟨hi, ht, hg⟩ := ‹_ ∧ _›
      obtain ⟨l, hl, rfl⟩ := Option.map_eq_some_iff.1 hs
      exact h.setLot hi ht hg hl
    · cases hs
  | call i =>
    simp only [LotWords.step] at hs
    split at hs
    · rename_i hi
      split at hs
      · rename_i b _ ht
        obtain ⟨w, hw, rfl⟩ := Option.map_eq_some_iff.1 hs
        obtain ⟨hidle, hgoto⟩ := Option.ite_none_right_eq_some.1 hw
        exact h.enter hi hw hidle (Option.some.inj hgoto).symm (by decide) (table_of_takes ht) (fun _ => ht)
          (by rintro ⟨⟩)
      · rename_i b ht hg
        obtain ⟨w, hw, rfl⟩ := Option.map_eq_some_iff.1 hs
        obtain ⟨hhas, hgoto⟩ := Option.ite_none_right_eq_some.1 hw
        exact h.enter hi hw hhas (Option.some.inj hgoto).symm (by decide) (table_of_gives hg) (by rintro ⟨⟩)
          fun _ => hg
      · cases hs
    · cases hs
  | run i spurious addr x =>
    obtain ⟨b, hc, hs⟩ := Option.bind_eq_some_iff.1 hs
    obtain ⟨bits, -, hs⟩ := Option.bind_eq_some_iff.1 hs
    obtain ⟨w, hw, hs⟩ := Option.bind_eq_some_iff.1 hs
    split at hs
    · obtain ⟨hm, l, hl, hinv⟩ := h.granted hc hw ‹_› x
      obtain ⟨l', hl', rfl⟩ := Option.map_eq_some_iff.1 hs
      rw [← hm, Function.update_eq_self] at hl'
      cases hl.symm.trans hl'
      exact hinv
    · split at hs
      · obtain ⟨l, hl, hinv⟩ := h.gave hc hw ‹_› x
        obtain ⟨l', hl', rfl⟩ := Option.map_eq_some_iff.1 hs
        cases hl.symm.trans hl'
        exact hinv
      · cases hs
        exact h.inside hc hw ‹_› ‹_›

theorem inv_of_run (h : Run step Any .init s) : Inv s :=
  h.invariant inv_init fun _ _ _ hinv _ hs => hinv.step hs

/-- The parking lot makes a run of `Lot`, in which the threads have the locks that they have here; and no thread
that waits for a lock accesses a `ThreadData` that is gone. -/
theorem words_refine (h : Run step Any .init s) : Run Lot.step Any .init s.lot ∧
    (∀ b i, s.lot.mutex b = some i ↔ (s.word b).pc i = .holding ∨ (s.word b).pc i = .unlockFast) ∧
    ∀ b i, (s.word b).pc i ≠ .crash := by
  have hinv := inv_of_run h
  exact ⟨hinv.lot, fun b i => (hinv.mutex b i).trans (WordLock.Pc.holds_pos _), fun b => ne_crash (hinv.word b)⟩

/-- Thread 0 makes the table and locks the bucket of the key 8, for which thread 1 then waits. -/
def contended : List Act :=
  let lot (i : Tid) (n : Nat) : List Act := List.replicate n (.lot (.run i ⟨0, 1, true, fun _ => 7, false, 2⟩))
  let word (i : Tid) (n : Nat) : List Act := List.replicate n (.run i false 8 ⟨0, 1, true, fun _ => 7, false, 2⟩)
  let park (i : Tid) : List Act := [.lot (.park i 8 0 false)] ++ lot i 1 ++ [.call i]
  [.lot (.start 0)] ++ lot 0 3 ++ [.lot (.start 1)] ++ lot 1 2 ++ park 0 ++ word 0 1 ++ park 1 ++ word 1 16

theorem words_refine_contended : ∃ s, Run step Any .init s ∧ (s.word (0, 15)).pc 1 = .asleep 8 ∧
    s.lot.mutex (0, 15) = some 0 := by
  obtain ⟨s, h, heq⟩ : ∃ s, Run step Any .init s ∧
      ((s.word (0, 15)).pc 1, (s.word (0, 15)).pc 0) = (.asleep 8, .holding) :=
    Run.of_exec_map (f := fun s : State => ((s.word (0, 15)).pc 1, (s.word (0, 15)).pc 0)) (l := contended)
      (by decide +kernel)
  obtain ⟨h1, h0⟩ := Prod.mk.inj heq
  exact ⟨s, h, h1, ((words_refine h).2.1 _ _).2 (.inl h0)⟩

/-- The parking lot goes on when `WordLock` does. -/
theorem never_refused (h : Run step Any .init s) {w : WordLock.State} {spurious : Bool} {addr : WordLock.Usize}
    (hc : s.call i = some b) (hw : WordLock.step (s.word b) (.run i spurious addr) = some w) (x : Choice) :
    ∃ s', step s (.run i spurious addr x) = some s' := by
  have hinv := inv_of_run h
  obtain ⟨bits, hb⟩ := Option.ne_none_iff_exists'.1 (hinv.lasting i b hc).1
  simp only [step, hc, hb, hw, Option.bind_some]
  split
  · obtain ⟨hm, l, hl, -⟩ := hinv.granted hc hw ‹_› x
    rw [← hm, Function.update_eq_self, hl]
    exact ⟨_, rfl⟩
  · split
    · obtain ⟨l, hl, -⟩ := hinv.gave hc hw ‹_› x
      rw [hl]
      exact ⟨_, rfl⟩
    · exact ⟨_, rfl⟩

/-! ### Progress -/

/-- With enough fuel, and with a place for a table and for a `ThreadData`, the thread can make a step. -/
def CanStep (s : State) (i : Tid) : Prop :=
  ∃ N, ∀ (x : Choice) (addr : WordLock.Usize), N ≤ x.fuel → s.lot.table x.addr = none →
    (addr ≠ 0 ∧ WordLock.Aligned addr ∧ ∀ b, s.call i = some b → (s.word b).mem addr = none) →
    ∃ a s', (a = .call i ∨ a = .lot (.run i x) ∨ a = .run i false addr x) ∧ step s a = some s'

/-- In the code of a lock a thread waits only in its sleep. -/
theorem run_some {w : WordLock.State} (hc : (stage (w.pc i)).calls = true) (hcrash : w.pc i ≠ .crash)
    (hsleep : ∀ p, w.pc i ≠ .asleep p) {addr : WordLock.Usize} (h0 : addr ≠ 0) (ha : WordLock.Aligned addr)
    (hm : w.mem addr = none) : ∃ w', WordLock.step w (.run i false addr) = some w' := by
  show ∃ w', WordLock.stepPc w i false addr (w.pc i) = some w'
  cases hpc : w.pc i with
  | idle | holding =>
    rw [hpc] at hc
    cases hc
  | crash => exact absurd hpc hcrash
  | asleep p => exact absurd hpc (hsleep p)
  | slowPrepare wait state => exact ⟨_, if_pos ⟨h0, ha, hm⟩⟩
  | lockFast | slowGrab | slowPush | unlockTry | settle =>
    simp only [WordLock.stepPc]
    split <;> exact ⟨_, rfl⟩
  | dropLast =>
    simp only [WordLock.stepPc]
    split
    · exact ⟨_, rfl⟩
    · split <;> exact ⟨_, rfl⟩
  | _ => exact ⟨_, rfl⟩

theorem canStep_of_awake (h : Run step Any .init s) (hc : s.call i = some b)
    (hsleep : ∀ p, (s.word b).pc i ≠ .asleep p) : CanStep s i := by
  have hinv := inv_of_run h
  refine ⟨0, fun x addr _ _ haddr => ?_⟩
  obtain ⟨w, hw⟩ := run_some ((hinv.call i b).1 hc) (ne_crash (hinv.word b) i) hsleep haddr.1 haddr.2.1
    (haddr.2.2 b hc)
  obtain ⟨s', hs⟩ := never_refused h hc hw x
  exact ⟨_, s', .inr (.inr rfl), hs⟩

/-- Only `grow_hashtable` takes a lock while it has another, and it takes them in order. -/
theorem further_of_takes {l : Lot.State} {pc : Lot.Pc} {t : Lot.Addr} {c : Nat} (hh : pc.Holds l.table (t, c))
    (h : takes l pc = some b) : ∃ c', b = (t, c') ∧ c < c' ∧ ∃ bits, l.table t = some bits ∧ c' < 2 ^ bits := by
  cases pc with
  | growLock n t' c' =>
    obtain ⟨rfl, hlt⟩ : t = t' ∧ c < c' := hh
    obtain ⟨bits, hb, h⟩ := Option.bind_eq_some_iff.1 h
    split at h <;> cases h
    exact ⟨c', rfl, hlt, bits, hb, ‹_›⟩
  | lock => exact hh.elim
  | _ => cases h

theorem not_holds_of_takes {l : Lot.State} {pc : Lot.Pc} (h : takes l pc = some b) : ¬pc.Holds l.table b := by
  intro hh
  obtain ⟨c, hc, hlt, -⟩ := further_of_takes hh h
  rw [hc] at hlt
  exact Nat.lt_irrefl c hlt

theorem holds_of_gives {l : Lot.State} {pc : Lot.Pc} (h : gives l pc = some b) : pc.Holds l.table b := by
  cases pc with
  | growBack n t c | growUnlock t c =>
    obtain ⟨bits, hb, h⟩ := Option.bind_eq_some_iff.1 h
    split at h <;> cases h
    exact ⟨rfl, Nat.le_refl _, bits, hb, ‹_›⟩
  | back key work c | leave c sleep =>
    obtain ⟨bits, -, rfl⟩ := Option.map_eq_some_iff.1 h
    rfl
  | _ => cases h

/-- A thread that is in no `lock` or `unlock` goes on in the parking lot or calls one. -/
theorem Inv.canStep (hinv : Inv s) (hc : s.call i = none) (hi : s.lot.pc i ≠ .idle)
    (ha : ∀ timeout, s.lot.pc i ≠ .asleep timeout) : CanStep s i := by
  have hlocks := (Lot.load_of_run hinv.lot).locks
  cases ht : takes s.lot (s.lot.pc i) with
  | some b =>
    have hidle : (s.word b).pc i = .idle := (hinv.idle hc b).resolve_right fun hpc => by
      refine not_holds_of_takes ht ((hlocks.mutex i b).1 ?_)
      exact (hinv.mutex b i).2 (by rw [hpc]; exact Nat.one_pos)
    refine ⟨0, fun x addr _ _ _ => ⟨.call i, s.put i b ((s.word b).goto i .lockFast), .inl rfl, ?_⟩⟩
    simp only [LotWords.step, if_pos hc, ht, WordLock.step, if_pos hidle, Option.map_some]
  | none =>
    cases hg : gives s.lot (s.lot.pc i) with
    | some b =>
      have hhas : (s.word b).pc i = .holding := (hinv.idle hc b).resolve_left fun hpc => by
        have hholds := (hinv.mutex b i).1 ((hlocks.mutex i b).2 (holds_of_gives hg))
        rw [hpc] at hholds
        cases hholds
      refine ⟨0, fun x addr _ _ _ => ⟨.call i, s.put i b ((s.word b).goto i .unlockFast), .inl rfl, ?_⟩⟩
      simp only [LotWords.step, if_pos hc, ht, hg, WordLock.step, if_pos hhas, Option.map_some]
    | none =>
      obtain ⟨Q, hlot⟩ := Lot.inv_of_unwatched hinv.lot
      obtain ⟨N, hN⟩ := (hlot.canStep hi).resolve_left fun hblocked => by
        cases hblocked with
        | growLock hpc hb hlt =>
          rw [hpc, takes, hb, Option.bind_some, if_pos hlt] at ht
          cases ht
        | lock hpc hb =>
          rw [hpc, takes, hb] at ht
          cases ht
        | asleep hpc => exact ha _ hpc
      refine ⟨N, fun x addr hx htable _ => ?_⟩
      obtain ⟨l, hl⟩ := hN x hx htable
      refine ⟨.lot (.run i x), s.setLot l, .inr (.inl rfl), ?_⟩
      rw [LotWords.step, if_pos ⟨hc, ht, hg⟩, hl, Option.map_some]

/-- Behind a thread that sleeps in `lock` stands one that can make a step. -/
theorem exists_canStep (h : Run step Any .init s) {t : Lot.Addr} {bits c : Nat} (hb : s.lot.table t = some bits)
    (hi : s.call i = some (t, c)) : ∃ j, CanStep s j := by
  have hinv := inv_of_run h
  -- who has the lock sleeps, if at all, in that of a bucket further on
  induction hd : 2 ^ bits - c using Nat.strong_induction_on generalizing c i with
  | _ d ih =>
    by_cases hsleep : ∃ p, (s.word (t, c)).pc i = .asleep p
    · obtain ⟨p, hp⟩ := hsleep
      obtain ⟨j, hj, hawake⟩ := WordLock.exists_awake (hinv.word (t, c)) hp
      by_cases hh : (s.word (t, c)).pc j = .holding
      · have hholds := ((Lot.load_of_run hinv.lot).locks.mutex j (t, c)).1
          ((hinv.mutex (t, c) j).2 (by rw [hh]; exact Nat.one_pos))
        cases hc : s.call j with
        | none =>
          refine ⟨j, hinv.canStep hc (fun hpc => ?_) fun timeout hpc => ?_⟩
          · rw [hpc] at hholds
            exact hholds
          · rw [hpc] at hholds
            exact hholds
        | some b =>
          by_cases hsleep' : ∃ q, (s.word b).pc j = .asleep q
          · obtain ⟨q, hq⟩ := hsleep'
            have htakes := hinv.taking j b (by rw [hq]; rfl)
            obtain ⟨c', rfl, hlt, bits', hb', hlt'⟩ := further_of_takes hholds htakes
            cases hb.symm.trans hb'
            exact ih (2 ^ bits - c') (by omega) hc rfl
          · exact ⟨j, canStep_of_awake h hc fun q hq => hsleep' ⟨q, hq⟩⟩
      · have hc := (hinv.call j (t, c)).2 ((calls_iff _).2 (not_or.2 ⟨hj, hh⟩))
        exact ⟨j, canStep_of_awake h hc hawake⟩
    · exact ⟨i, canStep_of_awake h hi fun p hp => hsleep ⟨p, hp⟩⟩

/-- As long as some thread is in a call of the parking lot and not parked, there is one that can make a step. -/
theorem words_progress (h : Run step Any .init s)
    (hi : s.call i ≠ none ∨ s.lot.pc i ≠ .idle ∧ ∀ timeout, s.lot.pc i ≠ .asleep timeout) : ∃ j, CanStep s j := by
  have hinv := inv_of_run h
  cases hc : s.call i with
  | none =>
    obtain ⟨hidle, ha⟩ := hi.resolve_left (not_not.2 hc)
    exact ⟨i, hinv.canStep hc hidle ha⟩
  | some b =>
    obtain ⟨bits, hb⟩ := Option.ne_none_iff_exists'.1 (hinv.lasting i b hc).1
    exact exists_canStep h hb hc

end CoQueue.Mutex.LotWords
