import Mathlib.Logic.Function.Basic

/-!
# Schedules of an interleaved system

A system is a partial step function `step : σ → α → Option σ`: the label `a : α` says which thread
moves and how every choice left open by the code falls (a spurious failure, a timer, an argument).
`Run step C s t` is a finite schedule from `s` to `t` each of whose steps meets the side condition
`C` in the state it starts from; `C` restricts the environment (who may call what, and when), it
never looks at the outcome of the step. Every invariant of a system is proved once, by
`Run.invariant`, from what a single step preserves.
-/

namespace Schedule

variable {σ α : Type*} {step : σ → α → Option σ} {C D : σ → α → Prop} {s t u : σ}

/-- `t` is reached from `s` by steps that all meet `C`. -/
inductive Run (step : σ → α → Option σ) (C : σ → α → Prop) (s : σ) : σ → Prop
  | refl : Run step C s s
  | tail {t u : σ} {a : α} (h : Run step C s t) (hC : C t a) (hs : step t a = some u) :
      Run step C s u

def Any (_ : σ) (_ : α) : Prop := True

instance (s : σ) (a : α) : Decidable (Any s a) := isTrue trivial

namespace Run

/-- What holds at the start and is kept by every admitted step holds in every state reached. -/
theorem invariant {P : σ → Prop} (h₀ : P s)
    (hP : ∀ t a u, P t → C t a → step t a = some u → P u) (h : Run step C s t) : P t := by
  induction h with
  | refl => exact h₀
  | tail _ hC hs ih => exact hP _ _ _ ih hC hs

theorem single {a : α} (hC : C s a) (hs : step s a = some t) : Run step C s t :=
  .tail .refl hC hs

theorem trans (h₁ : Run step C s t) (h₂ : Run step C t u) : Run step C s u := by
  induction h₂ with
  | refl => exact h₁
  | tail _ hC hs ih => exact .tail ih hC hs

theorem mono (hCD : ∀ t a, C t a → D t a) (h : Run step C s t) : Run step D s t := by
  induction h with
  | refl => exact .refl
  | tail _ hC hs ih => exact .tail ih (hCD _ _ hC) hs

/-- A side condition may be traded for one it implies in every state an invariant allows. -/
theorem under {P : σ → Prop} (h₀ : P s)
    (hP : ∀ t a u, P t → C t a → step t a = some u → P u)
    (hCD : ∀ t a u, P t → C t a → step t a = some u → D t a) (h : Run step C s t) :
    Run step D s t := by
  have key : P t ∧ Run step D s t := by
    induction h with
    | refl => exact ⟨h₀, .refl⟩
    | tail _ hC hs ih => exact ⟨hP _ _ _ ih.1 hC hs, .tail ih.2 (hCD _ _ _ ih.1 hC hs) hs⟩
  exact key.2

/-- If every step is matched by a step of another system or by none, every run is matched by a run of that
system. -/
theorem simulate {τ β : Type*} {step' : τ → β → Option τ} {D : τ → β → Prop} {R : σ → τ → Prop} {s' : τ}
    (h₀ : R s s')
    (hR : ∀ t a u t', R t t' → C t a → step t a = some u →
      R u t' ∨ ∃ b u', D t' b ∧ step' t' b = some u' ∧ R u u')
    (h : Run step C s t) : ∃ t', Run step' D s' t' ∧ R t t' := by
  induction h with
  | refl => exact ⟨s', .refl, h₀⟩
  | tail _ hC hs ih =>
    obtain ⟨t', hrun, hrel⟩ := ih
    rcases hR _ _ _ t' hrel hC hs with hrel' | ⟨b, u', hD, hs', hrel'⟩
    · exact ⟨t', hrun, hrel'⟩
    · exact ⟨u', .tail hrun hD hs', hrel'⟩

/-- If any one thread can be brought where it is to be, and the others stay where they are meanwhile, then all
of them can be brought there, one after the other; `l` lists those that are not there yet. -/
theorem sweep {ι β : Type*} {pc : σ → ι → β} {P : σ → Prop} {Q : β → Prop}
    (hone : ∀ s i, P s → ∃ t, Run step C s t ∧ P t ∧ Q (pc t i) ∧ ∀ j, j ≠ i → pc t j = pc s j)
    (l : List ι) (h : P s) (hl : ∀ j, j ∉ l → Q (pc s j)) : ∃ t, Run step C s t ∧ P t ∧ ∀ j, Q (pc t j) := by
  classical
  induction l generalizing s with
  | nil => exact ⟨s, .refl, h, fun j => hl j List.not_mem_nil⟩
  | cons i l ih =>
    obtain ⟨t, hrun, ht, hi, hne⟩ := hone s i h
    have hrest : ∀ j, j ∉ l → Q (pc t j) := by
      intro j hj
      by_cases hji : j = i
      · rw [hji]
        exact hi
      · rw [hne j hji]
        exact hl j fun hmem => (List.mem_cons.1 hmem).elim hji hj
    obtain ⟨u, hrun', hu, hall⟩ := ih ht hrest
    exact ⟨u, hrun.trans hrun', hu, hall⟩

end Run

/-! ### Running a schedule -/

/-- Runs the labels in order; `none` when one of them is not admitted or not enabled. -/
def exec (step : σ → α → Option σ) (C : σ → α → Prop) [∀ s a, Decidable (C s a)] :
    σ → List α → Option σ
  | s, [] => some s
  | s, a :: l => if C s a then (step s a).bind fun t => exec step C t l else none

theorem Run.of_exec [∀ s a, Decidable (C s a)] {l : List α} (h : exec step C s l = some t) :
    Run step C s t := by
  induction l generalizing s with
  | nil => cases h; exact .refl
  | cons a l ih =>
    simp only [exec] at h
    split at h
    · rename_i hC
      obtain ⟨r, hr, h⟩ := Option.bind_eq_some_iff.1 h
      exact (Run.single hC hr).trans (ih h)
    · cases h

/-- A schedule that runs through, seen through an observation `f` of its last state. -/
theorem Run.of_exec_map [∀ s a, Decidable (C s a)] {β : Type*} {f : σ → β} {b : β} {l : List α}
    (h : (exec step C s l).map f = some b) : ∃ t, Run step C s t ∧ f t = b := by
  obtain ⟨t, ht, hb⟩ := Option.map_eq_some_iff.1 h
  exact ⟨t, .of_exec ht, hb⟩

/-! ### Watching a run -/

section
variable {ν : Type*} {note : σ → α → ν → ν} {w w' : σ × ν}

/-- The system with an observer, whose notes no step reads. -/
def watch (step : σ → α → Option σ) (note : σ → α → ν → ν) (w : σ × ν) (a : α) : Option (σ × ν) :=
  (step w.1 a).map fun t => (t, note w.1 a w.2)

theorem watch_eq {a : α} (h : watch step note w a = some w') :
    step w.1 a = some w'.1 ∧ w'.2 = note w.1 a w.2 := by
  obtain ⟨t, ht, rfl⟩ := Option.map_eq_some_iff.1 h
  exact ⟨ht, rfl⟩

theorem Run.unwatch {n n' : ν} (h : Run (watch step note) (fun w a => C w.1 a) (s, n) (t, n')) :
    Run step C s t := by
  refine h.invariant (P := fun w => Run step C s w.1) .refl fun v a u hrun hC hs => ?_
  exact .tail hrun hC (watch_eq hs).1

theorem Run.watch (h : Run step C s t) (n : ν) :
    ∃ n', Run (watch step note) (fun w a => C w.1 a) (s, n) (t, n') := by
  induction h with
  | refl => exact ⟨n, .refl⟩
  | @tail t u a _ hC hs ih =>
    obtain ⟨n', hrun⟩ := ih
    refine ⟨note t a n', .tail hrun hC ?_⟩
    rw [Schedule.watch, hs]
    rfl

end

/-! ### One thread on its own -/

/-- `n` steps of a partial function, or as many as there are. -/
def follow (f : σ → Option σ) : Nat → σ → σ
  | 0, s => s
  | n + 1, s => match f s with
    | some t => follow f n t
    | none => s

def Leads (f : σ → Option σ) (s t : σ) : Prop := ∃ k, ∀ n, follow f (n + k) s = follow f n t

section
variable {f : σ → Option σ} {n : Nat}

theorem Leads.refl (s : σ) : Leads f s s := ⟨0, fun _ => rfl⟩

theorem Leads.head (hs : f s = some t) (h : Leads f t u) : Leads f s u := by
  obtain ⟨k, hk⟩ := h
  refine ⟨k + 1, fun n => ?_⟩
  rw [← Nat.add_assoc, follow, hs]
  exact hk n

theorem Leads.trans (h₁ : Leads f s t) (h₂ : Leads f t u) : Leads f s u := by
  obtain ⟨k, hk⟩ := h₁
  obtain ⟨l, hl⟩ := h₂
  refine ⟨l + k, fun n => ?_⟩
  rw [← Nat.add_assoc, hk, hl]

theorem follow_stop (hs : f s = none) (n : Nat) : follow f n s = s := by
  cases n with
  | zero => rfl
  | succ n => rw [follow, hs]

theorem follow_add (n k : Nat) (s : σ) : follow f (n + k) s = follow f k (follow f n s) := by
  induction n generalizing s with
  | zero => rw [Nat.zero_add]; rfl
  | succ n ih =>
    rw [Nat.succ_add, follow, follow]
    cases hs : f s with
    | none => exact (follow_stop hs k).symm
    | some t => exact ih t

theorem Leads.enough (h : Leads f s t) (ht : f t = none) : ∃ k, ∀ n, k ≤ n → follow f n s = t := by
  obtain ⟨k, hk⟩ := h
  refine ⟨k, fun n hn => ?_⟩
  rw [← Nat.sub_add_cancel hn, hk, follow_stop ht]

theorem Leads.stop_unique (h : Leads f s t) (ht : f t = none) (hn : f (follow f n s) = none) :
    follow f n s = t := by
  obtain ⟨k, hk⟩ := h
  rw [← follow_stop hn k, ← follow_add, hk, follow_stop ht]

/-- What a computation with enough fuel returns has a property exactly when `c` holds, if this is so of one
such result. -/
theorem enough_iff {β : Type*} {g : Nat → Option β} {P : β → Prop} {c : Prop}
    (h : ∃ N, ∀ n, N ≤ n → ∃ x, g n = some x ∧ (P x ↔ c)) :
    (∃ N, ∀ n, N ≤ n → ∃ x, g n = some x ∧ P x) ↔ c := by
  obtain ⟨N, hN⟩ := h
  constructor
  · rintro ⟨N', hN'⟩
    obtain ⟨x, hx, hP⟩ := hN' (max N N') (Nat.le_max_right N N')
    obtain ⟨y, hy, hiff⟩ := hN (max N N') (Nat.le_max_left N N')
    obtain rfl := Option.some.inj (hx.symm.trans hy)
    exact hiff.1 hP
  · intro hc
    refine ⟨N, fun n hn => ?_⟩
    obtain ⟨x, hx, hiff⟩ := hN n hn
    exact ⟨x, hx, hiff.2 hc⟩

theorem follow_invariant {P : σ → Prop} (hP : ∀ s t, P s → f s = some t → P t) (h : P s) (n : Nat) :
    P (follow f n s) := by
  induction n generalizing s with
  | zero => exact h
  | succ n ih =>
    rw [follow]
    cases hs : f s with
    | none => exact h
    | some t => exact ih (hP s t h hs)

theorem Leads.invariant {P : σ → Prop} (h : Leads f s t) (hP : ∀ s t, P s → f s = some t → P t)
    (hs : P s) : P t := by
  obtain ⟨k, hk⟩ := h
  rw [show t = follow f (0 + k) s from (hk 0).symm]
  exact follow_invariant hP hs _

end

/-! ### Two computations side by side -/

section
variable {τ β γ : Type*} {R : σ → τ → Prop} {x : Option σ} {y : Option τ}

theorem rel_bind {S : β → γ → Prop} {f : σ → Option β} {g : τ → Option γ} (h : Option.Rel R x y)
    (hfg : ∀ s t, x = some s → R s t → Option.Rel S (f s) (g t)) :
    Option.Rel S (x.bind f) (y.bind g) := by
  cases h with
  | none => exact .none
  | some h => exact hfg _ _ rfl h

theorem rel_imp {S : σ → τ → Prop} (h : Option.Rel R x y) (hRS : ∀ s t, x = some s → R s t → S s t) :
    Option.Rel S x y := by
  cases h with
  | none => exact .none
  | some h => exact .some (hRS _ _ rfl h)

theorem rel_some_left {t : τ} (h : Option.Rel R x (some t)) : ∃ s, x = some s ∧ R s t := by
  cases h with
  | some h => exact ⟨_, rfl, h⟩

theorem rel_some_right {s : σ} (h : Option.Rel R (some s) y) : ∃ t, y = some t ∧ R s t := by
  cases h with
  | some h => exact ⟨_, rfl, h⟩

theorem rel_follow {f : σ → Option σ} {g : τ → Option τ} {s : σ} {t : τ}
    (hfg : ∀ s t, R s t → Option.Rel R (f s) (g t)) (h : R s t) (n : Nat) :
    R (follow f n s) (follow g n t) := by
  induction n generalizing s t with
  | zero => exact h
  | succ n ih =>
    have hrel := hfg s t h
    simp only [follow]
    cases hs : f s with
    | none =>
      rw [hs] at hrel
      cases ht : g t with
      | none => exact h
      | some t' => rw [ht] at hrel; cases hrel
    | some s' =>
      rw [hs] at hrel
      obtain ⟨t', ht, h'⟩ := rel_some_right hrel
      rw [ht]
      exact ih h'

end

/-! ### The thread that moved -/

variable {ι β : Type*} [DecidableEq ι] {f : ι → β} {i j : ι} {x : β}

/-- A fact about thread `j` after thread `i` moved to `x`: it is about `x`, or it is an old one. -/
theorem at_update {P : β → Prop} (h : P (Function.update f i x j)) :
    (j = i ∧ P x) ∨ (j ≠ i ∧ P (f j)) := by
  rw [Function.update_apply] at h
  split at h
  · exact .inl ⟨‹_›, h⟩
  · exact .inr ⟨‹_›, h⟩

theorem of_update {P : β → Prop} (h : P (Function.update f i x j)) (hx : ¬P x) : j ≠ i ∧ P (f j) :=
  (at_update h).elim (fun h => absurd h.2 hx) id

theorem exists_update {P : β → Prop} (h : ∃ j, P (f j)) (hi : P (f i) → P x) :
    ∃ j, P (Function.update f i x j) := by
  obtain ⟨j, hj⟩ := h
  by_cases hji : j = i
  · subst j
    exact ⟨i, by rw [Function.update_self]; exact hi hj⟩
  · exact ⟨j, by rwa [Function.update_of_ne hji]⟩

theorem update_same {γ : Type*} {F : β → γ} (hx : F x = F (f i)) (j : ι) : F (Function.update f i x j) = F (f j) := by
  by_cases hji : j = i
  · subst j
    rw [Function.update_self, hx]
  · rw [Function.update_of_ne hji]

theorem inj_update {γ : Type*} {F : β → Option γ} {a : γ} {k : ι}
    (h : ∀ j k, F (f j) = some a → F (f k) = some a → j = k) (hx : F x = some a → ∀ k, F (f k) ≠ some a)
    (hj : F (Function.update f i x j) = some a) (hk : F (Function.update f i x k) = some a) : j = k := by
  rcases at_update (P := fun y => F y = some a) hj with ⟨hji, hj⟩ | ⟨-, hj⟩ <;>
    rcases at_update (P := fun y => F y = some a) hk with ⟨hki, hk⟩ | ⟨-, hk⟩
  · exact hji.trans hki.symm
  · exact absurd hk (hx hj k)
  · exact absurd hj (hx hk j)
  · exact h j k hj hk

end Schedule
