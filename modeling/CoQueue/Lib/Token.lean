import Mathlib.Data.List.Nodup
import Mathlib.Logic.Function.Basic

/-!
# A token with at most one holder

`Held l f`: a token exists exactly when the flag `l` is set, and `f i` counts how often holder `i` has
it, once for the one holder and not at all for everybody else. A mutex word and its owner, a lease
and its tenant are of this kind. The lemmas say what taking, dropping and passing on the token does,
from what the move changes in `f`.

`Custody out back f` is the same for items that holders take out and bring back one by one: each item
that is out and not back yet is a token of its own.
-/

namespace Token

variable {ι : Type*} [DecidableEq ι] {l : Bool} {f g : ι → Nat} {i j : ι}

/-- The token is out when `l` is set, and then with one holder, who has it once. -/
def Held (l : Bool) (f : ι → Nat) : Prop :=
  ∃ o : Option ι, l = o.isSome ∧ ∀ i, f i = if o = some i then 1 else 0

namespace Held

theorem congr (h : Held l f) (hfg : ∀ i, g i = f i) : Held l g := by
  obtain ⟨o, hl, ho⟩ := h
  exact ⟨o, hl, fun i => (hfg i).trans (ho i)⟩

theorem unique (h : Held l f) (hi : 0 < f i) (hj : 0 < f j) : i = j := by
  obtain ⟨o, -, ho⟩ := h
  rw [ho] at hi hj
  split at hi
  · split at hj
    · rename_i h₁ h₂
      exact Option.some.inj (h₁.symm.trans h₂)
    · omega
  · omega

theorem iff_pos (h : Held l f) : l = true ↔ ∃ i, 0 < f i := by
  obtain ⟨o, rfl, ho⟩ := h
  cases o with
  | none => simp [ho]
  | some i => exact ⟨fun _ => ⟨i, by simp [ho]⟩, fun _ => rfl⟩

theorem set_of_pos (h : Held l f) (hi : 0 < f i) : l = true := h.iff_pos.2 ⟨i, hi⟩

theorem eq_zero (h : Held false f) (i : ι) : f i = 0 := by
  by_contra hi
  cases h.set_of_pos (Nat.pos_of_ne_zero hi)

theorem eq_false (h : Held l f) (hf : ∀ i, f i = 0) : l = false := by
  rw [← Bool.not_eq_true, h.iff_pos]
  rintro ⟨i, hi⟩
  exact Nat.ne_of_gt hi (hf i)

theorem eq_zero_of_ne (h : Held l f) (hi : 0 < f i) (hj : j ≠ i) : f j = 0 := by
  by_contra hne
  exact hj (h.unique (Nat.pos_of_ne_zero hne) hi)

theorem le_one (h : Held l f) (i : ι) : f i ≤ 1 := by
  obtain ⟨o, -, ho⟩ := h
  rw [ho]
  split <;> omega

theorem take (h : Held false f) (hi : g i = f i + 1) (hne : ∀ j, j ≠ i → g j = f j) : Held true g := by
  obtain ⟨o, hl, ho⟩ := h
  obtain rfl : o = none := by cases o with
    | none => rfl
    | some i => cases hl
  refine ⟨some i, rfl, fun j => ?_⟩
  by_cases hj : j = i
  · subst j; rw [hi, ho]; simp
  · rw [hne j hj, ho]; simp [Ne.symm hj]

theorem drop (h : Held l f) (hi : f i = g i + 1) (hne : ∀ j, j ≠ i → g j = f j) : Held false g := by
  obtain ⟨o, -, ho⟩ := h
  have hoi : o = some i := by
    by_contra hno
    rw [ho, if_neg hno] at hi
    omega
  refine ⟨none, rfl, fun j => ?_⟩
  by_cases hj : j = i
  · subst j; rw [ho, if_pos hoi] at hi; simp only [reduceCtorEq, if_false]; omega
  · rw [hne j hj, ho, hoi]; simp [Ne.symm hj]

theorem pass (h : Held l f) (hij : j ≠ i) (hi : f i = g i + 1) (hj : g j = f j + 1)
    (hne : ∀ k, k ≠ i → k ≠ j → g k = f k) : Held l g := by
  have hl : l = true := h.set_of_pos (i := i) (by omega)
  have hmid : Held false fun k => if k = i then g i else f k :=
    h.drop (i := i) (by simpa using hi) fun k hk => if_neg hk
  rw [hl]
  refine hmid.take (i := j) (by simpa [hij] using hj) fun k hk => ?_
  by_cases hki : k = i
  · subst k; exact (if_pos rfl).symm
  · simpa [hki] using hne k hki hk

section
variable {β : Type*} {p : ι → β} {F : β → Nat} {x : β}

theorem keep_update (h : Held l fun j => F (p j)) (hx : F x = F (p i)) :
    Held l fun j => F (Function.update p i x j) := by
  refine h.congr fun j => ?_
  by_cases hj : j = i
  · subst j; rw [Function.update_self, hx]
  · rw [Function.update_of_ne hj]

theorem take_update (h : Held false fun j => F (p j)) (hx : F x = F (p i) + 1) :
    Held true fun j => F (Function.update p i x j) :=
  h.take (i := i) (by rw [Function.update_self, hx]) fun j hj => by rw [Function.update_of_ne hj]

theorem drop_update (h : Held l fun j => F (p j)) (hx : F (p i) = F x + 1) :
    Held false fun j => F (Function.update p i x j) :=
  h.drop (i := i) (by rw [Function.update_self, hx]) fun j hj => by rw [Function.update_of_ne hj]

end

end Held

/-! ### Items that are taken out and brought back -/

section
variable {α β : Type*} [DecidableEq α] {out back : List α} {p : ι → β} {F : β → Option α} {x : β} {a : α}

/-- What has been taken out and not been brought back is with one holder; nothing is brought back twice. -/
structure Custody (out back : List α) (f : ι → Option α) : Prop where
  held : ∀ a, Held (decide (a ∈ out ∧ a ∉ back)) fun i => if f i = some a then 1 else 0
  once : back.Nodup
  sub : ∀ a ∈ back, a ∈ out

namespace Custody

theorem keep_update (h : Custody out back fun j => F (p j)) (hx : F x = F (p i)) :
    Custody out back fun j => F (Function.update p i x j) :=
  ⟨fun a => (h.held a).keep_update (F := fun y => if F y = some a then 1 else 0) (by rw [hx]), h.once, h.sub⟩

theorem take_update (h : Custody out back fun j => F (p j)) (hi : F (p i) = none) (hx : F x = some a)
    (ha : a ∉ out) : Custody (out ++ [a]) back fun j => F (Function.update p i x j) := by
  refine ⟨fun b => ?_, h.once, fun b hb => List.mem_append_left _ (h.sub b hb)⟩
  have hheld := h.held b
  by_cases hb : b = a
  · subst b
    rw [decide_eq_false fun h => ha h.1] at hheld
    rw [decide_eq_true ⟨List.mem_append_right _ (List.mem_singleton_self a), fun hb => ha (h.sub a hb)⟩]
    exact hheld.take_update (F := fun y => if F y = some a then 1 else 0) (by simp [hi, hx])
  · have hout : (b ∈ out ++ [a] ∧ b ∉ back) ↔ (b ∈ out ∧ b ∉ back) := by simp [hb]
    rw [decide_eq_decide.2 hout]
    exact hheld.keep_update (F := fun y => if F y = some b then 1 else 0) (by simp [hi, hx, Ne.symm hb])

theorem give_update (h : Custody out back fun j => F (p j)) (hi : F (p i) = some a) (hx : F x = none) :
    Custody out (back ++ [a]) fun j => F (Function.update p i x j) := by
  have hmine : 0 < if F (p i) = some a then 1 else 0 := by simp [hi]
  obtain ⟨hin, hnot⟩ := of_decide_eq_true ((h.held a).set_of_pos hmine)
  refine ⟨fun b => ?_, ?_, fun b hb => ?_⟩
  · have hheld := h.held b
    by_cases hb : b = a
    · subst b
      rw [decide_eq_false fun h => h.2 (List.mem_append_right _ (List.mem_singleton_self _))]
      exact hheld.drop_update (F := fun y => if F y = some a then 1 else 0) (by simp [hi, hx])
    · have hback : (b ∈ out ∧ b ∉ back ++ [a]) ↔ (b ∈ out ∧ b ∉ back) := by simp [hb]
      rw [decide_eq_decide.2 hback]
      exact hheld.keep_update (F := fun y => if F y = some b then 1 else 0) (by simp [hi, hx, Ne.symm hb])
  · exact List.nodup_append.2 ⟨h.once, List.nodup_singleton a, fun b hb c hc =>
      fun hbc => hnot (List.mem_singleton.1 hc ▸ hbc ▸ hb)⟩
  · rcases List.mem_append.1 hb with hb | hb
    · exact h.sub b hb
    · rw [List.mem_singleton.1 hb]; exact hin

theorem existsUnique {f : ι → Option α} (h : Custody out back f) (ho : a ∈ out) (hb : a ∉ back) :
    ∃! i, f i = some a := by
  have hpos : ∀ i, (0 < if f i = some a then 1 else 0) ↔ f i = some a := by
    intro i
    split <;> simp [*]
  obtain ⟨i, hi⟩ := (h.held a).iff_pos.1 (decide_eq_true ⟨ho, hb⟩)
  exact ⟨i, (hpos i).1 hi, fun j hj => (h.held a).unique ((hpos j).2 hj) hi⟩

theorem perm {f : ι → Option α} (h : Custody out back f) (hf : ∀ i, f i = none) (hout : out.Nodup) :
    back.Perm out := by
  refine (List.perm_ext_iff_of_nodup h.once hout).2 fun a => ⟨h.sub a, fun ha => ?_⟩
  by_contra hb
  obtain ⟨i, hi, -⟩ := h.existsUnique ha hb
  rw [hf i] at hi
  cases hi

end Custody

end

end Token
