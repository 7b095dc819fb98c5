import Mathlib.Logic.Function.Basic

/-!
# Fields of a machine word

A mask `m` picks some bits of a word, the field `w &&& m`. The lemmas say what setting, clearing or
keeping the bits of another mask does to a field.
-/

namespace Mask

variable {n : Nat} {a b m : BitVec n}

theorem or_field (w : BitVec n) (h : a &&& m = 0#n) : (w ||| a) &&& m = w &&& m := by
  rw [BitVec.and_or_distrib_right, h, BitVec.or_zero]

theorem andNot_field (w : BitVec n) (h : a &&& m = 0#n) : (w &&& ~~~a) &&& m = w &&& m := by
  have hm : ~~~a &&& m = m := calc
    ~~~a &&& m = (~~~a &&& m) ||| (a &&& m) := by rw [h, BitVec.or_zero]
    _ = (~~~a ||| a) &&& m := BitVec.and_or_distrib_right.symm
    _ = m := by rw [BitVec.not_or_self, BitVec.allOnes_and]
  rw [BitVec.and_assoc, hm]

/-- What keeps the bits of a mask keeps the fields inside of it and clears those outside. -/
theorem and_field_inside (w : BitVec n) (h : a &&& m = m) : (w &&& a) &&& m = w &&& m := by
  rw [BitVec.and_assoc, h]

theorem and_field_outside (w : BitVec n) (h : a &&& m = 0#n) : (w &&& a) &&& m = 0#n := by
  rw [BitVec.and_assoc, h, BitVec.and_zero]

theorem field_eq_zero {w : BitVec n} (hw : w &&& a = 0#n) (h : a &&& m = m) : w &&& m = 0#n := by
  rw [← h, ← BitVec.and_assoc, hw, BitVec.zero_and]

theorem eq_or_field (w m : BitVec n) : w = (w &&& ~~~m) ||| (w &&& m) := by
  rw [← BitVec.and_or_distrib_left, BitVec.not_or_self, BitVec.and_allOnes]

theorem sub_of_field {w : BitVec n} (h : w &&& m = m) : w - m = w &&& ~~~m := by
  have hdisj : (w &&& ~~~m) &&& m = 0#n := and_field_outside w (BitVec.not_and_self m)
  have hsum : w = (w &&& ~~~m) + m := by
    rw [BitVec.add_eq_or_of_and_eq_zero _ _ hdisj]
    exact (eq_or_field w m).trans (by rw [h])
  exact (congrArg (· - m) hsum).trans (BitVec.add_sub_cancel _ _)

end Mask
