import Mathlib.Logic.Function.Basic
import Mathlib.Data.List.Nodup

/-!
# Singly linked chains

A heap of nodes is a function `next : α → Option α`, `none` for the null pointer.
`Path next p l`: following `next` from the pointer `p` visits exactly the nodes `l` and ends in
null. A pointer has at most one path (`Path.det`), so a path visits no node twice (`Path.nodup`),
and the ways a queue changes a chain are `Path.snoc` (link a node after the last one), `Path.drop`
(look at the chain from one of its nodes) and `Path.unlink` (take out a node behind another one).
-/

namespace Linked

variable {α : Type*} {next : α → Option α} {p : Option α} {a b : α} {l l' : List α} {i j : Nat}

/-- Following `next` from `p` visits exactly `l` and ends in null. -/
def Path (next : α → Option α) : Option α → List α → Prop
  | p, [] => p = none
  | p, a :: l => p = some a ∧ Path next (next a) l

namespace Path

theorem det (h : Path next p l) (h' : Path next p l') : l = l' := by
  induction l generalizing p l' with
  | nil =>
    cases l' with
    | nil => rfl
    | cons b l' => cases h.symm.trans h'.1
  | cons a l ih =>
    cases l' with
    | nil => cases h'.symm.trans h.1
    | cons b l' =>
      obtain rfl : a = b := Option.some.inj (h.1.symm.trans h'.1)
      rw [ih h.2 h'.2]

theorem drop (h : Path next p l) (hi : l[i]? = some a) : Path next (next a) (l.drop (i + 1)) := by
  induction l generalizing p i with
  | nil => simp at hi
  | cons b l ih =>
    cases i with
    | zero =>
      obtain rfl : b = a := by simpa using hi
      simpa using h.2
    | succ i =>
      rw [List.drop_succ_cons]
      exact ih h.2 (by simpa using hi)

theorem eq_head? (h : Path next p l) : p = l.head? := by
  cases l with
  | nil => exact h
  | cons a l => exact h.1

theorem next_eq (h : Path next p l) (hi : l[i]? = some a) : next a = l[i + 1]? := by
  rw [(h.drop hi).eq_head?, List.head?_drop]

theorem index_inj (h : Path next p l) (hi : l[i]? = some a) (hj : l[j]? = some a) : i = j := by
  have hlen := congrArg List.length ((h.drop hi).det (h.drop hj))
  obtain ⟨hi', -⟩ := List.getElem?_eq_some_iff.1 hi
  obtain ⟨hj', -⟩ := List.getElem?_eq_some_iff.1 hj
  simp only [List.length_drop] at hlen
  omega

theorem nodup (h : Path next p l) : l.Nodup := by
  rw [List.nodup_iff_getElem?_ne_getElem?]
  intro i j hij hj heq
  have hi := List.getElem?_eq_getElem (Nat.lt_trans hij hj)
  exact absurd (h.index_inj hi (heq ▸ hi)) (Nat.ne_of_lt hij)

theorem getLast?_of_next (h : Path next p l) (ha : a ∈ l) (hn : next a = none) :
    l.getLast? = some a := by
  obtain ⟨i, hi⟩ := List.mem_iff_getElem?.1 ha
  have hlen : l.length ≤ i + 1 := List.getElem?_eq_none_iff.1 ((h.next_eq hi).symm.trans hn)
  have hlt : i < l.length := (List.getElem?_eq_some_iff.1 hi).1
  rw [List.getLast?_eq_getElem?, show l.length - 1 = i by omega]
  exact hi

theorem next_of_append {q : List α} (h : Path next p (q ++ l)) (ha : q.getLast? = some a) :
    next a = l.head? := by
  have hq : q ≠ [] := by rintro rfl; simp at ha
  have hpos := List.length_pos_iff.2 hq
  rw [List.getLast?_eq_getElem?] at ha
  rw [h.next_eq (i := q.length - 1) (by rw [List.getElem?_append_left (by omega)]; exact ha),
    List.getElem?_append_right (by omega), show q.length - 1 + 1 - q.length = 0 by omega,
    List.head?_eq_getElem?]

/-- A list whose nodes point to one another in order is the path from any of its nodes on. -/
theorem of_getElem? (h : ∀ k a, l[k]? = some a → next a = l[k + 1]?) (k : Nat) :
    Path next l[k]? (l.drop k) := by
  induction l generalizing k with
  | nil => simp [Path]
  | cons a l ih =>
    have htail : ∀ k, Path next l[k]? (l.drop k) := ih fun k b hb => by
      simpa using h (k + 1) b (by simpa using hb)
    cases k with
    | zero =>
      refine ⟨rfl, ?_⟩
      rw [h 0 a rfl]
      simpa using htail 0
    | succ k => simpa using htail k

theorem congr {next' : α → Option α} (h : Path next p l) (hn : ∀ a ∈ l, next' a = next a) :
    Path next' p l := by
  induction l generalizing p with
  | nil => exact h
  | cons a l ih =>
    refine ⟨h.1, ?_⟩
    rw [hn a List.mem_cons_self]
    exact ih h.2 fun b hb => hn b (List.mem_cons_of_mem _ hb)

theorem split (h : Path next p (l ++ a :: l')) : Path next (some a) (a :: l') := by
  induction l generalizing p with
  | nil => exact ⟨rfl, h.2⟩
  | cons b l ih => exact ih h.2

variable [DecidableEq α]

theorem unlink (h : Path next p (l ++ b :: a :: l')) :
    Path (Function.update next b (next a)) p (l ++ b :: l') := by
  induction l generalizing p with
  | nil =>
    have hb := (List.nodup_cons.1 h.nodup).1
    refine ⟨h.1, ?_⟩
    rw [Function.update_self]
    refine h.2.2.congr fun c hc => Function.update_of_ne ?_ _ _
    rintro rfl
    exact hb (List.mem_cons_of_mem _ hc)
  | cons c l ih =>
    have hc : c ≠ b := by
      rintro rfl
      exact (List.nodup_cons.1 h.nodup).1 (by simp)
    refine ⟨h.1, ?_⟩
    rw [Function.update_of_ne hc]
    exact ih h.2

theorem snoc (h : Path next p l) (ha : l.getLast? = some a) (hb : b ∉ l) (hn : next b = none) :
    Path (Function.update next a (some b)) p (l ++ [b]) := by
  induction l generalizing p with
  | nil => simp at ha
  | cons c l ih =>
    rw [List.mem_cons, not_or] at hb
    refine ⟨h.1, ?_⟩
    by_cases hl : l = []
    · subst hl
      obtain rfl : c = a := by simpa using ha
      rw [Function.update_self]
      exact ⟨rfl, by rw [Function.update_of_ne hb.1]; exact hn⟩
    · have ha' : l.getLast? = some a := by rwa [List.getLast?_cons_of_ne_nil hl] at ha
      have hc : c ≠ a := fun hc =>
        (List.nodup_cons.1 h.nodup).1 (hc ▸ List.mem_of_getLast? ha')
      rw [Function.update_of_ne hc]
      exact ih h.2 ha' hb.2

end Path

end Linked
