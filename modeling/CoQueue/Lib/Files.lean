import Mathlib.Logic.Function.Basic
import Mathlib.Data.List.Nodup

/-!
# Lists by key, kept in places

Each key `k` has a list `F k`, but the lists are kept in places: `loc k` is the place of the key, and a place may
be that of many keys. `Files key loc L F`: `L b` is what is in place `b`, each element `a` is in the place of its
key `key a`, and `F k` are the elements of the key in the order of their place.

An element is appended to its key by appending it to the place (`Files.snoc`), the first one of a key is the
first one of the place with the key (`Files.remove`), and a place may be moved to other ones, key by key
(`Files.move`): the lists of the keys do not see it.
-/

namespace Linked

variable {α κ β : Type*} [DecidableEq κ] {key : α → κ} {loc loc' : κ → β} {L : β → List α} {F : κ → List α}
  {a : α} {b : β} {k : κ} {l r : List α}

structure Files (key : α → κ) (loc : κ → β) (L : β → List α) (F : κ → List α) : Prop where
  place : ∀ b, ∀ a ∈ L b, loc (key a) = b
  queue : ∀ k, F k = (L (loc k)).filter fun a => key a = k

namespace Files

theorem mem_iff (h : Files key loc L F) : a ∈ F k ↔ (∃ b, a ∈ L b) ∧ key a = k := by
  rw [h.queue, List.mem_filter, decide_eq_true_iff]
  constructor
  · rintro ⟨ha, hk⟩
    exact ⟨⟨_, ha⟩, hk⟩
  · rintro ⟨⟨b, ha⟩, rfl⟩
    rw [h.place b a ha]
    exact ⟨ha, rfl⟩

theorem mem_key (h : Files key loc L F) (ha : a ∈ L b) : a ∈ F (key a) := h.mem_iff.2 ⟨⟨b, ha⟩, rfl⟩

theorem congr {key' : α → κ} (h : Files key loc L F) (hk : ∀ b, ∀ a ∈ L b, key' a = key a) :
    Files key' loc L F where
  place b a ha := by
    rw [hk b a ha]
    exact h.place b a ha
  queue k := by
    rw [h.queue]
    refine List.filter_congr fun a ha => ?_
    rw [hk _ a ha]

theorem nil (h : Files key loc L F) (hF : ∀ k, F k = []) (loc' : κ → β) : Files key loc' L F := by
  have hL : ∀ b, L b = [] := fun b => List.eq_nil_iff_forall_not_mem.2 fun a ha => by
    have hmem := h.mem_key ha
    rw [hF] at hmem
    cases hmem
  constructor
  · intro b a ha
    rw [hL] at ha
    cases ha
  · intro k
    rw [hL, hF]
    rfl

section
variable [DecidableEq β]

theorem set {q : List α} (h : Files key loc L F) (hplace : ∀ a ∈ q, loc (key a) = loc k)
    (hother : ∀ k', k' ≠ k → loc k' = loc k →
      (q.filter fun a => key a = k') = (L (loc k)).filter fun a => key a = k') :
    Files key loc (Function.update L (loc k) q) (Function.update F k (q.filter fun a => key a = k)) where
  place b a ha := by
    by_cases hb : b = loc k
    · subst hb
      rw [Function.update_self] at ha
      exact hplace a ha
    · rw [Function.update_of_ne hb] at ha
      exact h.place b a ha
  queue k' := by
    by_cases hk : k' = k
    · subst hk
      rw [Function.update_self, Function.update_self]
    · rw [Function.update_of_ne hk, h.queue]
      by_cases hl : loc k' = loc k
      · rw [hl, Function.update_self, hother k' hk hl]
      · rw [Function.update_of_ne hl]

theorem snoc [DecidableEq α] (h : Files key loc L F) (ha : ∀ b, a ∉ L b) :
    Files (Function.update key a k) loc (Function.update L (loc k) (L (loc k) ++ [a]))
      (Function.update F k (F k ++ [a])) := by
  have h' : Files (Function.update key a k) loc L F := by
    refine h.congr fun b c hc => Function.update_of_ne ?_ _ _
    rintro rfl
    exact ha b hc
  have hF : F k ++ [a] = (L (loc k) ++ [a]).filter fun c => Function.update key a k c = k := by
    rw [List.filter_append, ← h'.queue, List.filter_singleton, Function.update_self, decide_eq_true rfl, cond_true]
  rw [hF]
  refine h'.set (fun c hc => ?_) fun k' hk _ => ?_
  · rcases List.mem_append.1 hc with hc | hc
    · exact h'.place _ c hc
    · rw [List.mem_singleton.1 hc, Function.update_self]
  · rw [List.filter_append, List.filter_singleton, Function.update_self, decide_eq_false (Ne.symm hk), cond_false,
      List.append_nil]

theorem remove (h : Files key loc L F) (hL : L (loc k) = l ++ a :: r) (ha : key a = k) :
    Files key loc (Function.update L (loc k) (l ++ r))
      (Function.update F k ((l ++ r).filter fun c => key c = k)) := by
  refine h.set (fun c hc => h.place (loc k) c ?_) fun k' hk _ => ?_
  · rw [hL]
    simp only [List.mem_append, List.mem_cons] at hc ⊢
    exact hc.imp_right .inr
  · rw [hL, List.filter_append, List.filter_append, List.filter_cons_of_neg]
    rw [ha]
    simpa using Ne.symm hk

theorem erase [DecidableEq α] (h : Files key loc L F) (hk : key a = k) :
    Files key loc (Function.update L (loc k) ((L (loc k)).erase a)) (Function.update F k ((F k).erase a)) := by
  rw [h.queue, List.erase_filter]
  refine h.set (fun c hc => h.place _ c (List.mem_of_mem_erase hc)) fun k' hk' _ => ?_
  rw [← List.erase_filter, List.erase_of_not_mem]
  rw [List.mem_filter, hk]
  simpa using fun _ => Ne.symm hk'

/-- The place `b` is given up: what is in it goes behind what is in the places `entry k`. -/
theorem move {entry : κ → β} (h : Files key loc L F) (hentry : ∀ k, entry k ≠ b)
    (hloc : ∀ k, loc' k = if loc k = b then entry k else loc k) :
    Files key loc' (fun b' => if b' = b then [] else L b' ++ (L b).filter fun a => entry (key a) = b') F where
  place b' a ha := by
    by_cases hb : b' = b
    · rw [if_pos hb] at ha
      cases ha
    · rw [if_neg hb] at ha
      rcases List.mem_append.1 ha with ha | ha
      · rw [hloc, h.place b' a ha, if_neg hb]
      · obtain ⟨ha, he⟩ := List.mem_filter.1 ha
        rw [hloc, h.place b a ha, if_pos rfl]
        exact of_decide_eq_true he
  queue k := by
    rw [h.queue, hloc]
    by_cases hk : loc k = b
    · rw [if_pos hk, if_neg (hentry k), List.filter_append, hk]
      have hnone : ((L (entry k)).filter fun a => key a = k) = [] := by
        rw [List.filter_eq_nil_iff]
        intro a ha hak
        have hpl := h.place _ a ha
        rw [of_decide_eq_true hak, hk] at hpl
        exact hentry k hpl.symm
      rw [hnone, List.nil_append, List.filter_filter]
      refine List.filter_congr fun a _ => ?_
      by_cases hak : key a = k
      · rw [hak]
        simp
      · simp [hak]
    · rw [if_neg hk, if_neg hk, List.filter_append]
      have hnone : (((L b).filter fun a => entry (key a) = loc k).filter fun a => key a = k) = [] := by
        rw [List.filter_eq_nil_iff]
        intro a ha hak
        have hpl := h.place b a (List.mem_filter.1 ha).1
        rw [of_decide_eq_true hak] at hpl
        exact hk hpl
      rw [hnone, List.append_nil]

end

end Files

end Linked
