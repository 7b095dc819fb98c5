import CoQueue.Lib.Path

/-!
# Queues over shared nodes

Each of the places `b : β` has a pointer to the first and to the last node of a queue; the nodes of all
queues share one `next`. `Queues live next head tail Q`: the pointers of every live place `b` make the queue
`Q b`, and no node is in two queues. The pointers of a place that is not live may be anything.

An operation on one queue is framed by `Queues.set`: it has to say what becomes of the queue of `b`, and that
it has left alone the nodes of the other queues. `Queues.unlive` gives up a place whose queue is empty, and
`Queues.relive` takes a new one in.
-/

namespace Linked

variable {α β : Type*} {live live' : β → Prop} {next next' : α → Option α} {head head' tail tail' : β → Option α}
  {Q : β → List α} {q : List α} {a c : α} {b : β}

structure Queues (live : β → Prop) (next : α → Option α) (head tail : β → Option α) (Q : β → List α) :
    Prop where
  path : ∀ b, live b → Path next (head b) (Q b)
  tail : ∀ b, live b → tail b = (Q b).getLast?
  inj : ∀ a b b', a ∈ Q b → a ∈ Q b' → b = b'
  sub : ∀ a b, a ∈ Q b → live b

namespace Queues

theorem congr (h : Queues live next head tail Q) (hn : ∀ b, ∀ a ∈ Q b, next' a = next a)
    (hh : ∀ b, live b → head' b = head b) (ht : ∀ b, live b → tail' b = tail b) :
    Queues live next' head' tail' Q where
  path b hb := by
    rw [hh b hb]
    exact (h.path b hb).congr (hn b)
  tail b hb := (ht b hb).trans (h.tail b hb)
  inj := h.inj
  sub := h.sub

theorem unlive (h : Queues live next head tail Q) (hl : ∀ b, live' b → live b)
    (hQ : ∀ a b, a ∈ Q b → live' b) : Queues live' next head tail Q where
  path b hb := h.path b (hl b hb)
  tail b hb := h.tail b (hl b hb)
  inj := h.inj
  sub := hQ

theorem relive (h : Queues live next head tail Q) (hl : ∀ b, live b → live' b)
    (hnew : ∀ b, live' b → ¬live b → head b = none ∧ tail b = none) : Queues live' next head tail Q where
  path b hb := by
    by_cases hlive : live b
    · exact h.path b hlive
    · have hQ : Q b = [] := List.eq_nil_iff_forall_not_mem.2 fun a ha => hlive (h.sub a b ha)
      rw [hQ]
      exact (hnew b hb hlive).1
  tail b hb := by
    by_cases hlive : live b
    · exact h.tail b hlive
    · have hQ : Q b = [] := List.eq_nil_iff_forall_not_mem.2 fun a ha => hlive (h.sub a b ha)
      rw [hQ]
      exact (hnew b hb hlive).2
  inj := h.inj
  sub a b ha := hl b (h.sub a b ha)

variable [DecidableEq β]

theorem set (h : Queues live next head tail Q) (hb : live b) (hpath : Path next' (head' b) q)
    (htail : tail' b = q.getLast?) (hq : ∀ a ∈ q, ∀ b', a ∈ Q b' → b' = b)
    (hn : ∀ b' a, b' ≠ b → a ∈ Q b' → next' a = next a) (hh : ∀ b', b' ≠ b → head' b' = head b')
    (ht : ∀ b', b' ≠ b → tail' b' = tail b') :
    Queues live next' head' tail' (Function.update Q b q) where
  path b' hb' := by
    by_cases hbb : b' = b
    · subst hbb
      rw [Function.update_self]
      exact hpath
    · rw [Function.update_of_ne hbb, hh b' hbb]
      exact (h.path b' hb').congr fun a => hn b' a hbb
  tail b' hb' := by
    by_cases hbb : b' = b
    · subst hbb
      rw [Function.update_self]
      exact htail
    · rw [Function.update_of_ne hbb, ht b' hbb]
      exact h.tail b' hb'
  inj a b₁ b₂ h₁ h₂ := by
    by_cases hb₁ : b₁ = b
    · by_cases hb₂ : b₂ = b
      · exact hb₁.trans hb₂.symm
      · subst hb₁
        rw [Function.update_self] at h₁
        rw [Function.update_of_ne hb₂] at h₂
        exact (hq a h₁ b₂ h₂).symm
    · rw [Function.update_of_ne hb₁] at h₁
      by_cases hb₂ : b₂ = b
      · subst hb₂
        rw [Function.update_self] at h₂
        exact hq a h₂ b₁ h₁
      · rw [Function.update_of_ne hb₂] at h₂
        exact h.inj a b₁ b₂ h₁ h₂
  sub a b' ha := by
    by_cases hbb : b' = b
    · exact hbb ▸ hb
    · rw [Function.update_of_ne hbb] at ha
      exact h.sub a b' ha

theorem first (h : Queues live next head tail Q) (hb : live b) (ha : ∀ b', a ∉ Q b') (hn : next a = none)
    (hQ : Q b = []) :
    Queues live next (Function.update head b (some a)) (Function.update tail b (some a))
      (Function.update Q b (Q b ++ [a])) := by
  rw [hQ, List.nil_append]
  refine h.set hb ?_ (Function.update_self ..) ?_ (fun _ _ _ _ => rfl)
    (fun b' hbb => Function.update_of_ne hbb _ _) fun b' hbb => Function.update_of_ne hbb _ _
  · rw [Function.update_self]
    exact ⟨rfl, hn⟩
  · intro x hx b' hx'
    rw [List.mem_singleton.1 hx] at hx'
    exact absurd hx' (ha b')

variable [DecidableEq α]

theorem snoc (h : Queues live next head tail Q) (hb : live b) (ha : ∀ b', a ∉ Q b') (hn : next a = none)
    (hc : (Q b).getLast? = some c) :
    Queues live (Function.update next c (some a)) head (Function.update tail b (some a))
      (Function.update Q b (Q b ++ [a])) := by
  have hcb : c ∈ Q b := List.mem_of_getLast? hc
  refine h.set hb ((h.path b hb).snoc hc (ha b) hn) ?_ ?_ ?_ (fun _ _ => rfl)
    fun b' hbb => Function.update_of_ne hbb _ _
  · rw [Function.update_self, List.getLast?_concat]
  · intro x hx b' hx'
    rcases List.mem_append.1 hx with hx | hx
    · exact h.inj x b' b hx' hx
    · rw [List.mem_singleton.1 hx] at hx'
      exact absurd hx' (ha b')
  · intro b' x hbb hx
    refine Function.update_of_ne ?_ _ _
    rintro rfl
    exact hbb (h.inj x b' b hx hcb)

end Queues

end Linked
