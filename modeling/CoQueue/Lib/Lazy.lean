import Mathlib.Data.List.Chain
import Mathlib.Data.List.Nodup
import Mathlib.Logic.Function.Basic

/-!
# Queues that are linked backwards late

New nodes are put in front of the queue and know the node behind them (`next`). Taking nodes off the
other end needs `prev` and the last node; both are filled in by a walk from the front, which stops at the
first node that has a `tail`, for from there on an earlier walk has done the work.

`Lazy null c fresh done`: the queue, from the front, is `fresh` (not walked yet) and then `done`. A walk
that started at `head` is in one of three stages: it stands at a node (`Walk`), it has found the last
node (`Found`), or it has noted the last node at `head` (`Settled`). Nodes that are put in front
meanwhile do not disturb it.
-/

namespace Linked

variable {α : Type*} {null : α} {fresh done q : List α} {a b head t : α}

/-- The pointers of every node. -/
structure Cells (α : Type*) where
  next : α → α
  prev : α → α
  tail : α → α

variable {c c' : Cells α}

/-- The two have the same pointers at `a`. -/
def Cells.Same (c c' : Cells α) (a : α) : Prop :=
  c'.next a = c.next a ∧ c'.prev a = c.prev a ∧ c'.tail a = c.tail a

def Cells.Fwd (c : Cells α) (l : List α) : Prop := l.IsChain fun a b => c.next a = b

def Cells.Back (c : Cells α) (l : List α) : Prop := l.IsChain fun a b => c.prev b = a

structure Lazy (null : α) (c : Cells α) (fresh done : List α) : Prop where
  fwd : c.Fwd (fresh ++ done)
  back : c.Back done
  unset : ∀ a ∈ fresh, c.tail a = null
  /-- The first node of `done` knows the last one. -/
  last : ∀ a ∈ done.head?, done.getLast? = some (c.tail a)
  front : ∀ a ∈ (fresh ++ done).head?, c.prev a = null
  nodup : (fresh ++ done).Nodup
  nonnull : ∀ a ∈ fresh ++ done, a ≠ null
  closed : fresh ≠ [] → done ≠ []

theorem Cells.Fwd.congr {l : List α} (h : c.Fwd l) (hc : ∀ a ∈ l, c.Same c' a) : c'.Fwd l :=
  List.IsChain.imp_of_mem_imp (fun _ _ ha _ hab => (hc _ ha).1.trans hab) h

theorem Cells.Back.congr {l : List α} (h : c.Back l) (hc : ∀ a ∈ l, c.Same c' a) : c'.Back l :=
  List.IsChain.imp_of_mem_imp (fun _ _ _ hb hab => (hc _ hb).2.1.trans hab) h

namespace Lazy

theorem nil : Lazy null c [] [] :=
  ⟨.nil, .nil, by simp, by simp, by simp, .nil, by simp, by simp⟩

theorem congr (h : Lazy null c fresh done) (hc : ∀ a ∈ fresh ++ done, c.Same c' a) :
    Lazy null c' fresh done where
  fwd := h.fwd.congr hc
  back := h.back.congr fun a ha => hc a (List.mem_append_right _ ha)
  unset a ha := (hc a (List.mem_append_left _ ha)).2.2.trans (h.unset a ha)
  last a ha := by
    rw [(hc a (List.mem_append_right _ (List.mem_of_mem_head? ha))).2.2]
    exact h.last a ha
  front a ha := (hc a (List.mem_of_mem_head? ha)).2.1.trans (h.front a ha)
  nodup := h.nodup
  nonnull := h.nonnull
  closed := h.closed

theorem single (ha : a ≠ null) (htail : c.tail a = a) (hprev : c.prev a = null) : Lazy null c [] [a] where
  fwd := .singleton _
  back := .singleton _
  unset := by simp
  last b hb := by
    obtain rfl : a = b := by simpa using hb
    rw [htail]
    rfl
  front b hb := by
    obtain rfl : a = b := by simpa using hb
    exact hprev
  nodup := List.nodup_singleton a
  nonnull b hb := by rwa [List.mem_singleton.1 hb]
  closed h := absurd rfl h

theorem push (h : Lazy null c fresh done) (hne : done ≠ []) (ha : a ≠ null) (hnew : a ∉ fresh ++ done)
    (hnext : ∀ b ∈ (fresh ++ done).head?, c.next a = b) (htail : c.tail a = null)
    (hprev : c.prev a = null) : Lazy null c (a :: fresh) done where
  fwd := List.IsChain.cons h.fwd hnext
  back := h.back
  unset b hb := by
    rcases List.mem_cons.1 hb with rfl | hb
    · exact htail
    · exact h.unset b hb
  last := h.last
  front b hb := by
    obtain rfl : a = b := by simpa using hb
    exact hprev
  nodup := List.nodup_cons.2 ⟨hnew, h.nodup⟩
  nonnull b hb := by
    rcases List.mem_cons.1 hb with rfl | hb
    · exact ha
    · exact h.nonnull b hb
  closed _ := hne

theorem ne_nil (h : Lazy null c fresh done) (ha : a ∈ fresh ++ done) : done ≠ [] := by
  rintro rfl
  rw [List.append_nil] at ha
  exact h.closed (List.ne_nil_of_mem ha) rfl

end Lazy

/-! ### The walk -/

/-- The walk from `head` stands at `a`: it has linked the nodes `seen` and `a` backwards. -/
def Walk (null : α) (c : Cells α) (fresh done : List α) (head a : α) : Prop :=
  ∃ newer seen rest, fresh = newer ++ (seen ++ rest) ∧ (rest ++ done).head? = some a ∧
    (seen ++ [a]).head? = some head ∧ c.Back (seen ++ [a]) ∧ c.prev head = null

/-- The walk from `head` has found the last node `t`. -/
def Found (null : α) (c : Cells α) (fresh done : List α) (head t : α) : Prop :=
  ∃ newer seen, fresh = newer ++ seen ∧ (seen ++ done).head? = some head ∧ c.Back (seen ++ done) ∧
    c.prev head = null ∧ done.getLast? = some t

/-- The walk from `head` has noted the last node `t` there. -/
def Settled (null : α) (c : Cells α) (done : List α) (head t : α) : Prop :=
  done.head? = some head ∧ done.getLast? = some t ∧ c.prev head = null

namespace Walk

theorem start (h : Lazy null c fresh done) (hhead : (fresh ++ done).head? = some head) :
    Walk null c fresh done head head :=
  ⟨[], [], fresh, rfl, hhead, rfl, .singleton _, h.front head hhead⟩

theorem mem (h : Walk null c fresh done head a) : a ∈ fresh ++ done := by
  obtain ⟨newer, seen, rest, rfl, ha, -⟩ := h
  have hmem := List.mem_of_mem_head? ha
  simp only [List.append_assoc]
  exact List.mem_append_right _ (List.mem_append_right _ hmem)

theorem congr (h : Walk null c fresh done head a) (hc : ∀ b ∈ fresh ++ done, c.Same c' b) :
    Walk null c' fresh done head a := by
  have ha := hc a h.mem
  obtain ⟨newer, seen, rest, rfl, hrest, hhead, hback, hprev⟩ := h
  have hseen : ∀ b ∈ seen ++ [a], c.Same c' b := by
    intro b hb
    rcases List.mem_append.1 hb with hb | hb
    · exact hc b (by simp [hb])
    · rwa [List.mem_singleton.1 hb]
  refine ⟨newer, seen, rest, rfl, hrest, hhead, hback.congr hseen, ?_⟩
  exact (hseen head (List.mem_of_mem_head? hhead)).2.1.trans hprev

theorem push (h : Walk null c fresh done head a) (b : α) : Walk null c (b :: fresh) done head a := by
  obtain ⟨newer, seen, rest, rfl, h⟩ := h
  exact ⟨b :: newer, seen, rest, rfl, h⟩

/-- At a node that an earlier walk has been to, the rest is linked already. -/
theorem found (hw : Walk null c fresh done head a) (h : Lazy null c fresh done) (ha : c.tail a ≠ null) :
    Found null c fresh done head (c.tail a) := by
  obtain ⟨newer, seen, rest, rfl, hrest, hhead, hback, hprev⟩ := hw
  obtain rfl : rest = [] := by
    cases rest with
    | nil => rfl
    | cons b rest =>
      obtain rfl : b = a := by simpa using hrest
      exact absurd (h.unset b (by simp)) ha
  rw [List.nil_append] at hrest
  obtain ⟨d, rfl⟩ : ∃ d, done = a :: d := List.head?_eq_some_iff.1 hrest
  refine ⟨newer, seen, by rw [List.append_nil], ?_, ?_, hprev, h.last a rfl⟩
  · rw [← hhead]
    cases seen <;> rfl
  · have hchain := List.IsChain.append_overlap hback h.back (List.cons_ne_nil a [])
    rwa [List.append_assoc] at hchain

theorem behind (hw : Walk null c fresh done head a) (h : Lazy null c fresh done) (ha : c.tail a = null) :
    ∃ newer seen rest, fresh = newer ++ (seen ++ a :: rest) ∧ (rest ++ done).head? = some (c.next a) ∧
      (seen ++ [a]).head? = some head ∧ c.Back (seen ++ [a]) ∧ c.prev head = null := by
  obtain ⟨newer, seen, rest, rfl, hrest, hhead, hback, hprev⟩ := hw
  obtain ⟨rest, rfl⟩ : ∃ r, rest = a :: r := by
    cases rest with
    | nil =>
      have hlast := List.mem_of_getLast? (h.last a hrest)
      exact absurd ha (h.nonnull _ (List.mem_append_right _ hlast))
    | cons b rest => exact ⟨rest, by rw [show b = a by simpa using hrest]⟩
  obtain ⟨b, hb⟩ : ∃ b, (rest ++ done).head? = some b := by
    have hne : rest ++ done ≠ [] := fun hnil => h.closed (by simp) (List.append_eq_nil_iff.1 hnil).2
    exact ⟨_, List.head?_eq_some_head hne⟩
  have hfwd := h.fwd
  rw [show newer ++ (seen ++ a :: rest) ++ done = (newer ++ seen) ++ a :: (rest ++ done) by simp] at hfwd
  have hnext : c.next a = b := List.IsChain.rel_head? hfwd.right_of_append hb
  exact ⟨newer, seen, rest, rfl, hb.trans (congrArg some hnext.symm), hhead, hback, hprev⟩

section
variable [DecidableEq α]

theorem next_idxOf (hw : Walk null c fresh done head a) (h : Lazy null c fresh done) (ha : c.tail a = null) :
    (fresh ++ done).idxOf (c.next a) = (fresh ++ done).idxOf a + 1 := by
  obtain ⟨newer, seen, rest, rfl, hb, -⟩ := hw.behind h ha
  obtain ⟨r, hr⟩ := List.head?_eq_some_iff.1 hb
  have hq : newer ++ (seen ++ a :: rest) ++ done = (newer ++ seen) ++ a :: c.next a :: r := by
    rw [← hr]
    simp
  have hnd := h.nodup
  rw [hq] at hnd ⊢
  have hsep := (List.nodup_append.1 hnd).2.2
  have hne : a ≠ c.next a := by
    have := (List.nodup_cons.1 hnd.of_append_right).1
    exact fun heq => this (heq ▸ List.mem_cons_self)
  rw [List.idxOf_append_of_notMem fun hm => hsep a hm a (by simp) rfl,
    List.idxOf_append_of_notMem fun hm => hsep (c.next a) hm (c.next a) (by simp) rfl,
    List.idxOf_cons_self, List.idxOf_cons_ne _ hne, List.idxOf_cons_self]

theorem next (hw : Walk null c fresh done head a) (h : Lazy null c fresh done) (ha : c.tail a = null) :
    c.next a ∈ fresh ++ done ∧
      Lazy null { c with prev := Function.update c.prev (c.next a) a } fresh done ∧
      Walk null { c with prev := Function.update c.prev (c.next a) a } fresh done head (c.next a) := by
  obtain ⟨newer, seen, rest, rfl, hb, hhead, hback, hprev⟩ := hw.behind h ha
  have hq : newer ++ (seen ++ a :: rest) ++ done = (newer ++ seen) ++ a :: (rest ++ done) := by simp
  generalize c.next a = b at hb
  have hnd := h.nodup
  rw [hq] at hnd
  have hbmem : b ∈ rest ++ done := List.mem_of_mem_head? hb
  have hsep : ∀ x ∈ (newer ++ seen) ++ [a], x ≠ b := by
    rintro x hx rfl
    rw [← List.singleton_append, ← List.append_assoc] at hnd
    exact (List.nodup_append.1 hnd).2.2 x hx x hbmem rfl
  have hseen : ∀ x ∈ seen ++ [a], x ≠ b := fun x hx => hsep x (by
    rw [List.append_assoc]
    exact List.mem_append_right _ hx)
  have hheadne : head ≠ b := hseen head (List.mem_of_mem_head? hhead)
  refine ⟨?_, ⟨h.fwd, ?_, h.unset, h.last, ?_, h.nodup, h.nonnull, h.closed⟩, ?_⟩
  · rw [hq]
    exact List.mem_append_right _ (List.mem_cons_of_mem _ hbmem)
  · -- `b` is not a node of `done` behind the first one
    refine List.IsChain.imp_of_mem_tail_imp (fun x y _ hy hxy => ?_) h.back
    have hyb : y ≠ b := by
      rintro rfl
      have hrd : (rest ++ done).Nodup := (List.nodup_cons.1 hnd.of_append_right).2
      cases rest with
      | nil =>
        cases done with
        | nil => cases hy
        | cons z done =>
          obtain rfl : z = y := by simpa using hb
          exact (List.nodup_cons.1 hrd).1 hy
      | cons z rest =>
        obtain rfl : z = y := by simpa using hb
        exact (List.nodup_cons.1 hrd).1 (List.mem_append_right _ (List.mem_of_mem_tail hy))
    exact (Function.update_of_ne hyb _ _).trans hxy
  · intro x hx
    have hxb : x ≠ b := by
      rw [hq] at hx
      refine hsep x ?_
      cases hns : newer ++ seen with
      | nil =>
        rw [hns] at hx
        obtain rfl : a = x := by simpa using hx
        simp
      | cons y l =>
        rw [hns] at hx
        obtain rfl : y = x := by simpa using hx
        simp
    exact (Function.update_of_ne hxb _ _).trans (h.front x hx)
  · refine ⟨newer, seen ++ [a], rest, by simp, hb, ?_, ?_, ?_⟩
    · rw [← hhead]
      cases seen <;> rfl
    · refine List.IsChain.append (List.IsChain.imp_of_mem_imp (fun x y _ hy hxy => ?_) hback)
        (.singleton _) ?_
      · exact (Function.update_of_ne (hseen y hy) _ _).trans hxy
      · intro x hx y hy
        obtain rfl : a = x := by simpa using hx
        obtain rfl : b = y := by simpa using hy
        exact Function.update_self _ _ _
    · exact (Function.update_of_ne hheadne _ _).trans hprev

end

end Walk

namespace Found

theorem congr (h : Found null c fresh done head t) (hc : ∀ b ∈ fresh ++ done, c.Same c' b) :
    Found null c' fresh done head t := by
  obtain ⟨newer, seen, rfl, hhead, hback, hprev, hlast⟩ := h
  have hseen : ∀ b ∈ seen ++ done, c.Same c' b := fun b hb => hc b (by
    rw [List.append_assoc]
    exact List.mem_append_right _ hb)
  refine ⟨newer, seen, rfl, hhead, hback.congr hseen, ?_, hlast⟩
  exact (hseen head (List.mem_of_mem_head? hhead)).2.1.trans hprev

theorem push (h : Found null c fresh done head t) (b : α) : Found null c (b :: fresh) done head t := by
  obtain ⟨newer, seen, rfl, h⟩ := h
  exact ⟨b :: newer, seen, rfl, h⟩

theorem head_mem (h : Found null c fresh done head t) : head ∈ fresh ++ done := by
  obtain ⟨newer, seen, rfl, hhead, -⟩ := h
  rw [List.append_assoc]
  exact List.mem_append_right _ (List.mem_of_mem_head? hhead)

theorem set [DecidableEq α] (hf : Found null c fresh done head t) (h : Lazy null c fresh done) :
    ∃ fresh' done', fresh' ++ done' = fresh ++ done ∧
      Lazy null { c with tail := Function.update c.tail head t } fresh' done' ∧
      Settled null { c with tail := Function.update c.tail head t } done' head t := by
  obtain ⟨newer, seen, rfl, hhead, hback, hprev, hlast⟩ := hf
  have hq : newer ++ (seen ++ done) = newer ++ seen ++ done := (List.append_assoc ..).symm
  have hdone : seen ++ done ≠ [] := List.ne_nil_of_mem (List.mem_of_mem_head? hhead)
  have hlast' : (seen ++ done).getLast? = some t := by
    rw [List.getLast?_append_of_ne_nil _ (List.ne_nil_of_mem (List.mem_of_getLast? hlast))]
    exact hlast
  refine ⟨newer, seen ++ done, hq, ⟨?_, hback, fun x hx => ?_, fun x hx => ?_, ?_, ?_, ?_, fun _ => hdone⟩,
    hhead, hlast', hprev⟩
  · rw [hq]
    exact h.fwd
  · have hne : x ≠ head := by
      rintro rfl
      have hnd := h.nodup
      rw [← hq] at hnd
      exact (List.nodup_append.1 hnd).2.2 x hx x (List.mem_of_mem_head? hhead) rfl
    exact (Function.update_of_ne hne _ _).trans (h.unset x (List.mem_append_left _ hx))
  · obtain rfl : head = x := Option.some.inj (hhead.symm.trans hx)
    exact hlast'.trans (congrArg some (Function.update_self head t c.tail).symm)
  · rw [hq]
    exact h.front
  · rw [hq]
    exact h.nodup
  · rw [hq]
    exact h.nonnull

end Found

namespace Settled

theorem congr (h : Settled null c done head t) (hc : ∀ b ∈ done, c.Same c' b) :
    Settled null c' done head t :=
  ⟨h.1, h.2.1, (hc head (List.mem_of_mem_head? h.1)).2.1.trans h.2.2⟩

theorem last_mem (h : Settled null c done head t) : t ∈ done := List.mem_of_getLast? h.2.1

theorem eq_singleton (hs : Settled null c done head t) (h : Lazy null c fresh done)
    (ht : c.prev t = null) : done = [t] := by
  obtain ⟨d, rfl⟩ := List.getLast?_eq_some_iff.1 hs.2.1
  rcases List.eq_nil_or_concat d with rfl | ⟨d, n, rfl⟩
  · rfl
  · have hback := h.back
    rw [List.concat_eq_append, List.append_assoc] at hback
    have hn : c.prev t = n := List.IsChain.rel_head? hback.right_of_append rfl
    exact absurd (hn.symm.trans ht) (h.nonnull n (by simp))

theorem eq_append (hs : Settled null c done head t) (h : Lazy null c fresh done) (ht : c.prev t ≠ null) :
    ∃ d, done = d ++ [c.prev t, t] := by
  obtain ⟨d, rfl⟩ := List.getLast?_eq_some_iff.1 hs.2.1
  rcases List.eq_nil_or_concat d with rfl | ⟨d, n, rfl⟩
  · obtain rfl : t = head := by simpa using hs.1
    exact absurd hs.2.2 ht
  · have hback := h.back
    rw [List.concat_eq_append, List.append_assoc] at hback
    have hn : c.prev t = n := List.IsChain.rel_head? hback.right_of_append rfl
    exact ⟨d, by rw [hn, List.concat_eq_append, List.append_assoc]; rfl⟩

/-- The last node is taken off: the one before it is noted at `head` in its place. -/
theorem cut [DecidableEq α] (hs : Settled null c done head t) (h : Lazy null c fresh done)
    (ht : c.prev t ≠ null) :
    ∃ d, done = d ++ [t] ∧ d ≠ [] ∧ t ∉ fresh ++ d ∧
      Lazy null { c with tail := Function.update c.tail head (c.prev t) } fresh d := by
  obtain ⟨d, rfl⟩ := hs.eq_append h ht
  have hq : fresh ++ (d ++ [c.prev t, t]) = fresh ++ (d ++ [c.prev t]) ++ [t] := by simp
  have hhead : (d ++ [c.prev t]).head? = some head := by
    rw [← hs.1]
    cases d <;> rfl
  have hnd := h.nodup
  rw [hq] at hnd
  refine ⟨d ++ [c.prev t], by simp, by simp, fun hmem => ?_, ?_⟩
  · exact (List.nodup_append.1 hnd).2.2 t hmem t (List.mem_singleton_self t) rfl
  · refine ⟨?_, ?_, fun x hx => ?_, fun x hx => ?_, fun x hx => h.front x ?_, hnd.of_append_left,
      fun x hx => h.nonnull x ?_, fun _ => by simp⟩
    · have hfwd := h.fwd
      rw [hq] at hfwd
      exact List.IsChain.left_of_append hfwd
    · have hback := h.back
      rw [show d ++ [c.prev t, t] = d ++ [c.prev t] ++ [t] by simp] at hback
      exact List.IsChain.left_of_append hback
    · have hne : x ≠ head := by
        rintro rfl
        exact (List.nodup_append.1 h.nodup).2.2 x hx x (List.mem_of_mem_head? hs.1) rfl
      exact (Function.update_of_ne hne _ _).trans (h.unset x hx)
    · obtain rfl : head = x := Option.some.inj (hhead.symm.trans hx)
      exact List.getLast?_concat.trans (congrArg some (Function.update_self head (c.prev t) c.tail).symm)
    · rw [hq]
      exact List.mem_head?_append_of_mem_head? hx
    · rw [hq]
      exact List.mem_append_left _ hx

end Settled

end Linked
