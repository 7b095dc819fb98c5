import CoQueue.Shift.Calls

/-!
# Who owns a retired node

A `_pop` hands its old head to `pop_guard`, as an `Owned`. As long as the guard has room that is the end of it:
the guard owns the nodes that `head` has left behind, each of them once, and nothing has been freed. The
first `_pop` that finds the guard full turns its old head into an `Owned` twice. The one that `push` rejects
is dropped with the `if` condition, which frees the node, and the other one goes into the guard behind the
loop that empties it. From then on the first slot always holds a node that has been freed (`Shelf`): the loop
never reads that slot, and only another overflow writes to it.
-/

namespace CoQueue.Shift

open Linked Schedule

section
variable {V : Type} {s t : State V} {m : Mem V} {h : Hist V} {op : Op V} {ops : List (Op V)} {q r : List V}
  {threads : Nat}

structure OwnedOnce (m : Mem V) : Prop where
  /-- No node has been freed twice, -/
  once : m.freed.Nodup
  /-- and what the guard holds is alive and not on the chain any more. -/
  parked : ∃ l, Path m.next (some m.head) l ∧
    ∀ k, k < m.popGuard.len → ∃ a, m.popGuard.slot k = some a ∧ m.live a ∧ a ∉ l

/-- The number of `try_pop`s that find a value, with `q` values in the queue at the start. -/
def taken : Nat → List (Op V) → Nat
  | _, [] => 0
  | q, .push _ :: ops => taken (q + 1) ops
  | 0, .tryPop :: ops => taken 0 ops
  | q + 1, .tryPop :: ops => taken q ops + 1
  | q, .isEmpty :: ops => taken q ops

theorem taken_isEmpty (q : Nat) (ops : List (Op V)) : taken q (.isEmpty :: ops) = taken q ops := by
  cases q <;> rfl

theorem taken_append_le (q : Nat) (l l' : List (Op V)) : taken q l ≤ taken q (l ++ l') := by
  induction l generalizing q with
  | nil => exact Nat.zero_le _
  | cons op l ih =>
    cases op with
    | push v => exact ih (q + 1)
    | isEmpty =>
      rw [List.cons_append, taken_isEmpty, taken_isEmpty]
      exact ih q
    | tryPop =>
      cases q with
      | zero => exact ih 0
      | succ q => exact Nat.succ_le_succ (ih q)

theorem Rest.length (hR : Rest s q) : q.length + s.hist.claims.length = s.hist.linked.length := by
  have hlen := congrArg List.length hR.queue
  have hle := hR.inv.claims.length_le
  simp only [List.length_map, List.length_drop] at hlen
  omega

theorem Served.taken (hs : Served s q ops t r) :
    t.hist.claims.length = s.hist.claims.length + taken q.length ops := by
  induction hs with
  | nil => rfl
  | @cons s t u q q' r op ops hR hd hcap hs ih =>
    have hlen := hR.length
    have hlen' := hs.start.length
    obtain ⟨m, pc, h⟩ := t
    rw [ih]
    cases hd with
    | push v =>
      have hq : q'.length = q.length + 1 := by
        simp only [List.length_append, List.length_singleton] at hlen'
        omega
      rw [Shift.taken, hq]
    | isEmpty =>
      have hq : q'.length = q.length := Nat.add_right_cancel (hlen'.trans hlen.symm)
      rw [taken_isEmpty, hq]
    | none hn =>
      have hq : q'.length = q.length := Nat.add_right_cancel (hlen'.trans hlen.symm)
      rcases hR.next_head with ⟨rfl, -⟩ | ⟨b, v, q'', -, hn', -⟩
      · rw [hq]; rfl
      · rw [hn] at hn'; cases hn'
    | some b v hn hv =>
      rcases hR.next_head with ⟨-, hn'⟩ | ⟨b', v', q'', rfl, -⟩
      · rw [hn] at hn'; cases hn'
      · have hc : (s.hist.claims ++ [b]).length = s.hist.claims.length + 1 := List.length_append
        have hq : q'.length = q''.length := by
          have hlen'' : q'.length + (s.hist.claims ++ [b]).length = s.hist.linked.length := hlen'
          rw [List.length_cons] at hlen
          omega
        show (s.hist.claims ++ [b]).length + _ = _
        rw [List.length_cons, Shift.taken, hq, hc]
        omega

/-! ### The guard along a run -/

/-- The guard holds the nodes that `head` has left behind, or it has overflowed before. -/
def Shelf (m : Mem V) (h : Hist V) : Prop :=
  (h.claims.length ≤ m.popGuard.cap ∧ m.popGuard.len = h.claims.length ∧ m.freed = [] ∧
    ∀ k, k < h.claims.length → m.popGuard.slot k = h.passed[k]?) ∨
  (m.popGuard.cap < h.claims.length ∧ 0 < m.popGuard.len ∧ ∃ a ∈ m.freed, m.popGuard.slot 0 = some a)

theorem shelf_init (threads : Nat) : Shelf (.withThreads threads : Mem V) ⟨[], [], []⟩ :=
  .inl ⟨Nat.zero_le _, rfl, rfl, nofun⟩

theorem Shelf.retire (hs : Shelf s.mem s.hist) (hI : Inv s) {b : Addr} {rets : List (Tid × Ret V)} :
    Shelf ({ s.mem with head := b }.retire s.mem.head) ⟨s.hist.linked, s.hist.claims ++ [b], rets⟩ := by
  by_cases hfull : s.mem.popGuard.len = s.mem.popGuard.cap
  · -- the old head is freed, and ends up in the first slot
    have hle : s.mem.popGuard.cap ≤ s.hist.claims.length := by
      rcases hs with ⟨-, hk, -⟩ | ⟨hlt, -⟩ <;> omega
    refine .inr ?_
    simp only [Mem.retire, hfull, if_true, List.length_append, List.length_singleton]
    exact ⟨Nat.lt_succ_of_le hle, Nat.one_pos, s.mem.head, by simp, by simp⟩
  · simp only [Mem.retire, if_neg hfull, PtrGuard.push, PtrGuard.write, PtrGuard.compareAndSwap, if_true]
    rcases hs with ⟨hle, hk, hfreed, hslot⟩ | ⟨hlt, hpos, a, ha, hslot⟩
    · refine .inl ⟨by simp only [List.length_append, List.length_singleton]; omega, by simp [hk], hfreed,
        fun k hkl => ?_⟩
      have hold : ∀ k, k ≤ s.hist.claims.length → (s.hist.passed ++ [b])[k]? = s.hist.passed[k]? :=
        fun k hk => List.getElem?_append_left (by simp only [Hist.passed, List.length_cons]; omega)
      simp only [List.length_append, List.length_singleton] at hkl
      show Function.update s.mem.popGuard.slot s.mem.popGuard.len (some s.mem.head) k =
        (s.hist.passed ++ [b])[k]?
      rw [hold k (by omega), hk]
      by_cases hkk : k = s.hist.claims.length
      · rw [hkk, Function.update_self, ← hI.passed_eq (Nat.le_refl _), hI.head_eq]
      · rw [Function.update_of_ne hkk]
        exact hslot k (by omega)
    · refine .inr ⟨by simp only [List.length_append, List.length_singleton]; omega, Nat.succ_pos _, a, ha, ?_⟩
      show Function.update s.mem.popGuard.slot s.mem.popGuard.len (some s.mem.head) 0 = some a
      rw [Function.update_of_ne (Nat.ne_of_lt hpos)]
      exact hslot

theorem Served.shelf (hs : Served s q ops t r) (h : Shelf s.mem s.hist) : Shelf t.mem t.hist := by
  induction hs with
  | nil => exact h
  | @cons s t u q q' r op ops hR hd hcap _ ih =>
    refine ih ?_
    obtain ⟨m, pc, hist⟩ := t
    cases hd with
    | push v =>
      rw [Shelf, Mem.alloc_freed s.mem.fresh_notMem]
      exact h
    | isEmpty => exact h
    | none hn => exact h
    | some b v hn hv => exact h.retire hR.inv

/-! ### Owned once -/

theorem Inv.passed_notMem (hI : Inv s) {k : Nat} {a : Addr} (hk : k < s.hist.claims.length)
    (ha : s.hist.passed[k]? = some a) :
    a ∉ s.mem.head :: s.hist.linked.drop s.hist.claims.length := by
  rw [← hI.passed_eq (Nat.le_of_lt hk)] at ha
  intro hmem
  rcases List.mem_cons.1 hmem with rfl | hmem
  · exact Nat.ne_of_lt hk (hI.path.index_inj ha hI.head_eq)
  · obtain ⟨j, hj⟩ := List.mem_iff_getElem?.1 hmem
    rw [List.getElem?_drop] at hj
    have hj' : s.hist.nodes[s.hist.claims.length + j + 1]? = some a := by
      rw [Hist.nodes, List.getElem?_cons_succ]; exact hj
    have := hI.path.index_inj ha hj'
    omega

theorem Shelf.ownedOnce_iff (h : Shelf s.mem s.hist) (hI : Inv s) :
    OwnedOnce s.mem ↔ s.hist.claims.length ≤ s.mem.popGuard.cap := by
  rcases h with ⟨hle, hlen, hfreed, hslot⟩ | ⟨hlt, hpos, a, ha, hslot⟩
  · have hpath : Path s.mem.next (some s.mem.head)
        (s.mem.head :: s.hist.linked.drop s.hist.claims.length) := ⟨rfl, hI.chain⟩
    refine iff_of_true ⟨by rw [hfreed]; exact List.nodup_nil, _, hpath, fun k hk => ?_⟩ hle
    rw [hlen] at hk
    have hkp : k < s.hist.passed.length := by simp only [Hist.passed, List.length_cons]; omega
    have hka := List.getElem?_eq_getElem hkp
    have hmem : s.hist.passed[k] ∈ s.hist.nodes := by
      rw [← hI.passed_eq (Nat.le_of_lt hk)] at hka
      exact List.mem_of_getElem? hka
    exact ⟨s.hist.passed[k], (hslot k hk).trans hka, ⟨hI.born _ hmem, by rw [hfreed]; exact List.not_mem_nil⟩,
      hI.passed_notMem hk hka⟩
  · refine iff_of_false (fun ho => ?_) (Nat.not_le_of_lt hlt)
    obtain ⟨l, -, hl⟩ := ho.parked
    obtain ⟨b, hb, hlive, -⟩ := hl 0 hpos
    obtain rfl := Option.some.inj (hslot.symm.trans hb)
    exact hlive.2 ha

theorem callsBy_ownedOnce_iff (ht : 1 ≤ threads) (l : List (Tid × Op V)) :
    ∃ N, ∀ n, N ≤ n → ∃ s : State V, (State.init threads).callsBy n l = some s ∧
      (OwnedOnce s.mem ↔ taken 0 (l.map Prod.snd) ≤ threads) := by
  obtain ⟨t, r, hs, N, hN⟩ := callsBy_served (l := l) (.inl (Nat.ne_of_gt ht))
  refine ⟨N, fun n hn => ?_⟩
  obtain ⟨s, hcalls, hmem, -⟩ := hN n hn
  refine ⟨s, hcalls, ?_⟩
  rw [← hmem.mem, (hs.shelf (shelf_init threads)).ownedOnce_iff hs.rest.inv, hs.taken, hs.cap]
  simp [State.init, Mem.withThreads, PtrGuard.withThreads]

/-- Retired nodes are owned once in a run exactly when not more than `threads` of its `try_pop`s find a value. -/
theorem owned_once_iff (ht : 1 ≤ threads) (l : List (Tid × Op V)) :
    (∀ pre, pre <+: l → ∃ N, ∀ n, N ≤ n →
      ∃ s : State V, (State.init threads).callsBy n pre = some s ∧ OwnedOnce s.mem) ↔
      taken 0 (l.map Prod.snd) ≤ threads := by
  constructor
  · intro h
    exact (enough_iff (callsBy_ownedOnce_iff ht l)).1 (h l List.prefix_rfl)
  · rintro hle pre ⟨post, rfl⟩
    rw [List.map_append] at hle
    exact (enough_iff (callsBy_ownedOnce_iff ht pre)).2 (Nat.le_trans (taken_append_le _ _ _) hle)

theorem one_pop_owned_once :
    1 ≤ 1 ∧ ∀ pre, pre <+: [(0, Op.push 10), (1, Op.tryPop)] → ∃ N, ∀ n, N ≤ n →
      ∃ s : State Nat, (State.init 1).callsBy n pre = some s ∧ OwnedOnce s.mem :=
  ⟨Nat.le_refl 1, (owned_once_iff (Nat.le_refl 1) _).2 (by decide)⟩

/-- The second `try_pop` of a queue for one thread frees its old head and parks it. -/
theorem overflow_parks_freed :
    ¬∀ (threads : Nat) (l : List (Tid × Op Nat)), 1 ≤ threads → ∀ pre, pre <+: l → ∃ N, ∀ n, N ≤ n →
      ∃ s : State Nat, (State.init threads).callsBy n pre = some s ∧ OwnedOnce s.mem := by
  intro h
  have hone := h 1 [(0, .push 10), (0, .push 20), (1, .tryPop), (1, .tryPop)] (Nat.le_refl 1) _ List.prefix_rfl
  exact absurd ((enough_iff (callsBy_ownedOnce_iff (Nat.le_refl 1) _)).1 hone) (by decide)

end

end CoQueue.Shift
