import CoQueue.Shift.Conserve

/-!
# One push at a time: a linearizable FIFO queue

When a push is called only while no other push is in progress (`alone`), and no address is used again,
a push never meets the windows that `orderly` rules out: the tail it loads is the last node of the
chain and stays so until it links its own (`Sole`). Every such run is therefore orderly, and the chain
invariant gives the order of the queue: the `k`-th successful `compare_set` on `head` claims the `k`-th
node linked.

What a `try_pop` claims it also returns, unless the `assert!` of its overflow branch fires: between
draining `pop_guard` and pushing to it other consumers may fill it again.
-/

namespace CoQueue.Shift

open Linked Schedule

section
variable {V : Type} {s : State V} {i : Tid} {threads : Nat}

/-- A push is called only when no push is in progress. -/
def alone (s : State V) : Act V → Prop
  | .push _ _ _ => ∀ j, (s.pc j).pushing = false
  | _ => True

/-- The program point behind `pc` in a push that meets nobody: one `_push`, then the return. -/
def Pc.straight (tail : Addr) : Pc → Pc
  | .loadTail new => .loadNext new tail
  | .loadNext new t => .isEmpty new t
  | .isEmpty new t => .recheck new t
  | .recheck new t => .link new t
  | .link new t => .swing new t
  | _ => .idle

def Pc.common : Pc → Bool
  | .loadTail _ | .loadNext _ _ | .isEmpty _ _ | .recheck _ _ | .link _ _ | .swing _ _ => true
  | _ => false

/-- The values returned by `try_pop`, in the order of the successful `compare_set`s on `head`. -/
def Hist.returnedInOrder (h : Hist V) : List V := h.claims.filterMap fun a => h.popped.lookup a

/-! ### At most one push -/

structure Sole (s : State V) : Prop where
  one : ∀ i j, (s.pc i).pushing = true → (s.pc j).pushing = true → i = j
  tail : ∀ i t, (s.pc i).tail = some t → t = s.mem.tail
  common : ∀ i, (s.pc i).pushing = true → (s.pc i).common = true

theorem Pc.pushing_of_tail {pc : Pc} {t : Addr} (h : pc.tail = some t) : pc.pushing = true := by
  cases pc <;> first | rfl | cases h

theorem Sole.next_tail {t : Addr} (hS : Sole s) (hI : Inv s) (ht : (s.pc i).tail = some t) :
    s.mem.next t = none := by
  have hno : ∀ j a u, s.pc j ≠ .swing a u := by
    intro j a u hj
    obtain rfl := hS.one i j (Pc.pushing_of_tail ht) (by rw [hj]; rfl)
    rw [hj] at ht; cases ht
  rw [hS.tail i t ht]
  exact hI.next_tail hno

theorem Sole.orderly (hS : Sole s) (hI : Inv s) (a : Act V) : orderly s a = true := by
  cases a with
  | run i =>
    simp only [Shift.orderly]
    split
    · exact Option.isNone_iff_eq_none.2 (hS.next_tail hI (i := i) (by simp [*, Pc.tail]))
    · exact Option.isNone_iff_eq_none.2 (hS.next_tail hI (i := i) (by simp [*, Pc.tail]))
    · rfl
  | _ => rfl

theorem Sole.push_step (hS : Sole s) (hI : Inv s) (hp : (s.pc i).pushing = true) :
    ∃ m e, stepPc s.mem (s.pc i) = some (m, (s.pc i).straight s.mem.tail, e) ∧
      ((∃ a t, s.pc i = .swing a t ∧ e = .returned (.push a)) ∨
        ((s.pc i).straight s.mem.tail).pushing = true ∧ m.tail = s.mem.tail) := by
  have hc := hS.common i hp
  have hn : ∀ t, (s.pc i).tail = some t → s.mem.next t = none := fun t ht => hS.next_tail hI ht
  cases hpc : s.pc i <;> rw [hpc] at hc hn <;> simp only [Pc.common, reduceCtorEq] at hc
  case loadTail a => exact ⟨_, _, rfl, .inr ⟨rfl, rfl⟩⟩
  case loadNext a t => exact ⟨_, _, by simp only [stepPc, hn t rfl]; rfl, .inr ⟨rfl, rfl⟩⟩
  case isEmpty a t =>
    exact ⟨_, _, by simp only [stepPc, PtrGuard.isEmpty, hI.guard]; rfl, .inr ⟨rfl, rfl⟩⟩
  case recheck a t => exact ⟨_, _, by simp only [stepPc, hn t rfl]; rfl, .inr ⟨rfl, rfl⟩⟩
  case link a t =>
    have hs : stepPc s.mem (.link a t) =
        some ({ s.mem with next := Function.update s.mem.next t (some a) }, .swing a t, .linked a) := by
      simp only [stepPc, hn t rfl]
    exact ⟨_, _, hs, .inr ⟨rfl, rfl⟩⟩
  case swing a t =>
    have hs : stepPc s.mem (.swing a t) =
        some ({ s.mem with tail := a }, .idle, .returned (.push a)) := by
      simp only [stepPc, if_pos (hI.swing i a t hpc).1.symm]
    exact ⟨_, _, hs, .inl ⟨a, t, rfl, rfl⟩⟩

theorem stepPc_of_not_pushing {m : Mem V} {pc : Pc} {r : Mem V × Pc × Event V}
    (hp : pc.pushing = false) (hs : stepPc m pc = some r) :
    r.2.1.pushing = false ∧ r.1.tail = m.tail := by
  cases pc <;> simp only [Pc.pushing, Pc.new, Option.isSome, reduceCtorEq] at hp <;>
    simp only [stepPc] at hs
  all_goals
    first
    | cases hs; exact ⟨rfl, rfl⟩
    | split at hs <;> cases hs <;> exact ⟨rfl, rfl⟩
    | cases hs

theorem Sole.put {r : Mem V × Pc × Event V} (hS : Sole s) (hI : Inv s)
    (hs : stepPc s.mem (s.pc i) = some r) : Sole (s.put i r) := by
  by_cases hp : (s.pc i).pushing = true
  · obtain ⟨m, e, hr, hcase⟩ := hS.push_step hI hp
    obtain rfl : r = (m, (s.pc i).straight s.mem.tail, e) := Option.some.inj (hs.symm.trans hr)
    -- nobody else is inside `push`
    have hpush : ∀ j, (Function.update s.pc i ((s.pc i).straight s.mem.tail) j).pushing = true →
        j = i := fun j hj =>
      (at_update (P := fun q : Pc => q.pushing = true) hj).elim And.left
        fun h => hS.one j i h.2 hp
    refine ⟨fun j k hj hk => (hpush j hj).trans (hpush k hk).symm, fun j t ht => ?_, fun j hj => ?_⟩
    · obtain rfl := hpush j (Pc.pushing_of_tail ht)
      have hc := hS.common j hp
      have htail := hS.tail j
      simp only [State.put, Function.update_self] at ht ⊢
      rcases hcase with ⟨a, u, hsw, -⟩ | ⟨-, hm⟩
      · rw [hsw] at ht; cases ht
      · rw [hm]
        cases hpc : s.pc j <;> rw [hpc] at ht hc htail <;> simp only [Pc.common, reduceCtorEq] at hc
          <;> simp only [Pc.straight, Pc.tail, Option.some.injEq, reduceCtorEq] at ht
        · exact ht.symm
        all_goals exact htail t (by simp [Pc.tail, ht])
    · obtain rfl := hpush j hj
      have hc := hS.common j hp
      simp only [State.put, Function.update_self] at hj ⊢
      cases hpc : s.pc j <;> rw [hpc] at hj hc <;> first | rfl | cases hj
  · have hp' : (s.pc i).pushing = false := by simpa using hp
    obtain ⟨hr, htail⟩ := stepPc_of_not_pushing hp' hs
    have hpush : ∀ j, (Function.update s.pc i r.2.1 j).pushing = true →
        j ≠ i ∧ (s.pc j).pushing = true := fun j hj =>
      (at_update (P := fun q : Pc => q.pushing = true) hj).elim
        (fun h => absurd h.2 (by rw [hr]; exact Bool.false_ne_true)) id
    refine ⟨fun j k hj hk => hS.one j k (hpush j hj).2 (hpush k hk).2, fun j t ht => ?_,
      fun j hj => ?_⟩
    · obtain ⟨hji, -⟩ := hpush j (Pc.pushing_of_tail ht)
      simp only [State.put, Function.update_of_ne hji] at ht
      exact (hS.tail j t ht).trans htail.symm
    · obtain ⟨hji, hj'⟩ := hpush j hj
      simp only [State.put, Function.update_of_ne hji]
      exact hS.common j hj'

theorem Sole.enter {pc : Pc} (hS : Sole s) (hpc : pc.pushing = false) :
    Sole { s with pc := Function.update s.pc i pc } := by
  have hpush : ∀ j, (Function.update s.pc i pc j).pushing = true → j ≠ i ∧ (s.pc j).pushing = true := by
    intro j hj
    rcases at_update (P := fun q : Pc => q.pushing = true) hj with ⟨-, h⟩ | h
    · rw [hpc] at h; cases h
    · exact h
  refine ⟨fun j k hj hk => hS.one j k (hpush j hj).2 (hpush k hk).2, fun j t ht => ?_, fun j hj => ?_⟩
  · obtain ⟨hji, -⟩ := hpush j (Pc.pushing_of_tail ht)
    exact hS.tail j t (by simpa [Function.update_of_ne hji] using ht)
  · obtain ⟨hji, h⟩ := hpush j hj
    simpa [Function.update_of_ne hji] using hS.common j h

theorem Sole.step {a : Act V} {s' : State V} (hS : Sole s) (hI : Inv s) (ha : alone s a)
    (hs : step s a = some s') : Sole s' := by
  cases a with
  | run i =>
    obtain ⟨r, hr, rfl⟩ := step_run hs
    exact hS.put hI hr
  | push i val b =>
    obtain ⟨-, rfl⟩ := step_push hs
    have hpush : ∀ j, (Function.update s.pc i (.loadTail b) j).pushing = true → j = i :=
      fun j hj => (at_update (P := fun q : Pc => q.pushing = true) hj).elim And.left
        fun h => absurd h.2 (by rw [ha j]; exact Bool.false_ne_true)
    refine ⟨fun j k hj hk => (hpush j hj).trans (hpush k hk).symm, fun j t ht => ?_, fun j hj => ?_⟩
    · obtain rfl := hpush j (Pc.pushing_of_tail ht)
      simp [Pc.tail] at ht
    · obtain rfl := hpush j hj
      simp [Pc.common]
  | tryPop i | isEmpty i =>
    obtain ⟨-, rfl⟩ := enter_eq hs
    exact hS.enter rfl
  | print i =>
    obtain ⟨-, rfl⟩ := step_print hs
    exact { hS with }

theorem sole_init (threads : Nat) : Sole (State.init (V := V) threads) where
  one _ _ h := nomatch h
  tail _ _ h := nomatch h
  common _ h := nomatch h

/-! ### The queue is a FIFO queue -/

structure Fifo (s : State V) : Prop where
  /-- The `k`-th successful `compare_set` on `head` claims the `k`-th node linked. -/
  order : s.hist.claims <+: s.hist.linked
  /-- A claimed value is returned, and only once, or is about to be returned by its claimant. -/
  value : ∀ a ∈ s.hist.claims, (∃ v, s.mem.data a = some v ∧ s.hist.popped.lookup a = some v) ∨
    ∃ i, (s.pc i).taking = some a
  once : (s.hist.popped.map Prod.fst).Nodup
  /-- While no `try_pop` is between its claim and its return, what was returned is a prefix of what
  was pushed. -/
  values : (∀ i, (s.pc i).taking = none) →
    s.hist.returnedInOrder <+: s.hist.linked.filterMap s.mem.data
  /-- A call about to answer that the queue is empty is right. -/
  empty : ∀ i r, stepPc s.mem (s.pc i) = some r →
    r.2.2 = .returned (.tryPop none) ∨ r.2.2 = .returned (.isEmpty true) →
    s.hist.claims = s.hist.linked
  /-- A push goes through `_push` once, without waiting and without a failing `compare_set`. -/
  push : ∀ i, (s.pc i).pushing = true → ∃ m e,
    stepPc s.mem (s.pc i) = some (m, (s.pc i).straight s.mem.tail, e)

theorem Inv.claims_of_next {a : Addr} (hI : Inv s) (ha : a ∈ s.hist.passed)
    (hn : s.mem.next a = none) : s.hist.claims = s.hist.linked := by
  obtain ⟨rest, hrest⟩ := hI.claims
  have hnodes : s.hist.nodes = s.hist.passed ++ rest := by
    rw [Hist.nodes, ← hrest]; rfl
  have hpath : Path s.mem.next (some 0) (s.hist.passed ++ rest) := hnodes ▸ hI.path
  have hlast := hpath.getLast?_of_next (List.mem_append_left _ ha) hn
  rcases List.eq_nil_or_concat rest with rfl | ⟨l, b, rfl⟩
  · rw [← hrest, List.append_nil]
  · -- the last node would be both claimed and not
    have hba : b = a := by
      rw [List.concat_eq_append, ← List.append_assoc, List.getLast?_concat] at hlast
      exact Option.some.inj hlast
    subst b
    have hdis := (List.nodup_append.1 hpath.nodup).2.2
    exact absurd rfl (hdis a ha a (by simp))

theorem Inv.empty {r : Mem V × Pc × Event V} (hI : Inv s) (hs : stepPc s.mem (s.pc i) = some r)
    (hr : r.2.2 = .returned (.tryPop none) ∨ r.2.2 = .returned (.isEmpty true)) :
    s.hist.claims = s.hist.linked := by
  have hok := hI.ok i
  cases hpc : s.pc i <;> rw [hpc] at hs hok <;> simp only [stepPc] at hs
  case headNext a =>
    refine hI.claims_of_next hok ?_
    split at hs
    · assumption
    · cases hs; simp at hr
  case emptyNext a =>
    refine hI.claims_of_next hok ?_
    cases hs
    simpa using hr
  all_goals
    first
    | cases hs; simp at hr
    | split at hs <;> cases hs <;> simp at hr
    | cases hs

theorem lookup_of_mem {l : List (Addr × V)} {p : Addr × V} (hl : (l.map Prod.fst).Nodup)
    (hp : p ∈ l) : l.lookup p.1 = some p.2 := by
  induction l with
  | nil => cases hp
  | cons q l ih =>
    rw [List.map_cons, List.nodup_cons] at hl
    rw [List.lookup_cons]
    rcases List.mem_cons.1 hp with rfl | hp'
    · simp
    · have hne : p.1 ≠ q.1 := fun h => hl.1 (h ▸ List.mem_map_of_mem hp')
      rw [beq_false_of_ne hne]
      exact ih hl.2 hp'

theorem Kept.value {a : Addr} (hI : Inv s) (hk : Kept s) (ha : a ∈ s.hist.claims) :
    (∃ v, s.mem.data a = some v ∧ s.hist.popped.lookup a = some v) ∨ ∃ i, (s.pc i).taking = some a := by
  refine (hk a ha).imp_left fun h => ?_
  obtain ⟨p, hp, rfl⟩ := List.mem_map.1 h
  exact ⟨p.2, (hI.popped p hp).2, lookup_of_mem hI.popped_nodup hp⟩

theorem Kept.values (hI : Inv s) (hk : Kept s) (hno : ∀ i, (s.pc i).taking = none) :
    s.hist.returnedInOrder <+: s.hist.linked.filterMap s.mem.data := by
  have hall : s.hist.returnedInOrder = s.hist.claims.filterMap s.mem.data := by
    refine List.filterMap_congr fun a ha => ?_
    rcases hk.value hI ha with ⟨v, hv, hl⟩ | ⟨i, hi⟩
    · exact hl.trans hv.symm
    · rw [hno i] at hi; cases hi
  rw [hall]
  exact hI.claims.filterMap s.mem.data

/-- Over the invariants of pushes that do not overlap, any other one has to be checked step by step only. -/
theorem holds_of_alone {C : State V → Act V → Prop} {P : State V → Prop}
    (hC : ∀ s a, C s a → alone s a ∧ unused s a = true)
    (h : Run step C (.init threads) s) (h₀ : P (.init threads))
    (hP : ∀ {t a u}, Inv t → P t → C t a → step t a = some u → P u) : Inv s ∧ Sole s ∧ P s := by
  refine h.invariant (P := fun s => Inv s ∧ Sole s ∧ P s) ⟨inv_init threads, sole_init threads, h₀⟩ ?_
  intro t a u ⟨hI, hS, hp⟩ ha hs
  obtain ⟨halone, hu⟩ := hC t a ha
  exact ⟨hI.step (hS.orderly hI a) hu hs, hS.step hI halone hs, hP hI hp ha hs⟩

/-- Without overlapping pushes the queue is a linearizable FIFO queue, as long as no overflowing
`_pop` fails its `assert!`. -/
theorem fifo_of_alone (h : Run step (fun s a => alone s a ∧ unused s a = true ∧ refills s a = true)
    (.init threads : State V) s) : Fifo s := by
  obtain ⟨hI, hS, hk⟩ : Inv s ∧ Sole s ∧ Kept s :=
    holds_of_alone (fun _ _ ha => ⟨ha.1, ha.2.1⟩) h nofun fun hI hk ha hs => hk.step hI ha.2.2 hs
  refine ⟨hI.claims, fun a ha => hk.value hI ha, hI.popped_nodup, hk.values hI,
    fun i r hs hr => hI.empty hs hr, fun i hp => ?_⟩
  obtain ⟨m, e, hs, -⟩ := hS.push_step hI hp
  exact ⟨m, e, hs⟩

/-! ### Schedules of the first `n` threads -/

/-- `alone`, checked on the threads below `n`, which are the only ones to move. -/
def aloneAmong (n : Nat) (s : State V) (a : Act V) : Bool :=
  decide (a.tid < n) && match a with
    | .push _ _ _ => (List.range n).all fun j => !(s.pc j).pushing
    | _ => true

theorem aloneAmong_iff {n : Nat} {a : Act V} : aloneAmong n s a = true ↔
    a.tid < n ∧ ∀ i val b, a = .push i val b → ∀ j < n, (s.pc j).pushing = false := by
  cases a <;> simp [aloneAmong]

theorem run_alone_of_among {n : Nat} {C : State V → Act V → Prop}
    (h : Run step (fun s a => aloneAmong n s a = true ∧ C s a) (.init threads) s) :
    Run step (fun s a => alone s a ∧ C s a) (.init threads) s := by
  refine h.under (P := fun s => ∀ j, n ≤ j → s.pc j = .idle) (fun _ _ => rfl) ?_ ?_
  · intro t a u ht ha hs j hj
    have hlt := (aloneAmong_iff.1 ha.1).1
    rw [step_pc_of_ne hs (Nat.ne_of_lt (Nat.lt_of_lt_of_le hlt hj))]
    exact ht j hj
  · intro t a u ht ha _
    refine ⟨?_, ha.2⟩
    cases a with
    | push i val b =>
      intro j
      by_cases hj : j < n
      · exact (aloneAmong_iff.1 ha.1).2 i val b rfl j hj
      · rw [ht j (Nat.le_of_not_lt hj)]; rfl
    | _ => trivial

/-- Three pushes by thread 0, a pop by thread 1, and a second pop of thread 1 up to the `assert!` of
its overflow branch, in a queue for one thread. -/
def overflowSchedule : List (Act Nat) :=
  Act.push 0 10 1 :: List.replicate 6 (Act.run 0) ++ Act.push 0 20 2 :: List.replicate 6 (Act.run 0) ++
    Act.push 0 30 3 :: List.replicate 6 (Act.run 0) ++ Act.tryPop 1 :: List.replicate 7 (Act.run 1) ++
    Act.tryPop 1 :: List.replicate 9 (Act.run 1)

theorem overflow_fifo :
    ∃ s, Run step (fun s a => alone s a ∧ unused s a = true ∧ refills s a = true)
        (.init 1 : State Nat) s ∧
      s.hist.claims = [1, 2] ∧ s.hist.popped = [(1, 10), (2, 20)] ∧ Fifo s := by
  have hexec : (exec step
      (fun s a => aloneAmong 2 s a = true ∧ unused s a = true ∧ refills s a = true) (.init 1)
      (overflowSchedule ++ List.replicate 5 (Act.run 1))).map
      (fun s => (s.hist.claims, s.hist.popped)) = some ([1, 2], [(1, 10), (2, 20)]) := by rfl
  obtain ⟨s, hrun, hs⟩ := Run.of_exec_map hexec
  rw [Prod.mk.injEq] at hs
  exact ⟨s, run_alone_of_among hrun, hs.1, hs.2, fifo_of_alone (run_alone_of_among hrun)⟩

/-- Without the condition on the `assert!` a value is skipped: thread 2 pops in between and fills
`pop_guard` again, and thread 1 panics with the value 20 it has claimed. -/
theorem overflow_skips_value :
    ¬ ∀ (threads : Nat) (s : State Nat),
      Run step (fun s a => alone s a ∧ unused s a = true) (.init threads) s →
      (∀ i, (s.pc i).taking = none) →
      s.hist.returnedInOrder <+: s.hist.linked.filterMap s.mem.data := by
  intro h
  have hexec : (exec step (fun s a => aloneAmong 3 s a = true ∧ unused s a = true) (.init 1)
      (overflowSchedule ++ Act.tryPop 2 :: List.replicate 7 (Act.run 2) ++ [Act.run 1])).map
      (fun s => (s.pc 0, s.pc 1, s.pc 2, s.hist.returnedInOrder, s.hist.linked.filterMap s.mem.data)) =
      some (.idle, .panicked .refill, .idle, [10, 30], [10, 20, 30]) := by rfl
  obtain ⟨s, hrun, hobs⟩ := Run.of_exec_map hexec
  simp only [Prod.mk.injEq] at hobs
  obtain ⟨h0, h1, h2, hret, hval⟩ := hobs
  have hno : ∀ i, (s.pc i).taking = none := by
    intro i
    match i with
    | 0 => rw [h0]; rfl
    | 1 => rw [h1]; rfl
    | 2 => rw [h2]; rfl
    | i + 3 =>
      rw [idle_of_bounded (fun _ _ h => (aloneAmong_iff.1 h.1).1) hrun (Nat.le_add_left 3 i)]
      rfl
  have hpre := h 1 s (run_alone_of_among hrun) hno
  rw [hret, hval] at hpre
  revert hpre
  decide

end

end CoQueue.Shift
