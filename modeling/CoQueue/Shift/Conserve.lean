import CoQueue.Shift.Invariant

/-!
# No value is lost or doubled in an orderly run

Two consequences of the chain invariant. The panics of `push` are out of reach in an orderly run,
and, if the `assert!` behind the overflow branch of `_pop` does not fire either, every value whose
push has returned is in exactly one place (`Conserved`): on the chain behind `head`, with the one
`try_pop` that has claimed it, or returned.

Both fail for runs that are not orderly, by the same schedule: a push that finds `tail.next` set
moves `tail` to its own node, which nobody ever links, and the push it meant to help finds `tail`
moved and panics. The first also fails if an address is given out again: `head` may overtake `tail`,
so that the node `tail` points to is freed, and a push that gets its address looks like the tail.
-/

namespace CoQueue.Shift

open Linked Schedule

section
variable {V : Type} {s : State V} {i : Tid} {threads : Nat}

def Panic.ofPush : Panic → Bool
  | .swapTail | .swapStolen | .guardHelp | .guardLink => true
  | .refill => false

/-- The step is not the last `pop_guard.push` of an overflowing `_pop` finding the guard full. -/
def refills (s : State V) : Act V → Bool
  | .run i =>
    match s.pc i with
    | .refillLen _ _ => s.mem.popGuard.len != s.mem.popGuard.cap
    | _ => true
  | _ => true

/-- Every value whose push has returned is in exactly one place, and comes out as it went in. -/
structure Conserved (s : State V) : Prop where
  place : ∃ l, Path s.mem.next (s.mem.next s.mem.head) l ∧ ∀ a ∈ s.hist.pushed,
    (l.count a = 1 ∧ (s.hist.popped.map Prod.fst).count a = 0 ∧ ∀ i, (s.pc i).taking ≠ some a) ∨
    (l.count a = 0 ∧ (s.hist.popped.map Prod.fst).count a = 0 ∧ ∃! i, (s.pc i).taking = some a) ∨
    (l.count a = 0 ∧ (s.hist.popped.map Prod.fst).count a = 1 ∧ ∀ i, (s.pc i).taking ≠ some a)
  once : (s.hist.popped.map Prod.fst).Nodup
  value : ∀ p ∈ s.hist.popped, s.mem.data p.1 = some p.2

/-! ### Panics of `push` -/

theorem orderly_push_never_panics
    (h : Run step (fun s a => orderly s a = true ∧ unused s a = true) (.init threads : State V) s)
    (i : Tid) (site : Panic) (hsite : site.ofPush = true) : s.pc i ≠ .panicked site := by
  intro hpc
  have hok := (inv_of_run h).ok i
  rw [hpc] at hok
  obtain rfl : site = .refill := hok
  cases hsite

/-- Thread 1 looks at `tail` while thread 0 is between its link and its swing. -/
def helpSchedule : List (Act Nat) :=
  [.push 0 10 1, .run 0, .run 0, .run 0, .run 0, .run 0, .push 1 20 2, .run 1, .run 1, .run 1, .run 0]

/-- Thread 1 reads `tail.next` before and after thread 0 links: it goes through the lock of
`push_guard`, prints the queue, finds nothing in the guard and starts again. -/
def overlapSchedule : List (Act Nat) :=
  [.push 0 10 1, .push 1 20 2, .run 0, .run 0, .run 1, .run 1, .run 0, .run 0, .run 0, .run 1, .run 1,
    .run 0, .run 1, .print 1, .run 1, .run 1, .run 1, .run 1, .run 1, .run 1, .run 1, .run 1]

theorem overlap_push_never_panics :
    ∃ s, Run step (fun s a => orderly s a = true ∧ unused s a = true) (.init 0 : State Nat) s ∧
      s.hist.pushed = [1, 2] ∧ ∀ i site, Panic.ofPush site = true → s.pc i ≠ .panicked site := by
  have hexec : (exec step (fun s a => orderly s a = true ∧ unused s a = true) (.init 0) overlapSchedule).map
      (fun s => s.hist.pushed) = some [1, 2] := by decide
  obtain ⟨s, hrun, hs⟩ := Run.of_exec_map hexec
  exact ⟨s, hrun, hs, fun i site hsite => orderly_push_never_panics hrun i site hsite⟩

/-- Without the condition a push panics: the helper moved `tail` under it. -/
theorem helped_push_panics :
    ¬ ∀ (threads : Nat) (s : State Nat), Run step (fun s a => unused s a = true) (.init threads) s →
      ∀ i site, Panic.ofPush site = true → s.pc i ≠ .panicked site := by
  intro h
  have hexec : (exec step (fun s a => unused s a = true) (.init 4) helpSchedule).map (fun s => s.pc 0) =
      some (.panicked .swapTail) := by decide
  obtain ⟨s, hrun, hs⟩ := Run.of_exec_map hexec
  exact h 4 s hrun 0 .swapTail rfl hs

/-- In a queue for one thread, thread 0 has linked node 2 and has yet to move `tail` off node 1 when
thread 1 pops past node 1 and frees it. Thread 2 gets its address, and thread 3 links behind it. -/
def reuseSchedule : List (Act Nat) :=
  Act.push 0 10 1 :: List.replicate 6 (Act.run 0) ++ Act.tryPop 1 :: List.replicate 7 (Act.run 1) ++
    Act.push 0 20 2 :: List.replicate 5 (Act.run 0) ++ Act.tryPop 1 :: List.replicate 14 (Act.run 1) ++
    Act.push 2 30 1 :: Act.push 3 40 3 :: List.replicate 6 (Act.run 3) ++ [Act.run 0]

/-- That the allocator does not give out an address again is needed too. -/
theorem reused_push_panics :
    ∃ s, Run step (fun s a => orderly s a = true) (.init 1 : State Nat) s ∧
      s.pc 0 = .panicked .swapTail := by
  have hexec : (exec step (fun s a => orderly s a = true) (.init 1) reuseSchedule).map
      (fun s => s.pc 0) = some (.panicked .swapTail) := by rfl
  exact Run.of_exec_map hexec

/-! ### Where a value is -/

/-- Every claimed value has been returned or is still with the `try_pop` that claimed it. -/
def Kept (s : State V) : Prop :=
  ∀ a ∈ s.hist.claims, a ∈ s.hist.popped.map Prod.fst ∨ ∃ i, (s.pc i).taking = some a

/-- One step and the node its thread is taking: a claim starts it, only a return ends it. -/
theorem Inv.taking_step {r : Mem V × Pc × Event V} (hI : Inv s) (hr : refills s (.run i) = true)
    (hs : stepPc s.mem (s.pc i) = some r) :
    (∀ a, r.2.2 = .claimed a → r.2.1.taking = some a) ∧
    ∀ a, (s.pc i).taking = some a →
      r.2.1.taking = some a ∨ ∃ v, r.2.2 = .returned (.tryPop (some (a, v))) := by
  have hok := hI.ok i
  simp only [refills] at hr
  cases hpc : s.pc i <;> rw [hpc] at hs hok hr <;> simp only [stepPc] at hs
  case readData b =>
    obtain ⟨v, hv⟩ := hI.data_of_claim hok
    rw [hv] at hs
    cases hs
    refine ⟨fun _ h => (by cases h), fun a ha => .inr ⟨v, ?_⟩⟩
    rw [Option.some.inj ha]
  case refillLen a b =>
    rw [if_neg (by simpa using hr)] at hs
    cases hs
    exact ⟨fun _ h => (by cases h), fun a ha => .inl ha⟩
  all_goals
    first
    | split at hs <;> cases hs <;> simp [Pc.taking]
    | cases hs <;> simp [Pc.taking]

theorem mem_popped_log {h : Hist V} {e : Event V} {p : Addr × V} (hp : p ∈ h.popped) :
    p ∈ (h.log i e).popped := by
  cases e with
  | returned r =>
    rw [Hist.popped, Hist.log, List.filterMap_append]
    exact List.mem_append_left _ hp
  | _ => exact hp

theorem mem_claims_log {h : Hist V} {e : Event V} {a : Addr} (ha : a ∈ (h.log i e).claims) :
    a ∈ h.claims ∨ e = .claimed a := by
  cases e with
  | claimed b =>
    rcases List.mem_append.1 ha with ha | ha
    · exact .inl ha
    · exact .inr (by rw [List.mem_singleton.1 ha])
  | _ => exact .inl ha

theorem Kept.enter {pc : Pc} {m : Mem V} (hk : Kept s) (hpc : s.pc i = .idle) :
    Kept { s with mem := m, pc := Function.update s.pc i pc } := by
  intro a ha
  refine (hk a ha).imp_right fun ⟨j, hj⟩ => ⟨j, ?_⟩
  have hji : j ≠ i := by rintro rfl; rw [hpc] at hj; cases hj
  dsimp only
  rw [Function.update_of_ne hji]; exact hj

theorem Kept.put {r : Mem V × Pc × Event V} (hk : Kept s)
    (hr : (∀ a, r.2.2 = .claimed a → r.2.1.taking = some a) ∧ ∀ a, (s.pc i).taking = some a →
      r.2.1.taking = some a ∨ ∃ v, r.2.2 = .returned (.tryPop (some (a, v)))) :
    Kept (s.put i r) := by
  intro a ha
  rcases mem_claims_log ha with ha | ha
  · rcases hk a ha with hp | ⟨j, hj⟩
    · obtain ⟨p, hp', rfl⟩ := List.mem_map.1 hp
      exact .inl (List.mem_map_of_mem (mem_popped_log hp'))
    · by_cases hji : j = i
      · subst j
        rcases hr.2 a hj with ht | ⟨v, hv⟩
        · exact .inr ⟨i, by simpa [State.put] using ht⟩
        · exact .inl (by simp [State.put, hv, Hist.log, Hist.popped])
      · exact .inr ⟨j, by simpa [State.put, Function.update_of_ne hji] using hj⟩
  · exact .inr ⟨i, by simpa [State.put] using hr.1 a ha⟩

theorem Kept.step {a : Act V} {s' : State V} (hI : Inv s) (hk : Kept s) (hr : refills s a = true)
    (hs : step s a = some s') : Kept s' := by
  cases a with
  | push i val b =>
    obtain ⟨hpc, rfl⟩ := step_push hs
    exact hk.enter hpc
  | tryPop i | isEmpty i =>
    obtain ⟨hpc, rfl⟩ := enter_eq hs
    exact hk.enter hpc
  | run i =>
    obtain ⟨r, hr', rfl⟩ := step_run hs
    exact hk.put (hI.taking_step hr hr')
  | print i =>
    obtain ⟨-, rfl⟩ := step_print hs
    exact hk

def tidy (s : State V) (a : Act V) : Bool := orderly s a && refills s a

theorem tidy_iff {a : Act V} : tidy s a = true ↔ orderly s a = true ∧ refills s a = true :=
  Bool.and_eq_true_iff

theorem kept_of_run
    (h : Run step (fun s a => tidy s a = true ∧ unused s a = true) (.init threads : State V) s) :
    Inv s ∧ Kept s := by
  refine h.invariant (P := fun s => Inv s ∧ Kept s) ⟨inv_init threads, nofun⟩ ?_
  intro t a u ⟨hI, hk⟩ ⟨ht, hu⟩ hs
  obtain ⟨ho, hr⟩ := tidy_iff.1 ht
  exact ⟨hI.step ho hu hs, hk.step hI hr hs⟩

theorem Inv.passed_eq (hI : Inv s) {k : Nat} (hk : k ≤ s.hist.claims.length) :
    s.hist.nodes[k]? = s.hist.passed[k]? := by
  obtain ⟨l, hl⟩ := hI.claims
  rw [Hist.nodes, ← hl, Hist.passed, ← List.cons_append,
    List.getElem?_append_left (by simp only [List.length_cons]; omega)]

theorem Inv.head_eq (hI : Inv s) : s.hist.nodes[s.hist.claims.length]? = some s.mem.head := by
  have hhead := hI.head
  rw [List.getLast?_eq_getElem?] at hhead
  rw [hI.passed_eq (Nat.le_refl _)]
  simpa [Hist.passed] using hhead

/-- The chain behind `head` holds the linked nodes that are not claimed yet. -/
theorem Inv.chain (hI : Inv s) :
    Path s.mem.next (s.mem.next s.mem.head) (s.hist.linked.drop s.hist.claims.length) := by
  simpa [Hist.nodes] using hI.path.drop hI.head_eq

theorem Inv.claimed_or_chain {a : Addr} (hI : Inv s) (ha : a ∈ s.hist.linked) :
    (a ∈ s.hist.claims ∧ (s.hist.linked.drop s.hist.claims.length).count a = 0) ∨
    (a ∉ s.hist.claims ∧ (s.hist.linked.drop s.hist.claims.length).count a = 1) := by
  obtain ⟨rest, hrest⟩ := hI.claims
  have hnd : (s.hist.claims ++ rest).Nodup := hrest ▸ (List.nodup_cons.1 hI.path.nodup).2
  rw [← hrest, List.drop_left]
  rw [← hrest, List.mem_append] at ha
  obtain ⟨-, hrest', hdis⟩ := List.nodup_append.1 hnd
  rcases ha with ha | ha
  · exact .inl ⟨ha, List.count_eq_zero.2 fun h => hdis a ha a h rfl⟩
  · exact .inr ⟨fun h => hdis a h a ha rfl, List.count_eq_one_of_mem hrest' ha⟩

/-- Values are conserved in every orderly run in which no overflowing `_pop` fails its `assert!`. -/
theorem conserved_of_tidy
    (h : Run step (fun s a => tidy s a = true ∧ unused s a = true) (.init threads : State V) s) :
    Conserved s := by
  obtain ⟨hI, hk⟩ := kept_of_run h
  refine ⟨⟨_, hI.chain, fun a ha => ?_⟩, hI.popped_nodup, fun p hp => (hI.popped p hp).2⟩
  rcases hI.claimed_or_chain (hI.pushed a ha) with ⟨hc, hcount⟩ | ⟨hc, hcount⟩
  · right
    rcases hk a hc with hp | ⟨i, hi⟩
    · exact .inr ⟨hcount, List.count_eq_one_of_mem hI.popped_nodup hp,
        fun i hi => hI.taking i a hi hp⟩
    · exact .inl ⟨hcount, List.count_eq_zero.2 (hI.taking i a hi), i, hi,
        fun j hj => hI.taking_inj j i a hj hi⟩
  · refine .inl ⟨hcount, List.count_eq_zero.2 fun hp => ?_, fun i hi => hc (hI.claim_of_taking hi)⟩
    obtain ⟨p, hp', rfl⟩ := List.mem_map.1 hp
    exact hc (hI.popped p hp').1

/-- Thread 2 pops both values of `overlapSchedule` from a queue for one thread: the second pop finds
`pop_guard` full, empties it and stores its node in it. -/
def drainSchedule : List (Act Nat) :=
  overlapSchedule ++ Act.tryPop 2 :: List.replicate 7 (Act.run 2) ++
    Act.tryPop 2 :: List.replicate 14 (Act.run 2)

theorem drain_conserved :
    ∃ s, Run step (fun s a => tidy s a = true ∧ unused s a = true) (.init 1 : State Nat) s ∧
      s.hist.pushed = [1, 2] ∧ s.hist.popped = [(1, 10), (2, 20)] ∧ Conserved s := by
  have hexec : (exec step (fun s a => tidy s a = true ∧ unused s a = true) (.init 1) drainSchedule).map
      (fun s => (s.hist.pushed, s.hist.popped)) = some ([1, 2], [(1, 10), (2, 20)]) := by rfl
  obtain ⟨s, hrun, hs⟩ := Run.of_exec_map hexec
  rw [Prod.mk.injEq] at hs
  exact ⟨s, hrun, hs.1, hs.2, conserved_of_tidy hrun⟩

/-- Without the condition a value is lost: in the last state of `helpSchedule` no push is in
progress, the push of node 2 has returned, and node 2 is nowhere. -/
theorem helped_push_loses_value :
    ¬ ∀ (threads : Nat) (s : State Nat), Run step (fun s a => unused s a = true) (.init threads) s →
      (∀ i, (s.pc i).pushing = false) → Conserved s := by
  intro h
  have hexec : (exec step (fun s a => a.tid < 2 ∧ unused s a = true) (.init 4) helpSchedule).map
      (fun s => (s.pc 0, s.pc 1, s.hist.pushed, s.hist.popped, s.mem.head, s.mem.next 0, s.mem.next 1)) =
      some (.panicked .swapTail, .idle, [2], [], 0, some 1, none) := by rfl
  obtain ⟨s, hrun, hobs⟩ := Run.of_exec_map hexec
  simp only [Prod.mk.injEq] at hobs
  obtain ⟨h0, h1, hpushed, hpopped, hhead, hn0, hn1⟩ := hobs
  have hpc : ∀ i, s.pc i = .panicked .swapTail ∨ s.pc i = .idle := by
    intro i
    match i with
    | 0 => exact .inl h0
    | 1 => exact .inr h1
    | i + 2 => exact .inr (idle_of_bounded (fun _ _ h => h.1) hrun (Nat.le_add_left 2 i))
  obtain ⟨⟨l, hl, hplace⟩, -, -⟩ := h 4 s (hrun.mono fun _ _ h => h.2)
    fun i => by rcases hpc i with hi | hi <;> rw [hi] <;> rfl
  have hl' : Path s.mem.next (s.mem.next s.mem.head) [1] := by
    rw [hhead, hn0]; exact ⟨rfl, hn1⟩
  obtain rfl := hl.det hl'
  have htak : ∀ i, (s.pc i).taking ≠ some 2 := fun i => by
    rcases hpc i with hi | hi <;> rw [hi] <;> nofun
  rcases hplace 2 (by rw [hpushed]; simp) with ⟨h1, -⟩ | ⟨-, -, i, hi, -⟩ | ⟨-, h1, -⟩
  · simp at h1
  · exact htak i hi
  · simp [hpopped] at h1

end

end CoQueue.Shift
