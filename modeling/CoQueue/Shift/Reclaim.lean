import CoQueue.Shift.Fifo

/-!
# What `pop_guard` protects

`pop_guard` is the queue's garbage collector: an old head is parked there, and a `_pop` that finds
the guard full drops its own old head and then every node it pops off the guard. Nothing in this
looks at the other consumers. A `try_pop` that has loaded `head` and has yet to read `(*head).next()`
is safe for one reason only: the nodes dropped are old heads (`Parked`), so what it holds is not
among them while it holds the current head. Once `head` has moved on, the next overflow may free the
node under it, whatever the capacity of the guard.
-/

namespace CoQueue.Shift

open Linked Schedule

section
variable {V : Type} {s : State V} {i : Tid} {threads : Nat}

def producer (p : Tid) : Act V → Prop
  | .push i _ _ => i = p
  | _ => True

instance (p : Tid) : (a : Act V) → Decidable (producer p a)
  | .push i _ _ => inferInstanceAs (Decidable (i = p))
  | .tryPop _ | .isEmpty _ | .run _ | .print _ => isTrue trivial

/-- The next step of thread `i` drops a node: `pop_guard` is full, or the thread is emptying it. -/
def drops (s : State V) (i : Tid) : Bool :=
  match s.pc i with
  | .retireLen _ _ | .refillLen _ _ => s.mem.popGuard.len == s.mem.popGuard.cap
  | .sweepRead _ _ _ => true
  | _ => false

/-- If the step drops a node, every other `try_pop` that has yet to read `(*head).next()` has loaded
the present `head`. -/
def upToDate (s : State V) : Act V → Prop
  | .run i => drops s i = true → ∀ j a, j ≠ i → s.pc j = .headNext a → a = s.mem.head
  | _ => True

def Parked (s : State V) : Prop :=
  ∀ k a, s.mem.popGuard.slot k = some a → a ∈ s.hist.passed.dropLast

theorem passed_log (h : Hist V) (i : Tid) (e : Event V) : h.passed <+: (h.log i e).passed := by
  cases e with
  | claimed a => exact List.prefix_append (0 :: h.claims) [a]
  | _ => exact List.prefix_rfl

theorem Inv.slot_step {r : Mem V × Pc × Event V} {k : Nat} {a : Addr} (hI : Inv s)
    (hs : stepPc s.mem (s.pc i) = some r) (ha : r.1.popGuard.slot k = some a) :
    s.mem.popGuard.slot k = some a ∨ a ∈ s.hist.passed.dropLast := by
  have hok := hI.ok i
  cases hpc : s.pc i <;> rw [hpc] at hs hok <;> simp only [stepPc] at hs
  case retireWrite | refillWrite =>
    cases hs
    rcases PtrGuard.slot_write_eq ha with rfl | ha
    · exact .inr hok.1
    · exact .inl ha
  all_goals
    first
    | cases hs; exact .inl (by simpa using ha)
    | split at hs <;> cases hs <;> exact .inl ha
    | cases hs

theorem Parked.step {a : Act V} {s' : State V} (hI : Inv s) (hp : Parked s)
    (hs : step s a = some s') : Parked s' := by
  cases a with
  | push i val b =>
    obtain ⟨-, rfl⟩ := step_push hs
    exact hp
  | tryPop i | isEmpty i =>
    obtain ⟨-, rfl⟩ := enter_eq hs
    exact hp
  | print i =>
    obtain ⟨-, rfl⟩ := step_print hs
    exact hp
  | run i =>
    obtain ⟨r, hr, rfl⟩ := step_run hs
    intro k b hb
    refine subset_dropLast (passed_log s.hist i r.2.2) ?_
    rcases hI.slot_step hr hb with hb | hb
    · exact hp k b hb
    · exact hb

theorem Inv.head_not_old (hI : Inv s) : s.mem.head ∉ s.hist.passed.dropLast := by
  have hnd : s.hist.passed.Nodup :=
    hI.path.nodup.sublist (List.cons_prefix_cons.2 ⟨rfl, hI.claims⟩).sublist
  have hlast := List.dropLast_append_getLast? _ (Option.mem_def.2 hI.head)
  rw [← hlast] at hnd
  exact fun h => List.disjoint_of_nodup_append hnd h (List.mem_singleton_self _)

/-- What a step frees is an old head, and the step is one of those that drop. -/
theorem Inv.freed_old {r : Mem V × Pc × Event V} {l : List Addr} {b : Addr} (hI : Inv s)
    (hp : Parked s) (hs : stepPc s.mem (s.pc i) = some r) (hl : r.1.freed = s.mem.freed ++ l)
    (hb : b ∈ l) : drops s i = true ∧ b ∈ s.hist.passed.dropLast := by
  have hok := hI.ok i
  unfold drops
  cases hpc : s.pc i <;> rw [hpc] at hs hok <;> simp only [stepPc] at hs
  case retireLen a c | refillLen a c =>
    split at hs <;> cases hs
    · obtain rfl := List.append_cancel_left hl
      rw [List.mem_singleton.1 hb]
      exact ⟨by simpa, hok.1⟩
    · simp at hl; subst hl; cases hb
  case sweepRead a c n =>
    cases hs
    obtain rfl := List.append_cancel_left hl
    exact ⟨rfl, hp n b (by simpa using hb)⟩
  case stashLen => cases hok
  all_goals
    first
    | cases hs; simp at hl; subst hl; cases hb
    | split at hs <;> cases hs <;> simp at hl <;> subst hl <;> cases hb
    | cases hs

/-! ### One producer -/

theorem run_alone_of_producer {p : Tid} {C : State V → Act V → Prop}
    (h : Run step (fun s a => producer p a ∧ C s a) (.init threads) s) :
    Run step (fun s a => alone s a ∧ C s a) (.init threads) s := by
  refine h.under (P := fun s => ∀ j, (s.pc j).pushing = true → j = p) (fun _ h => nomatch h) ?_ ?_
  · intro t a u ht ha hs j hj
    cases a with
    | push i val b =>
      obtain ⟨-, rfl⟩ := step_push hs
      rcases at_update (P := fun q : Pc => q.pushing = true) hj with ⟨rfl, -⟩ | ⟨-, hj⟩
      · exact ha.1
      · exact ht j hj
    | tryPop i | isEmpty i =>
      obtain ⟨-, rfl⟩ := enter_eq hs
      rcases at_update (P := fun q : Pc => q.pushing = true) hj with ⟨-, hj⟩ | ⟨-, hj⟩
      · cases hj
      · exact ht j hj
    | print i =>
      obtain ⟨-, rfl⟩ := step_print hs
      exact ht j hj
    | run i =>
      obtain ⟨r, hr, rfl⟩ := step_run hs
      rcases at_update (P := fun q : Pc => q.pushing = true) hj with ⟨rfl, hj'⟩ | ⟨-, hj'⟩
      · -- a thread does not get into `push` by going on
        refine ht j (by_contra fun hno => ?_)
        rw [(stepPc_of_not_pushing (by simpa using hno) hr).1] at hj'
        cases hj'
      · exact ht j hj'
  · intro t a u ht ha hs
    refine ⟨?_, ha.2⟩
    cases a with
    | push i val b =>
      obtain rfl : i = p := ha.1
      obtain ⟨hpc, -⟩ := step_push hs
      intro j
      by_contra hj
      obtain rfl := ht j (by simpa using hj)
      rw [hpc] at hj
      exact hj rfl
    | _ => trivial

/-- With one producer, a step that drops nodes only when every waiting reader is up to date frees no
node that another `try_pop` has loaded as its head and has yet to read. -/
theorem freed_not_held {p j : Tid} {u : State V} {l : List Addr} {b : Addr}
    (h : Run step (fun s a => producer p a ∧ unused s a = true ∧ upToDate s a) (.init threads : State V) s)
    (ha : upToDate s (.run i)) (hs : step s (.run i) = some u)
    (hl : u.mem.freed = s.mem.freed ++ l) (hb : b ∈ l) (hj : j ≠ i) : s.pc j ≠ .headNext b := by
  obtain ⟨hI, -, hp⟩ : Inv s ∧ Sole s ∧ Parked s :=
    holds_of_alone (fun _ _ ha => ⟨ha.1, ha.2.1⟩) (run_alone_of_producer h) nofun
      fun hI hp _ hs => hp.step hI hs
  obtain ⟨r, hr, rfl⟩ := step_run hs
  obtain ⟨hd, hold⟩ := hI.freed_old hp hr hl hb
  intro hpc
  obtain rfl := ha hd j b hj hpc
  exact hI.head_not_old hold

/-- In a queue for one thread, thread 0 pushes two values and thread 1 pops the first. -/
def fillSchedule : List (Act Nat) :=
  Act.push 0 10 1 :: List.replicate 6 (Act.run 0) ++ Act.push 0 20 2 :: List.replicate 6 (Act.run 0) ++
    Act.tryPop 1 :: List.replicate 7 (Act.run 1)

/-- Thread 1 has claimed the second value before thread 2 loads `head`: node 1 is freed, and thread 2
does not hold it. -/
theorem overflow_freed_not_held :
    ∃ s u, Run step (fun s a => producer 0 a ∧ unused s a = true ∧ upToDate s a)
        (.init 1 : State Nat) s ∧
      step s (.run 1) = some u ∧ s.pc 2 = .headNext 2 ∧ u.mem.freed = s.mem.freed ++ [1] ∧
      s.pc 2 ≠ .headNext 1 := by
  have hexec : (exec step
      (fun s a => a.tid < 3 ∧ producer 0 a ∧ unused s a = true ∧ drops s a.tid = false) (.init 1)
      (fillSchedule ++ [Act.tryPop 1, .run 1, .run 1, .run 1, .tryPop 2, .run 2])).map
      (fun s => ((s.pc 0, s.pc 2, s.mem.head), (step s (.run 1)).map fun u => (s.mem.freed, u.mem.freed))) =
      some ((.idle, .headNext 2, 2), some ([], [1])) := by rfl
  obtain ⟨s, hrun, hobs⟩ := Run.of_exec_map hexec
  simp only [Prod.mk.injEq] at hobs
  obtain ⟨⟨h0, h2, hhead⟩, hstep⟩ := hobs
  obtain ⟨u, hu, hfreed⟩ := Option.map_eq_some_iff.1 hstep
  simp only [Prod.mk.injEq] at hfreed
  have hrun' : Run step (fun s a => producer 0 a ∧ unused s a = true ∧ upToDate s a) (.init 1) s := by
    refine hrun.mono fun t a ha => ⟨ha.2.1, ha.2.2.1, ?_⟩
    cases a with
    | run i => exact fun hd => absurd hd (by rw [show drops t i = false from ha.2.2.2]; nofun)
    | _ => trivial
  have hup : upToDate s (.run 1) := by
    intro _ j a hj hpc
    match j with
    | 0 => rw [h0] at hpc; cases hpc
    | 1 => exact absurd rfl hj
    | 2 => rw [h2] at hpc; cases hpc; exact hhead.symm
    | j + 3 =>
      rw [idle_of_bounded (fun _ _ h => h.1) hrun (Nat.le_add_left 3 j)] at hpc
      cases hpc
  have hl : u.mem.freed = s.mem.freed ++ [1] := by rw [hfreed.1, hfreed.2]; rfl
  exact ⟨s, u, hrun', hu, h2, hl,
    freed_not_held hrun' hup hu hl (List.mem_singleton_self 1) (by decide)⟩

/-- Without the condition a node is freed under a reader: thread 2 has loaded node 1 as its head,
thread 1 pops past it, finds `pop_guard` full and drops it. -/
theorem overflow_frees_held :
    ¬ ∀ (threads : Nat) (p : Tid) (s u : State Nat) (i j : Tid) (l : List Addr) (b : Addr),
      1 ≤ threads → Run step (fun s a => producer p a ∧ unused s a = true) (.init threads) s →
      step s (.run i) = some u → u.mem.freed = s.mem.freed ++ l → b ∈ l → j ≠ i →
      s.pc j ≠ .headNext b := by
  intro h
  have hexec : (exec step (fun s a => producer 0 a ∧ unused s a = true) (.init 1)
      (fillSchedule ++ [Act.tryPop 2, .run 2, .tryPop 1, .run 1, .run 1, .run 1])).map
      (fun s => (s.pc 2, (step s (.run 1)).map fun u => (s.mem.freed, u.mem.freed))) =
      some (.headNext 1, some ([], [1])) := by rfl
  obtain ⟨s, hrun, hobs⟩ := Run.of_exec_map hexec
  simp only [Prod.mk.injEq] at hobs
  obtain ⟨u, hu, hfreed⟩ := Option.map_eq_some_iff.1 hobs.2
  simp only [Prod.mk.injEq] at hfreed
  refine h 1 0 s u 1 2 [1] 1 (Nat.le_refl 1) hrun hu ?_ (List.mem_singleton_self 1) (by decide) hobs.1
  rw [hfreed.1, hfreed.2]; rfl

end

end CoQueue.Shift
