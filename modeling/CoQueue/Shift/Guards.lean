import CoQueue.Shift.RawQueue
import CoQueue.Shift.Shared

/-!
# The two guards of `RawQueue`

`push_guard` and `pop_guard` are used through `PtrGuard::push` and `PtrGuard::pop` alone, and by as many threads
at once as there are in `_push` and `_pop`: the locks are taken for some of the calls only. `pushSide` and
`popSide` say where in such a call a thread is. Seen through them a run of the queue is a run of a shared guard,
with no step of the guard for most steps of the queue, and two where one call ends and the next begins. So what
is proved of shared guards holds of these two in every run: `pop` reads the slot behind the guard when the guard
is full, and when `pop_guard` is emptied this is the only slot that it reads and that nobody has written.
-/

namespace CoQueue.Shift

open Schedule

/-- The call of `push_guard` that a thread is in. -/
def Pc.pushSide : Pc → Shared.Pc Addr
  | .stashLen _ new => .pushLen new
  | .stashWrite new len => .pushWrite new len
  | .stashCas new len => .pushCas new len
  | .stealLen _ _ => .popLen
  | .stealCas _ _ len => .popCas len
  | .stealRead _ _ len => .popRead len
  | _ => .idle

/-- The call of `pop_guard` that a thread is in. -/
def Pc.popSide : Pc → Shared.Pc Addr
  | .retireLen head _ | .refillLen head _ => .pushLen head
  | .retireWrite head _ len | .refillWrite head _ len => .pushWrite head len
  | .retireCas head _ len | .refillCas head _ len => .pushCas head len
  | .sweepLen _ _ => .popLen
  | .sweepCas _ _ len => .popCas len
  | .sweepRead _ _ len => .popRead len
  | _ => .idle

/-- What a thread does to a shared guard on its own, calls that it begins included. -/
inductive Calls (g : PtrGuard Addr) (pc : Shared.Pc Addr) : PtrGuard Addr → Shared.Pc Addr → Prop
  | refl : Calls g pc g pc
  | push {g' : PtrGuard Addr} {node : Addr} (h : Calls g pc g' .idle) : Calls g pc g' (.pushLen node)
  | pop {g' : PtrGuard Addr} (h : Calls g pc g' .idle) : Calls g pc g' .popLen
  | run {g₁ g' : PtrGuard Addr} {pc₁ pc' : Shared.Pc Addr} {ret : Option (Shared.Ret Addr)}
      (h : Calls g pc g₁ pc₁) (hs : Shared.stepPc g₁ pc₁ = some (g', pc', ret)) : Calls g pc g' pc'

theorem Calls.runs {g g' : PtrGuard Addr} {pc pc' : Shared.Pc Addr} (h : Calls g pc g' pc') {i : Tid}
    {t : Shared.State Addr} (hg : t.guard = g) (hpc : t.pc i = pc) :
    ∃ t', Run Shared.step Any t t' ∧ t'.guard = g' ∧ t'.pc = Function.update t.pc i pc' := by
  induction h with
  | refl => exact ⟨t, .refl, hg, by rw [← hpc, Function.update_eq_self]⟩
  | @push g' node _ ih =>
    obtain ⟨u, hrun, hgu, hpcu⟩ := ih
    refine ⟨{ u with pc := Function.update u.pc i (.pushLen node) },
      .tail (a := .push i node) hrun trivial ?_, hgu, by rw [hpcu, Function.update_idem]⟩
    rw [Shared.step, Shared.State.enter, hpcu, Function.update_self]
    rfl
  | @pop g' _ ih =>
    obtain ⟨u, hrun, hgu, hpcu⟩ := ih
    refine ⟨{ u with pc := Function.update u.pc i .popLen }, .tail (a := .pop i) hrun trivial ?_, hgu,
      by rw [hpcu, Function.update_idem]⟩
    rw [Shared.step, Shared.State.enter, hpcu, Function.update_self]
    rfl
  | @run g₁ g' pc₁ pc' ret _ hs ih =>
    obtain ⟨u, hrun, hgu, hpcu⟩ := ih
    refine ⟨u.put i (g', pc', ret), .tail (a := .run i) hrun trivial ?_, rfl, ?_⟩
    · rw [Shared.step, hgu, hpcu, Function.update_self, hs]
      rfl
    · show Function.update u.pc i pc' = _
      rw [hpcu, Function.update_idem]

section
variable {V : Type} {m m' : Mem V} {pc pc' : Pc} {ev : Event V} {s : State V} {threads : Nat}

theorem calls_pushGuard (h : stepPc m pc = some (m', pc', ev)) :
    Calls m.pushGuard pc.pushSide m'.pushGuard pc'.pushSide := by
  cases pc <;> simp only [stepPc] at h
  case idle | panicked | undefined => cases h
  case helpTail | link =>
    split at h <;> cases h
    · exact .refl
    · exact .push .refl
  case stashLen =>
    split at h <;> cases h
    · exact .run .refl (if_pos ‹_›)
    · exact .run .refl (if_neg ‹_›)
  case stashWrite | stashCas | stealCas =>
    cases h
    exact .run .refl rfl
  case lockPush =>
    split at h <;> cases h
    exact .pop .refl
  case stealLen =>
    split at h <;> cases h
    · exact .run .refl (if_pos ‹_›)
    · exact .run .refl (if_neg ‹_›)
  case stealRead =>
    split at h <;> cases h
    · exact .run .refl rfl
    · exact .run .refl rfl
  all_goals
    try split at h
    all_goals cases h <;> exact .refl

theorem calls_popGuard (h : stepPc m pc = some (m', pc', ev)) :
    Calls m.popGuard pc.popSide m'.popGuard pc'.popSide := by
  cases pc <;> simp only [stepPc] at h
  case idle | panicked | undefined => cases h
  case casHead =>
    split at h <;> cases h
    · exact .push .refl
    · exact .refl
  case retireLen | refillLen =>
    split at h <;> cases h
    · exact .run .refl (if_pos ‹_›)
    · exact .run .refl (if_neg ‹_›)
  case retireWrite | retireCas | refillWrite | refillCas | sweepCas =>
    cases h
    exact .run .refl rfl
  case lockPop =>
    split at h <;> cases h
    exact .pop .refl
  case sweepLen =>
    split at h <;> cases h
    · exact .push (.run .refl (if_pos ‹_›))
    · exact .run .refl (if_neg ‹_›)
  case sweepRead =>
    cases h
    exact .pop (.run .refl rfl)
  all_goals
    try split at h
    all_goals cases h <;> exact .refl

/-- One of the two guards, with the part of a thread's work that is about it. -/
structure View (guard : Mem V → PtrGuard Addr) (side : Pc → Shared.Pc Addr) : Prop where
  init : ∀ threads, guard (.withThreads threads) = .withThreads threads
  alloc : ∀ m a val, guard (m.alloc a val) = guard m
  fmt : ∀ m, guard m.fmt.2 = guard m
  idle : side .idle = .idle
  loadTail : ∀ new, side (.loadTail new) = .idle
  loadHead : side .loadHead = .idle
  emptyHead : side .emptyHead = .idle
  calls : ∀ {m m' pc pc' ev}, stepPc m pc = some (m', pc', ev) → Calls (guard m) (side pc) (guard m') (side pc')

theorem push_view : View (Mem.pushGuard (V := V)) Pc.pushSide :=
  ⟨fun _ => rfl, fun _ _ _ => rfl, fun _ => rfl, rfl, fun _ => rfl, rfl, rfl, calls_pushGuard⟩

theorem pop_view : View (Mem.popGuard (V := V)) Pc.popSide :=
  ⟨fun _ => rfl, fun _ _ _ => rfl, fun _ => rfl, rfl, fun _ => rfl, rfl, rfl, calls_popGuard⟩

/-- A state of a shared guard in which every thread is where `side` says it is. -/
structure Seen (guard : Mem V → PtrGuard Addr) (side : Pc → Shared.Pc Addr) (s : State V)
    (t : Shared.State Addr) : Prop where
  memory : t.guard = guard s.mem
  pc : ∀ i, t.pc i = side (s.pc i)

section
variable {guard : Mem V → PtrGuard Addr} {side : Pc → Shared.Pc Addr} {s' : State V} {t : Shared.State Addr}
  {a : Act V} {i : Tid} {h' : Hist V}

theorem Seen.put (hseen : Seen guard side s t) (hc : Calls (guard s.mem) (side (s.pc i)) (guard m') (side pc')) :
    ∃ t', Run Shared.step Any t t' ∧ Seen guard side ⟨m', Function.update s.pc i pc', h'⟩ t' := by
  obtain ⟨t', hrun, hg, ht'⟩ := hc.runs hseen.memory (hseen.pc i)
  refine ⟨t', hrun, hg, fun j => ?_⟩
  rw [ht', funext hseen.pc]
  exact (Function.apply_update (fun _ => side) s.pc i pc' j).symm

theorem Seen.step (hv : View guard side) (hseen : Seen guard side s t) (hs : step s a = some s') :
    ∃ t', Run Shared.step Any t t' ∧ Seen guard side s' t' := by
  cases a with
  | push i val b =>
    obtain ⟨hidle, rfl⟩ := step_push hs
    refine hseen.put ?_
    rw [hidle, hv.idle, hv.loadTail, hv.alloc]
    exact .refl
  | tryPop i =>
    obtain ⟨hidle, rfl⟩ := enter_eq hs
    refine hseen.put ?_
    rw [hidle, hv.idle, hv.loadHead]
    exact .refl
  | isEmpty i =>
    obtain ⟨hidle, rfl⟩ := enter_eq hs
    refine hseen.put ?_
    rw [hidle, hv.idle, hv.emptyHead]
    exact .refl
  | run i =>
    obtain ⟨⟨m', pc', ev⟩, hr, rfl⟩ := step_run hs
    exact hseen.put (hv.calls hr)
  | print i =>
    obtain ⟨-, rfl⟩ := step_print hs
    exact ⟨t, .refl, hseen.memory.trans (hv.fmt s.mem).symm, hseen.pc⟩

theorem seen_of_run {C : State V → Act V → Prop} (hv : View guard side) (h : Run step C (.init threads) s) :
    ∃ t, Run Shared.step Any (.init threads) t ∧ Seen guard side s t := by
  have hinit : Seen guard side (.init threads) (.init threads) := ⟨(hv.init threads).symm, fun _ => hv.idle.symm⟩
  refine h.invariant (P := fun s => ∃ t, Run Shared.step Any (.init threads) t ∧ Seen guard side s t)
    ⟨_, .refl, hinit⟩ ?_
  intro u a u' ⟨t, hrun, hseen⟩ _ hs
  obtain ⟨t', hrun', hseen'⟩ := hseen.step hv hs
  exact ⟨t', hrun.trans hrun', hseen'⟩

theorem View.bounded {C : State V → Act V → Prop} (hv : View guard side) (h : Run step C (.init threads) s) :
    ((guard s.mem).len ≤ threads ∧ (guard s.mem).cap = threads) ∧ ∀ i, Shared.Ok threads (side (s.pc i)) := by
  obtain ⟨t, hrun, hseen⟩ := seen_of_run hv h
  have hb := Shared.bounded_of_run hrun
  refine ⟨⟨hseen.memory ▸ hb.len, hseen.memory ▸ hb.size⟩, fun i => ?_⟩
  rw [← hseen.pc i]
  exact hb.ok i

theorem View.written {C : State V → Act V → Prop} (hv : View guard side) (h : Run step C (.init threads) s) :
    (guard s.mem).Written (guard s.mem).len ∧ ∀ k, threads ≤ k → (guard s.mem).slot k = none := by
  obtain ⟨t, hrun, hseen⟩ := seen_of_run hv h
  rw [← hseen.memory]
  exact ⟨(Shared.written_of_run hrun).len, (Shared.written_of_run hrun).behind⟩

end

/-- Neither guard is ever fuller than the number of threads. A `push` writes to one of its slots, and a `pop` may
read the slot behind the guard too, which nobody ever writes. -/
theorem guards_bounded {C : State V → Act V → Prop} (h : Run step C (.init threads) s) :
    (s.mem.pushGuard.len ≤ threads ∧ s.mem.popGuard.len ≤ threads) ∧
      (∀ i, Shared.Ok threads (s.pc i).pushSide ∧ Shared.Ok threads (s.pc i).popSide) ∧
      ∀ k, threads ≤ k → s.mem.pushGuard.slot k = none ∧ s.mem.popGuard.slot k = none := by
  obtain ⟨hpush, hok⟩ := push_view.bounded h
  obtain ⟨hpop, hok'⟩ := pop_view.bounded h
  exact ⟨⟨hpush.1, hpop.1⟩, fun i => ⟨hok i, hok' i⟩,
    fun k hk => ⟨(push_view.written h).2 k hk, (pop_view.written h).2 k hk⟩⟩

/-! ### What is read when `pop_guard` is emptied -/

/-- In the branch of `_pop` that empties the guard. -/
def Pc.sweeping : Pc → Bool
  | .lockPop _ _ | .sweepLen _ _ | .sweepCas _ _ _ | .sweepRead _ _ _ => true
  | _ => false

/-- It is entered when the guard is full. -/
theorem full_of_sweeping (h : stepPc m pc = some (m', pc', ev)) (hs : pc'.sweeping = true) :
    pc.sweeping = true ∨ m.popGuard.len = m.popGuard.cap := by
  cases pc <;> simp only [stepPc] at h
  case idle | panicked | undefined => cases h
  case retireLen =>
    split at h
    · exact .inr ‹_›
    · cases h
      cases hs
  case lockPop | sweepLen | sweepCas | sweepRead => exact .inl rfl
  all_goals
    try split at h
    all_goals cases h <;> cases hs

theorem Calls.written {g g' : PtrGuard Addr} {pc pc' : Shared.Pc Addr} (h : Calls g pc g' pc') {k : Nat}
    (hk : g.slot k ≠ none) : g'.slot k ≠ none := by
  induction h with
  | refl => exact hk
  | push _ ih | pop _ ih => exact ih
  | run _ hs ih =>
    cases Shared.move_of_stepPc hs with
    | write => exact PtrGuard.slot_write_ne_none ih
    | pushed | popCas =>
      rw [PtrGuard.compareAndSwap_slot]
      exact ih
    | _ => exact ih

/-- Whoever empties the guard has found it full, and what was written then stays written. -/
def Swept (threads : Nat) (s : State V) : Prop :=
  ∀ i, (s.pc i).sweeping = true → s.mem.popGuard.Written threads

theorem Swept.step {s' : State V} {a : Act V} (hS : Swept threads s) (hcap : s.mem.popGuard.cap = threads)
    (hlen : s.mem.popGuard.Written s.mem.popGuard.len) (hs : step s a = some s') : Swept threads s' := by
  have hcall : ∀ {i m pc}, pc.sweeping = false → m.popGuard = s.mem.popGuard →
      Swept threads (V := V) ⟨m, Function.update s.pc i pc, s.hist⟩ := by
    intro i m pc hpc hm j hj
    rcases at_update (P := fun pc : Pc => pc.sweeping = true) hj with ⟨-, hj⟩ | ⟨-, hj⟩
    · rw [hpc] at hj
      cases hj
    · rw [hm]
      exact hS j hj
  cases a with
  | push i val b =>
    obtain ⟨-, rfl⟩ := step_push hs
    exact hcall rfl rfl
  | tryPop i | isEmpty i =>
    obtain ⟨-, rfl⟩ := enter_eq hs
    exact hcall rfl rfl
  | print i =>
    obtain ⟨-, rfl⟩ := step_print hs
    exact hS
  | run i =>
    obtain ⟨⟨m', pc', ev⟩, hr, rfl⟩ := step_run hs
    intro j hj k hk
    refine (calls_popGuard hr).written ?_
    rcases at_update (P := fun pc : Pc => pc.sweeping = true) hj with ⟨-, hj⟩ | ⟨-, hj⟩
    · rcases full_of_sweeping hr hj with hi | hfull
      · exact hS i hi k hk
      · exact hlen k (by omega)
    · exact hS j hj k hk

theorem swept_of_run {C : State V → Act V → Prop} (h : Run step C (.init threads) s) : Swept threads s := by
  have hboth : Run step C (.init threads) s ∧ Swept threads s := by
    refine h.invariant (P := fun s => Run step C (.init threads) s ∧ Swept threads s)
      ⟨.refl, fun i hi => absurd hi Bool.false_ne_true⟩ ?_
    intro t a u ⟨hrun, hS⟩ hC hs
    exact ⟨.tail hrun hC hs, hS.step (pop_view.bounded hrun).1.2 (pop_view.written hrun).1 hs⟩
  exact hboth.2

/-- When `pop_guard` is emptied, the one slot read without ever having been written is the slot behind the guard. -/
theorem swept_behind {C : State V → Act V → Prop} {i : Tid} {head next len : Addr}
    (h : Run step C (.init threads) s) (hi : s.pc i = .sweepRead head next len) :
    1 ≤ len ∧ len ≤ threads ∧ (s.mem.popGuard.slot len = none ↔ len = threads) := by
  obtain ⟨-, hok, hbehind⟩ := guards_bounded h
  have hlen := (hok i).2
  rw [hi] at hlen
  refine ⟨hlen.1, hlen.2, fun hnone => ?_, fun heq => (hbehind len (Nat.le_of_eq heq.symm)).2⟩
  have hS := swept_of_run h i (by rw [hi]; rfl)
  exact Nat.le_antisymm hlen.2 (Nat.le_of_not_lt fun hlt => hS len hlt hnone)

end

end CoQueue.Shift
