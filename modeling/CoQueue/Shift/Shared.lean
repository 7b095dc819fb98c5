import CoQueue.Lib.Schedule
import CoQueue.Shift.PtrGuard

/-!
# A `PtrGuard` that threads share

`push` and `pop` of any number of threads on one guard, none of which takes its lock. A step is one access:
a load of `len`, a slot, or the `compare_and_swap` on `len`. What a call does with the slot it does for the
`len` it has loaded, and it does not look at the outcome of its `compare_and_swap`.

The bounds hold all the same: an update moves `len` from the value the call has loaded to the one next to it,
and the call has seen that this is in range (`Bounded`). What does not hold is that a `push` that returns `Ok`
has stored its node. Two pushes that load the same `len` write to the same slot, and one of them moves `len`
on for both. The guard keeps every node exactly when no push makes its `compare_and_swap` too late.
-/

namespace CoQueue.Shift.Shared

open Schedule

abbrev Tid := Nat

/-- The access a thread makes next; `len` is the local of this name. -/
inductive Pc (T : Type)
  | idle
  | pushLen (node : T)
  | pushWrite (node : T) (len : Nat)
  | pushCas (node : T) (len : Nat)
  | popLen
  | popCas (len : Nat)
  | popRead (len : Nat)

/-- What a call returned: `Ok(())` and `Err(node)` of `push`, `Ok` and `Err(())` of `pop`. -/
inductive Ret (T : Type)
  | pushed (node : T)
  | full (node : T)
  | popped (entry : Option T)
  | empty

structure State (T : Type) where
  guard : PtrGuard T
  pc : Tid → Pc T
  returns : List (Tid × Ret T)

inductive Act (T : Type)
  | push (i : Tid) (node : T)
  | pop (i : Tid)
  | run (i : Tid)

section
variable {T : Type}

def Act.tid : Act T → Tid
  | .push i _ | .pop i | .run i => i

def State.init (cap : Nat) : State T := ⟨.withThreads cap, fun _ => .idle, []⟩

def Ret.stored : Ret T → Option T
  | .pushed node => some node
  | _ => none

/-- The nodes of the pushes that returned `Ok`, in the order in which they did. -/
def State.stored (s : State T) : List T := s.returns.filterMap fun r => r.2.stored

def stepPc (g : PtrGuard T) : Pc T → Option (PtrGuard T × Pc T × Option (Ret T))
  | .idle => none
  -- `PtrGuard::push`
  | .pushLen node =>
    if g.len = g.cap then some (g, .idle, some (.full node)) else some (g, .pushWrite node g.len, none)
  | .pushWrite node len => some (g.write len node, .pushCas node len, none)
  | .pushCas node len => some (g.compareAndSwap len (len + 1), .idle, some (.pushed node))
  -- `PtrGuard::pop`
  | .popLen => if g.len = 0 then some (g, .idle, some .empty) else some (g, .popCas g.len, none)
  | .popCas len => some (g.compareAndSwap len (len - 1), .popRead len, none)
  | .popRead len => some (g, .idle, some (.popped (g.slot len)))

def State.put (s : State T) (i : Tid) (r : PtrGuard T × Pc T × Option (Ret T)) : State T :=
  ⟨r.1, Function.update s.pc i r.2.1, s.returns ++ r.2.2.toList.map fun ret => (i, ret)⟩

def Pc.isIdle : Pc T → Bool
  | .idle => true
  | _ => false

def State.enter (s : State T) (i : Tid) (pc : Pc T) : Option (State T) :=
  if (s.pc i).isIdle then some { s with pc := Function.update s.pc i pc } else none

def step (s : State T) : Act T → Option (State T)
  | .push i node => s.enter i (.pushLen node)
  | .pop i => s.enter i .popLen
  | .run i => (stepPc s.guard (s.pc i)).map (s.put i)

/-! ### The kinds of steps -/

inductive Move (g : PtrGuard T) : Pc T → PtrGuard T → Pc T → Option (Ret T) → Prop
  | enterPush (node) : Move g .idle g (.pushLen node) none
  | enterPop : Move g .idle g .popLen none
  | full (node) (h : g.len = g.cap) : Move g (.pushLen node) g .idle (some (.full node))
  | room (node) (h : g.len ≠ g.cap) : Move g (.pushLen node) g (.pushWrite node g.len) none
  | write (node len) : Move g (.pushWrite node len) (g.write len node) (.pushCas node len) none
  | pushed (node len) :
      Move g (.pushCas node len) (g.compareAndSwap len (len + 1)) .idle (some (.pushed node))
  | empty (h : g.len = 0) : Move g .popLen g .idle (some .empty)
  | some (h : g.len ≠ 0) : Move g .popLen g (.popCas g.len) none
  | popCas (len) : Move g (.popCas len) (g.compareAndSwap len (len - 1)) (.popRead len) none
  | popRead (len) : Move g (.popRead len) g .idle (some (.popped (g.slot len)))

variable {s s' : State T} {a : Act T} {g g' : PtrGuard T} {pc pc' : Pc T} {ret : Option (Ret T)} {i : Tid}
  {cap : Nat}

theorem eq_idle_of_isIdle (h : pc.isIdle = true) : pc = .idle := by
  cases pc <;> first | rfl | cases h

theorem enter_eq (h : s.enter i pc = some s') : s.pc i = .idle ∧ s' = s.put i (s.guard, pc, none) := by
  unfold State.enter at h
  split at h
  · rename_i hidle
    cases h
    refine ⟨eq_idle_of_isIdle hidle, ?_⟩
    simp [State.put]
  · cases h

theorem move_of_stepPc (h : stepPc g pc = some (g', pc', ret)) : Move g pc g' pc' ret := by
  cases pc <;> simp only [stepPc] at h
  case idle => cases h
  case pushLen node =>
    split at h <;> cases h
    · exact .full node ‹_›
    · exact .room node ‹_›
  case popLen =>
    split at h <;> cases h
    · exact .empty ‹_›
    · exact .some ‹_›
  all_goals
    cases h
    constructor

theorem move_of_step (h : step s a = some s') :
    ∃ g' pc' ret, Move s.guard (s.pc a.tid) g' pc' ret ∧ s' = s.put a.tid (g', pc', ret) := by
  cases a with
  | push i node =>
    obtain ⟨hi, rfl⟩ := enter_eq h
    exact ⟨_, _, _, by rw [Act.tid, hi]; exact .enterPush node, rfl⟩
  | pop i =>
    obtain ⟨hi, rfl⟩ := enter_eq h
    exact ⟨_, _, _, by rw [Act.tid, hi]; exact .enterPop, rfl⟩
  | run i =>
    obtain ⟨⟨g', pc', ret⟩, hs, rfl⟩ := Option.map_eq_some_iff.1 h
    exact ⟨g', pc', ret, move_of_stepPc hs, rfl⟩

/-! ### Bounds -/

/-- What a thread knows of the `len` it has loaded. -/
def Ok (cap : Nat) : Pc T → Prop
  | .pushWrite _ len | .pushCas _ len => len < cap
  | .popCas len | .popRead len => 1 ≤ len ∧ len ≤ cap
  | _ => True

structure Bounded (cap : Nat) (s : State T) : Prop where
  size : s.guard.cap = cap
  len : s.guard.len ≤ cap
  ok : ∀ i, Ok cap (s.pc i)

theorem bounded_init (cap : Nat) : Bounded cap (.init cap : State T) :=
  ⟨rfl, Nat.zero_le _, fun _ => trivial⟩

theorem Bounded.put (hb : Bounded cap s) (hcap : g'.cap = cap) (hlen : g'.len ≤ cap) (hok : Ok cap pc') :
    Bounded cap (s.put i (g', pc', ret)) :=
  ⟨hcap, hlen, (Function.forall_update_iff s.pc fun _ pc => Ok cap pc).2 ⟨hok, fun j _ => hb.ok j⟩⟩

theorem Bounded.cas (hb : Bounded cap s) {old new : Nat} (hnew : new ≤ cap) :
    (s.guard.compareAndSwap old new).len ≤ cap := by
  rw [PtrGuard.compareAndSwap_len]
  split
  · exact hnew
  · exact hb.len

theorem Bounded.move (hb : Bounded cap s) (hm : Move s.guard (s.pc i) g' pc' ret) :
    Bounded cap (s.put i (g', pc', ret)) := by
  have hok := hb.ok i
  have hcap := hb.size
  have hlen := hb.len
  generalize s.pc i = pc at *
  cases hm with
  | room node h => exact hb.put hcap hlen (show s.guard.len < cap by omega)
  | write node len => exact hb.put hcap hlen hok
  | pushed node len => exact hb.put ((PtrGuard.compareAndSwap_cap ..).trans hcap) (hb.cas hok) trivial
  | some h => exact hb.put hcap hlen ⟨by omega, hlen⟩
  | popCas len =>
    obtain ⟨hpos, hle⟩ : 1 ≤ len ∧ len ≤ cap := hok
    exact hb.put ((PtrGuard.compareAndSwap_cap ..).trans hcap) (hb.cas (by omega)) ⟨hpos, hle⟩
  | _ => exact hb.put hcap hlen trivial

theorem bounded_of_run {C : State T → Act T → Prop} (h : Run step C (.init cap) s) : Bounded cap s := by
  refine h.invariant (bounded_init cap) fun t a u hb _ hs => ?_
  obtain ⟨g', pc', ret, hm, rfl⟩ := move_of_step hs
  exact hb.move hm

structure InRange (cap : Nat) (s : State T) : Prop where
  len : 0 ≤ s.guard.len ∧ s.guard.len ≤ cap
  /-- The slot that a `push` is going to write to is one of the guard's. -/
  write : ∀ i node len, s.pc i = .pushWrite node len → len < cap
  /-- The `len - 1` of a `pop` does not underflow. -/
  sub : ∀ i len, s.pc i = .popCas len → 1 ≤ len

/-- `len` stays in its range, whatever pushes and pops do. -/
theorem in_range_of_run (h : Run step Any (.init cap : State T) s) : InRange cap s := by
  have hb := bounded_of_run h
  refine ⟨⟨Nat.zero_le _, hb.len⟩, fun i node len hi => ?_, fun i len hi => ?_⟩
  · have hok := hb.ok i
    rw [hi] at hok
    exact hok
  · have hok := hb.ok i
    rw [hi] at hok
    exact hok.1

/-- Two pops of the one node there is, and a push that starts when only the first has updated `len`. -/
def mixed : List (Act Nat) :=
  [.push 0 10, .run 0, .run 0, .run 0, .pop 0, .pop 1, .run 0, .run 1, .run 0, .push 2 20, .run 2, .run 1,
    .run 2, .run 2, .run 0, .run 1]

theorem mixed_in_range : ∃ s : State Nat, Run step Any (.init 1) s ∧ s.guard.len = 1 ∧ s.returns.length = 4 ∧
    InRange 1 s := by
  have hexec : (exec step Any (.init 1) mixed).map (fun s => (s.guard.len, s.returns.length)) = some (1, 4) := by
    decide
  obtain ⟨s, hrun, hs⟩ := Run.of_exec_map hexec
  simp only [Prod.mk.injEq] at hs
  exact ⟨s, hrun, hs.1, hs.2, in_range_of_run hrun⟩

/-! ### Slots that were written -/

/-- How far a thread knows the slots to be written: `len` moves on only behind a write. -/
def Pc.written : Pc T → Nat
  | .pushWrite _ len | .popCas len | .popRead len => len
  | .pushCas _ len => len + 1
  | _ => 0

structure Written (cap : Nat) (s : State T) : Prop where
  len : s.guard.Written s.guard.len
  pc : ∀ i, s.guard.Written (s.pc i).written
  behind : ∀ k, cap ≤ k → s.guard.slot k = none

theorem written_init (cap : Nat) : Written cap (.init cap : State T) :=
  ⟨fun _ hk => absurd hk (Nat.not_lt_zero _), fun _ _ hk => absurd hk (Nat.not_lt_zero _), fun _ _ => rfl⟩

theorem Written.put (hw : Written cap s) (hmono : ∀ k, s.guard.slot k ≠ none → g'.slot k ≠ none)
    (hlen : g'.Written g'.len) (hpc : g'.Written pc'.written) (hbehind : ∀ k, cap ≤ k → g'.slot k = none) :
    Written cap (s.put i (g', pc', ret)) := by
  refine ⟨hlen, (Function.forall_update_iff s.pc fun _ pc => g'.Written pc.written).2 ⟨hpc, fun j _ => ?_⟩, hbehind⟩
  exact fun k hk => hmono k (hw.pc j k hk)

theorem Written.same (hw : Written cap s) (hslot : g'.slot = s.guard.slot) (hlen : s.guard.Written g'.len)
    (hpc : s.guard.Written pc'.written) : Written cap (s.put i (g', pc', ret)) := by
  have hg : ∀ n, s.guard.Written n → g'.Written n := fun n hn k hk => by rw [hslot]; exact hn k hk
  exact hw.put (fun k hk => by rw [hslot]; exact hk) (hg _ hlen) (hg _ hpc) fun k hk => by
    rw [hslot]
    exact hw.behind k hk

theorem Written.move (hw : Written cap s) (hb : Bounded cap s) (hm : Move s.guard (s.pc i) g' pc' ret) :
    Written cap (s.put i (g', pc', ret)) := by
  have hok := hb.ok i
  have hpc := hw.pc i
  have hzero : s.guard.Written 0 := fun _ hk => absurd hk (Nat.not_lt_zero _)
  generalize s.pc i = pc at *
  cases hm with
  | write node len =>
    have hlt : len < cap := hok
    refine hw.put (fun k => PtrGuard.slot_write_ne_none) (fun k hk => PtrGuard.slot_write_ne_none (hw.len k hk))
      (fun k hk => ?_) fun k hk => ?_
    · rcases Nat.lt_succ_iff_lt_or_eq.1 hk with hk | rfl
      · exact PtrGuard.slot_write_ne_none (hpc k hk)
      · rw [PtrGuard.slot_write_self]
        exact Option.some_ne_none node
    · rw [PtrGuard.slot_write_of_ne (Nat.ne_of_gt (Nat.lt_of_lt_of_le hlt hk))]
      exact hw.behind k hk
  | pushed node len =>
    refine hw.same (PtrGuard.compareAndSwap_slot ..) ?_ hzero
    rw [PtrGuard.compareAndSwap_len]
    split
    · exact hpc
    · exact hw.len
  | popCas len =>
    refine hw.same (PtrGuard.compareAndSwap_slot ..) ?_ hpc
    rw [PtrGuard.compareAndSwap_len]
    split
    · exact fun k hk => hpc k (Nat.lt_of_lt_of_le hk (Nat.sub_le len 1))
    · exact hw.len
  | room node h => exact hw.same rfl hw.len hw.len
  | some h => exact hw.same rfl hw.len hw.len
  | _ => exact hw.same rfl hw.len hzero

theorem written_of_run {C : State T → Act T → Prop} (h : Run step C (.init cap) s) : Written cap s := by
  have hboth : Bounded cap s ∧ Written cap s := by
    refine h.invariant (P := fun s => Bounded cap s ∧ Written cap s) ⟨bounded_init cap, written_init cap⟩ ?_
    intro t a u ⟨hb, hw⟩ _ hs
    obtain ⟨g', pc', ret, hm, rfl⟩ := move_of_step hs
    exact ⟨hb.move hm, hw.move hb hm⟩
  exact hboth.2

/-! ### A call that nobody interrupts -/

def Ret.ofPush (node : T) : Except T Unit → Ret T
  | .ok () => .pushed node
  | .error node => .full node

def Ret.ofPop : Except Unit (Nat × Option T) → Ret T
  | .ok (_, entry) => .popped entry
  | .error () => .empty

theorem put_put {r r' : PtrGuard T × Pc T × Option (Ret T)} (hr : r.2.2 = none) :
    (s.put i r).put i r' = s.put i r' := by
  simp [State.put, hr]

theorem run_next {r : PtrGuard T × Pc T × Option (Ret T)} {t : State T}
    (h : Run step (fun _ a => a.tid = i) s (t.put i (g, pc, none))) (hs : stepPc g pc = some r) :
    Run step (fun _ a => a.tid = i) s (t.put i r) := by
  refine .tail (a := .run i) h rfl ?_
  have hpc : (t.put i (g, pc, none)).pc i = pc := Function.update_self ..
  rw [step, hpc]
  show (stepPc g pc).map _ = _
  rw [hs, Option.map_some, put_put rfl]

theorem run_enter (hi : s.pc i = .idle) (ha : a.tid = i) (hs : step s a = s.enter i pc) :
    Run step (fun _ a => a.tid = i) s (s.put i (s.guard, pc, none)) := by
  refine .single ha ?_
  rw [hs, State.enter, hi]
  simp [State.put, Pc.isIdle]

/-- Alone, the accesses of a `push` come to `PtrGuard.push`. -/
theorem push_alone (node : T) (hi : s.pc i = .idle) : Run step (fun _ a => a.tid = i) s
    (s.put i ((s.guard.push node).2, .idle, some (.ofPush node (s.guard.push node).1))) := by
  have hload := run_enter (a := .push i node) hi rfl rfl
  unfold PtrGuard.push
  split
  case isTrue hfull => exact run_next hload (if_pos hfull)
  case isFalse hroom =>
    have hwrite := run_next hload (if_neg hroom)
    exact run_next (run_next hwrite rfl) rfl

theorem pop_alone (hi : s.pc i = .idle) : Run step (fun _ a => a.tid = i) s
    (s.put i (s.guard.pop.2, .idle, some (.ofPop s.guard.pop.1))) := by
  have hload := run_enter (a := .pop i) hi rfl rfl
  unfold PtrGuard.pop
  split
  case isTrue hempty => exact run_next hload (if_pos hempty)
  case isFalse hsome =>
    have hread := run_next (run_next hload (if_neg hsome)) rfl
    have hslot : (s.guard.compareAndSwap s.guard.len (s.guard.len - 1)).slot = s.guard.slot :=
      PtrGuard.compareAndSwap_slot ..
    simpa [stepPc, hslot, Ret.ofPop] using run_next hread rfl

/-! ### Pushes only -/

def Pushing (_ : State T) : Act T → Prop
  | .pop _ => False
  | _ => True

instance (s : State T) : ∀ a : Act T, Decidable (Pushing s a)
  | .push _ _ => isTrue trivial
  | .pop _ => isFalse id
  | .run _ => isTrue trivial

/-- Not a `push` whose `compare_and_swap` is due on a `len` that has moved on. -/
def Pc.inTime (g : PtrGuard T) : Pc T → Bool
  | .pushCas _ len => g.len == len
  | _ => true

/-- The `compare_and_swap` of a push is made before any other has moved `len`. -/
def Timely (s : State T) (a : Act T) : Prop := Pushing s a ∧ (s.pc a.tid).inTime s.guard = true

instance (s : State T) (a : Act T) : Decidable (Timely s a) := inferInstanceAs (Decidable (_ ∧ _))

/-- Every node that was pushed is in the guard, in a slot of its own. -/
structure Kept (s : State T) : Prop where
  len : s.guard.len = s.stored.length
  slots : ∃ f : Fin s.stored.length → Nat, f.Injective ∧
    ∀ k, f k < s.guard.len ∧ s.guard.slot (f k) = some (s.stored.get k)

def Pc.filling : Pc T → Bool
  | .popLen | .popCas _ | .popRead _ => false
  | _ => true

def Filling (s : State T) : Prop := ∀ i, (s.pc i).filling = true

theorem filling_of_step (hf : Filling s) (hC : Pushing s a) (hs : step s a = some s') : Filling s' := by
  have hput : ∀ {g' pc' ret}, pc'.filling = true → Filling (s.put a.tid (g', pc', ret)) := fun h =>
    (Function.forall_update_iff s.pc fun _ pc => pc.filling = true).2 ⟨h, fun j _ => hf j⟩
  cases a with
  | pop i => exact hC.elim
  | push i node =>
    obtain ⟨-, rfl⟩ := enter_eq hs
    exact hput rfl
  | run i =>
    obtain ⟨⟨g', pc', ret⟩, hrun, rfl⟩ := Option.map_eq_some_iff.1 hs
    have hi := hf i
    have hm := move_of_stepPc hrun
    generalize s.pc i = pc at hi hrun hm
    cases hm with
    | enterPop => cases hrun
    | empty | some | popCas | popRead => cases hi
    | _ => exact hput rfl

theorem stored_put : (s.put i (g', pc', ret)).stored = s.stored ++ (ret.bind Ret.stored).toList := by
  unfold State.stored State.put
  rw [List.filterMap_append]
  rcases ret with _ | ret
  · rfl
  · cases ret <;> rfl

/-! ### No push is lost if each is in time -/

theorem count_of_step (hf : Filling s) (hs : step s a = some s') :
    s.stored.length + s'.guard.len + (if (s.pc a.tid).inTime s.guard then 0 else 1) =
      s'.stored.length + s.guard.len := by
  obtain ⟨g', pc', ret, hm, rfl⟩ := move_of_step hs
  have hi := hf a.tid
  rw [stored_put]
  show s.stored.length + g'.len + _ = _
  generalize s.pc a.tid = pc at hi hm
  cases hm with
  | popCas => cases hi
  | pushed node len =>
    rw [PtrGuard.compareAndSwap_len]
    by_cases hlen : s.guard.len = len
    · simp [Pc.inTime, Ret.stored, hlen]
      omega
    · simp [Pc.inTime, Ret.stored, hlen]
      omega
  | _ => simp [Pc.inTime, Ret.stored]

theorem exec_timely {t : State T} {l : List (Act T)} (hf : Filling s) (h : exec step Pushing s l = some t) :
    s.stored.length + t.guard.len ≤ t.stored.length + s.guard.len ∧
      (s.stored.length + t.guard.len = t.stored.length + s.guard.len → exec step Timely s l = some t) := by
  induction l generalizing s with
  | nil =>
    cases h
    exact ⟨Nat.le_refl _, fun _ => rfl⟩
  | cons a l ih =>
    simp only [exec] at h ⊢
    split at h
    case isFalse => cases h
    case isTrue hC =>
      obtain ⟨u, hu, h⟩ := Option.bind_eq_some_iff.1 h
      obtain ⟨hle, htimely⟩ := ih (filling_of_step hf hC hu) h
      have hcount := count_of_step hf hu
      split at hcount
      case isTrue hin =>
        refine ⟨by omega, fun heq => ?_⟩
        rw [if_pos ⟨hC, hin⟩, hu]
        exact htimely (by omega)
      -- One push is missing from here on.
      case isFalse => exact ⟨by omega, fun heq => by omega⟩

/-- `slot` and `cas` leave room for pushes that wrote to a slot when it was taken already. Such a push cannot
be in time any more. -/
structure Filled (s : State T) : Prop where
  filling : Filling s
  len : s.guard.len = s.stored.length
  write : ∀ i node len, s.pc i = .pushWrite node len → len ≤ s.guard.len
  cas : ∀ i node len, s.pc i = .pushCas node len → len ≤ s.guard.len
  slot : ∀ k < s.guard.len, s.guard.slot k = s.stored[k]? ∨ ∃ i node, s.pc i = .pushCas node k
  next : ∀ i node, s.pc i = .pushCas node s.guard.len →
    s.guard.slot s.guard.len = some node ∨ ∃ j node', j ≠ i ∧ s.pc j = .pushCas node' s.guard.len

theorem filled_init (cap : Nat) : Filled (.init cap : State T) where
  filling _ := rfl
  len := rfl
  write _ _ _ h := by cases h
  cas _ _ _ h := by cases h
  slot k hk := absurd hk (Nat.not_lt_zero k)
  next _ _ h := by cases h

theorem pc_put {j : Tid} {pc₀ : Pc T} (h : (s.put i (g', pc', ret)).pc j = pc₀) :
    (j = i ∧ pc' = pc₀) ∨ (j ≠ i ∧ s.pc j = pc₀) :=
  at_update (P := fun pc => pc = pc₀) h

theorem pc_of_put {j : Tid} {pc₀ : Pc T} (h : (s.put i (g', pc', ret)).pc j = pc₀) (hne : pc' ≠ pc₀) :
    s.pc j = pc₀ :=
  (of_update (P := fun pc => pc = pc₀) h hne).2

theorem cas_update {j : Tid} {node : T} {len : Nat} (hi : ∀ node len, s.pc i ≠ .pushCas node len)
    (h : s.pc j = .pushCas node len) : Function.update s.pc i pc' j = .pushCas node len := by
  rw [Function.update_of_ne, h]
  rintro rfl
  exact hi _ _ h

theorem Filled.load (hF : Filled s) (hf : Filling (s.put i (s.guard, pc', ret)))
    (hi : ∀ node len, s.pc i ≠ .pushCas node len) (hret : ret.bind Ret.stored = none)
    (hwrite : ∀ node len, pc' = .pushWrite node len → len = s.guard.len)
    (hcas : ∀ node len, pc' ≠ .pushCas node len) : Filled (s.put i (s.guard, pc', ret)) := by
  have hst : (s.put i (s.guard, pc', ret)).stored = s.stored := by rw [stored_put, hret]; simp
  refine ⟨hf, hst ▸ hF.len, fun j node len hj => ?_, fun j node len hj => ?_, fun k hk => ?_, fun j node hj => ?_⟩
  · rcases pc_put hj with ⟨-, hj⟩ | ⟨-, hj⟩
    · exact Nat.le_of_eq (hwrite node len hj)
    · exact hF.write j node len hj
  · exact hF.cas j node len (pc_of_put hj (hcas node len))
  · rw [hst]
    exact (hF.slot k hk).imp id fun ⟨j, node, hj⟩ => ⟨j, node, cas_update hi hj⟩
  · exact (hF.next j node (pc_of_put hj (hcas node _))).imp id
      fun ⟨m, node', hm, hj'⟩ => ⟨m, node', hm, cas_update hi hj'⟩

theorem Filled.write_slot {node : T} {len : Nat} (hF : Filled s)
    (hf : Filling (s.put i (s.guard.write len node, .pushCas node len, none)))
    (hi : s.pc i = .pushWrite node len) : Filled (s.put i (s.guard.write len node, .pushCas node len, none)) := by
  have hle := hF.write i node len hi
  have hcas : ∀ node len, s.pc i ≠ .pushCas node len := fun _ _ h => by rw [hi] at h; cases h
  have hself : Function.update s.pc i (.pushCas node len) i = .pushCas node len := Function.update_self ..
  have hst : (s.put i (s.guard.write len node, .pushCas node len, none)).stored = s.stored := by
    rw [stored_put]; simp
  have hslot : ∀ k, k ≠ len → (s.guard.write len node).slot k = s.guard.slot k := fun k hk =>
    Function.update_of_ne hk ..
  refine ⟨hf, hst ▸ hF.len, fun j node' len' hj => ?_, fun j node' len' hj => ?_, fun k hk => ?_,
    fun j node' hj => ?_⟩
  · exact hF.write j node' len' (pc_of_put hj (by rintro ⟨⟩))
  · rcases pc_put hj with ⟨-, hj⟩ | ⟨-, hj⟩
    · cases hj
      exact hle
    · exact hF.cas j node' len' hj
  · by_cases hkl : k = len
    · exact .inr ⟨i, node, hkl ▸ hself⟩
    · rw [hst]
      show (s.guard.write len node).slot k = _ ∨ _
      rw [hslot k hkl]
      exact (hF.slot k hk).imp id fun ⟨j, node', hj⟩ => ⟨j, node', cas_update hcas hj⟩
  · show (s.guard.write len node).slot s.guard.len = some node' ∨ _
    rcases pc_put hj with ⟨-, hj⟩ | ⟨hji, hj⟩
    · obtain ⟨rfl, hlen⟩ := Pc.pushCas.inj hj
      exact .inl (hlen ▸ Function.update_self ..)
    · by_cases hlen : s.guard.len = len
      · exact .inr ⟨i, node, hji.symm, hlen ▸ hself⟩
      · rw [hslot _ hlen]
        exact (hF.next j node' hj).imp id fun ⟨m, node', hm, hj'⟩ => ⟨m, node', hm, cas_update hcas hj'⟩

theorem Filled.cas_len {node : T} (hF : Filled s)
    (hf : Filling (s.put i (s.guard.compareAndSwap s.guard.len (s.guard.len + 1), .idle, some (.pushed node))))
    (hi : s.pc i = .pushCas node s.guard.len) :
    Filled (s.put i (s.guard.compareAndSwap s.guard.len (s.guard.len + 1), .idle, some (.pushed node))) := by
  have hst : (s.put i (s.guard.compareAndSwap s.guard.len (s.guard.len + 1), .idle, some (.pushed node))).stored =
      s.stored ++ [node] := stored_put
  have hcas : s.guard.compareAndSwap s.guard.len (s.guard.len + 1) = { s.guard with len := s.guard.len + 1 } :=
    if_pos rfl
  rw [hcas] at hf hst ⊢
  refine ⟨hf, ?_, fun j node' len hj => ?_, fun j node' len hj => ?_, fun k hk => ?_, fun j node' hj => ?_⟩
  · rw [hst, List.length_append, ← hF.len]
    rfl
  · exact Nat.le_succ_of_le (hF.write j node' len (pc_of_put hj (by rintro ⟨⟩)))
  · exact Nat.le_succ_of_le (hF.cas j node' len (pc_of_put hj (by rintro ⟨⟩)))
  · rw [hst]
    show s.guard.slot k = _ ∨ _
    rcases Nat.lt_succ_iff_lt_or_eq.1 hk with hk | rfl
    · rw [List.getElem?_append_left (hF.len ▸ hk)]
      refine (hF.slot k hk).imp id fun ⟨j, node', hj⟩ => ⟨j, node', ?_⟩
      refine (Function.update_of_ne ?_ ..).trans hj
      rintro rfl
      rw [hi] at hj
      cases hj
      omega
    · rw [hF.len, List.getElem?_concat_length, ← hF.len]
      exact (hF.next i node hi).imp id fun ⟨j, node', hji, hj⟩ =>
        ⟨j, node', (Function.update_of_ne hji ..).trans hj⟩
  · have hle : s.guard.len + 1 ≤ s.guard.len := hF.cas j node' _ (pc_of_put hj (by rintro ⟨⟩))
    omega

theorem Filled.step (hF : Filled s) (hC : Timely s a) (hs : Shared.step s a = some s') : Filled s' := by
  have hf := filling_of_step hF.filling hC.1 hs
  obtain ⟨g', pc', ret, hm, rfl⟩ := move_of_step hs
  have hi := hF.filling a.tid
  have hin := hC.2
  generalize hpc : s.pc a.tid = pc at hi hin hm
  cases hm with
  | popCas | popRead => cases hi
  | write node len => exact hF.write_slot hf hpc
  | pushed node len =>
    obtain rfl : s.guard.len = len := of_decide_eq_true hin
    exact hF.cas_len hf hpc
  | _ =>
    refine hF.load hf (fun _ _ h => ?_) rfl (fun _ _ h => ?_) fun _ _ h => ?_
    · cases hpc.symm.trans h
    · cases h <;> rfl
    · cases h

theorem filled_of_run (h : Run step Timely (.init cap) s) : Filled s :=
  h.invariant (filled_init cap) fun _ _ _ hF hC hs => hF.step hC hs

theorem Filled.kept (hF : Filled s) (hidle : ∀ i, s.pc i = .idle) : Kept s := by
  refine ⟨hF.len, fun k => k, fun j k h => Fin.ext h, fun k => ?_⟩
  have hk : k < s.guard.len := by rw [hF.len]; exact k.isLt
  refine ⟨hk, ?_⟩
  rcases hF.slot k hk with hslot | ⟨i, node, hi⟩
  · rw [hslot]
    exact List.getElem?_eq_getElem k.isLt
  · cases (hidle i).symm.trans hi

/-- The pushes of a schedule are all kept exactly when each of them is in time. -/
theorem kept_iff_timely {l : List (Act T)} (h : exec step Pushing (.init cap) l = some s)
    (hidle : ∀ i, s.pc i = .idle) : Kept s ↔ exec step Timely (.init cap) l = some s := by
  constructor
  · intro hk
    refine (exec_timely (fun _ => rfl) h).2 ?_
    rw [hk.len]
    exact Nat.add_comm _ _
  · intro ht
    exact (filled_of_run (.of_exec ht)).kept hidle

end

/-- Two pushes one after the other. -/
def inTurn : List (Act Nat) :=
  [.push 0 10, .run 0, .run 0, .run 0, .push 1 20, .run 1, .run 1, .run 1]

theorem in_turn_kept : ∃ s : State Nat, exec step Pushing (.init 2) inTurn = some s ∧
    exec step Timely (.init 2) inTurn = some s ∧ s.guard.len = 2 ∧ Kept s := by
  obtain ⟨s, hs, htimely, hlen, hidle⟩ : ∃ s : State Nat, exec step Pushing (.init 2) inTurn = some s ∧
      exec step Timely (.init 2) inTurn = some s ∧ s.guard.len = 2 ∧ ∀ i, s.pc i = .idle := by
    refine ⟨_, rfl, rfl, rfl, fun i => ?_⟩
    rcases i with _ | _ | i <;> rfl
  exact ⟨s, hs, htimely, hlen, (kept_iff_timely hs hidle).2 htimely⟩

/-- Two pushes of which the second loads `len` before the first has updated it. -/
def atOnce : List (Act Nat) :=
  [.push 0 10, .push 1 20, .run 0, .run 1, .run 0, .run 1, .run 0, .run 1]

/-- Both pushes return `Ok`, and one node is left. -/
theorem late_push_lost : ¬∀ (cap : Nat) (l : List (Act Nat)) (s : State Nat),
    exec step Pushing (.init cap) l = some s → (∀ i, s.pc i = .idle) → Kept s := by
  intro h
  have hlen := (h 2 atOnce _ rfl fun i => by rcases i with _ | _ | i <;> rfl).len
  exact absurd hlen (by decide)

end CoQueue.Shift.Shared
