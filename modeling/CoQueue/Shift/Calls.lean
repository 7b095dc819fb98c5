import Mathlib.Logic.Equiv.Basic
import CoQueue.Shift.Sequential

/-!
# Calls that do not overlap, and `RawQueue::drop`

Any number of threads make calls, but each call runs to its end before the next one starts, and in the
end one thread drops the queue. Who makes a call has no influence on it: two states that differ only in
the names of their threads and in who is noted for a return take the same steps (`Alike`), so a run of
this kind does what thread `0` does with the same calls. Dropping the queue is a run of `try_pop`s up to the
first `None` (`drain_eq_calls`), and one more node freed.

`Served` follows the calls of thread `0` from one state at rest to the next, with what each call left
behind (`Done`).
-/

namespace CoQueue.Shift

open Linked Schedule

section
variable {V : Type} {s s' t : State V} {i j : Tid} {n k : Nat} {e e' : Equiv.Perm Tid} {op : Op V}
  {ops : List (Op V)} {q : List V}

def Op.actBy (i : Tid) (addr : Addr) : Op V → Act V
  | .push val => .push i val addr
  | .tryPop => .tryPop i
  | .isEmpty => .isEmpty i

/-- A call by thread `i`, given `n` steps; `none` when it has not returned then. -/
def State.callBy (n : Nat) (s : State V) (i : Tid) (op : Op V) : Option (State V) :=
  (step s (op.actBy i s.mem.fresh)).bind fun t =>
    let u := follow (fun s => step s (.run i)) n t
    if u.pc i = .idle then some u else none

def State.callsBy (n : Nat) : State V → List (Tid × Op V) → Option (State V)
  | s, [] => some s
  | s, c :: l => (s.callBy n c.1 c.2).bind fun t => t.callsBy n l

/-- What the last call returned. -/
def Hist.result (h : Hist V) : Option (Ret V) := (h.returns.map Prod.snd).getLast?

/-- `while let Some(_) = self.try_pop() {}`, at most `k` times round. -/
def State.drain (n : Nat) (i : Tid) : Nat → State V → Option (State V)
  | 0, _ => none
  | k + 1, s => (s.callBy n i .tryPop).bind fun t =>
      match t.hist.result with
      | some (.tryPop (some _)) => t.drain n i k
      | _ => some t

/-- `RawQueue::drop` by thread `i`: behind the loop, `drop(head.into_owned())`. The fields have no `Drop` of
their own, `PtrGuard` and `Atomic` no more than `Mootex`: nothing that they hold is freed. -/
def State.dropQueue (n : Nat) (i : Tid) (s : State V) : Option (State V) :=
  (s.drain n i n).map fun t => { t with mem := { t.mem with freed := t.mem.freed ++ [t.mem.head] } }

/-! ### Names of threads -/

/-- Thread `e j` of `s'` is where thread `j` of `s` is; else the states agree but for the names noted with
the returns. -/
structure Alike (e : Equiv.Perm Tid) (s s' : State V) : Prop where
  mem : s'.mem = s.mem
  pc : ∀ j, s'.pc (e j) = s.pc j
  linked : s'.hist.linked = s.hist.linked
  claims : s'.hist.claims = s.hist.claims
  returns : s'.hist.returns.map Prod.snd = s.hist.returns.map Prod.snd

theorem Alike.refl (s : State V) : Alike (.refl _) s s := ⟨rfl, fun _ => rfl, rfl, rfl, rfl⟩

theorem Alike.of_idle (h : Alike e s s') (hidle : ∀ j, s.pc j = .idle) : Alike e' s s' := by
  refine ⟨h.mem, fun j => ?_, h.linked, h.claims, h.returns⟩
  have hpc := h.pc (e.symm (e' j))
  rw [Equiv.apply_symm_apply] at hpc
  rw [hpc, hidle, hidle]

theorem Alike.pc_update (h : Alike e s s') (pc : Pc) (j : Tid) :
    Function.update s'.pc (e i) pc (e j) = Function.update s.pc i pc j := by
  by_cases hj : j = i
  · subst j; rw [Function.update_self, Function.update_self]
  · rw [Function.update_of_ne hj, Function.update_of_ne (fun h => hj (e.injective h)), h.pc j]

theorem Alike.enter (h : Alike e s s') (m : Mem V) (pc : Pc) :
    Option.Rel (Alike e) (s.enter i m pc) (s'.enter (e i) m pc) := by
  unfold State.enter
  rw [h.pc i]
  split
  · exact .some ⟨rfl, h.pc_update pc, h.linked, h.claims, h.returns⟩
  · exact .none

theorem Alike.call (h : Alike e s s') (op : Op V) :
    Option.Rel (Alike e) (step s (op.actBy i s.mem.fresh)) (step s' (op.actBy (e i) s'.mem.fresh)) := by
  cases op with
  | push val =>
    simp only [Op.actBy, step, h.mem]
    split
    · exact .none
    · exact h.enter _ _
  | tryPop | isEmpty =>
    simp only [Op.actBy, step, h.mem]
    exact h.enter _ _

theorem Alike.run (h : Alike e s s') :
    Option.Rel (Alike e) (step s (.run i)) (step s' (.run (e i))) := by
  simp only [step, h.mem, h.pc i]
  cases stepPc s.mem (s.pc i) with
  | none => exact .none
  | some r =>
    obtain ⟨m, pc, ev⟩ := r
    refine .some ⟨rfl, h.pc_update pc, ?_, ?_, ?_⟩
    · cases ev <;> simp [State.put, Hist.log, h.linked]
    · cases ev <;> simp [State.put, Hist.log, h.claims]
    · cases ev <;> simp [State.put, Hist.log, h.returns]

theorem Alike.callBy (h : Alike e s s') (op : Op V) :
    Option.Rel (Alike e) (s.callBy n i op) (s'.callBy n (e i) op) := by
  refine rel_bind (h.call (i := i) op) fun t t' _ ht => ?_
  have hu := rel_follow (fun _ _ h => h.run (i := i)) ht n
  simp only [hu.pc i]
  split
  · exact .some hu
  · exact .none

theorem follow_pc (hj : j ≠ i) (n : Nat) (s : State V) :
    (follow (fun s => step s (.run i)) n s).pc j = s.pc j := by
  refine follow_invariant (P := fun t : State V => t.pc j = s.pc j) (fun t u ht hs => ?_) rfl n
  rw [step_pc_of_ne hs hj.symm, ht]

theorem callBy_idle (hidle : ∀ j, s.pc j = .idle) (h : s.callBy n i op = some t) (j : Tid) :
    t.pc j = .idle := by
  obtain ⟨u, hu, h⟩ := Option.bind_eq_some_iff.1 h
  simp only at h
  split at h <;> cases h
  by_cases hj : j = i
  · rw [hj]; assumption
  · rw [follow_pc hj, step_pc_of_ne hu (by cases op <;> exact Ne.symm hj)]
    exact hidle j

theorem callBy_zero (n : Nat) (s : State V) (op : Op V) : s.callBy n 0 op = s.call n op := by
  cases op <;> rfl

theorem Alike.rest (h : Alike (.refl _) s s') (hidle : ∀ j, s.pc j = .idle) (i : Tid) (op : Op V) :
    Option.Rel (Alike (.refl _)) (s.callBy n i op) (s'.call n op) := by
  have hswap : Alike (Equiv.swap i 0) s s' := h.of_idle hidle
  have hr := hswap.callBy (n := n) (i := i) op
  rw [Equiv.swap_apply_left, callBy_zero] at hr
  exact rel_imp hr fun t t' hs ht => ht.of_idle (callBy_idle hidle hs)

theorem Alike.calls (h : Alike (.refl _) s s') (hidle : ∀ j, s.pc j = .idle) (l : List (Tid × Op V)) :
    Option.Rel (fun t t' => Alike (.refl _) t t' ∧ ∀ j, t.pc j = .idle) (s.callsBy n l)
      (s'.calls n (l.map Prod.snd)) := by
  induction l generalizing s s' with
  | nil => exact .some ⟨h, hidle⟩
  | cons c l ih =>
    exact rel_bind (h.rest hidle c.1 c.2) fun t t' hs ht => ih ht (callBy_idle hidle hs)

theorem Alike.result (h : Alike e s s') : s'.hist.result = s.hist.result := by
  unfold Hist.result; rw [h.returns]

theorem Alike.drain (h : Alike (.refl _) s s') (hidle : ∀ j, s.pc j = .idle) (k : Nat) :
    Option.Rel (Alike (.refl _)) (s.drain n i k) (s'.drain n 0 k) := by
  induction k generalizing s s' with
  | zero => exact .none
  | succ k ih =>
    simp only [State.drain, callBy_zero]
    refine rel_bind (h.rest hidle i .tryPop) fun t t' hs ht => ?_
    rw [ht.result]
    split
    · exact ih ht (callBy_idle hidle hs)
    · exact .some ht

theorem Alike.filterMap_returns {β : Type} {f : Tid × Ret V → Option β} (h : Alike e s s')
    (hf : ∀ i r, f (i, r) = f (0, r)) : s'.hist.returns.filterMap f = s.hist.returns.filterMap f := by
  have hsnd : ∀ l : List (Tid × Ret V), l.filterMap f = (l.map Prod.snd).filterMap fun r => f (0, r) := by
    intro l
    rw [List.filterMap_map]
    exact List.filterMap_congr fun r _ => hf r.1 r.2
  rw [hsnd, hsnd, h.returns]

theorem Alike.popped (h : Alike e s s') : s'.hist.popped = s.hist.popped :=
  h.filterMap_returns fun _ r => by cases r <;> rfl

/-! ### Thread `0`, call by call -/

/-- The calls lead from the state `s` at rest, with the values `q` behind `head`, to `t` with `r`. -/
inductive Served : State V → List V → List (Op V) → State V → List V → Prop
  | nil {s : State V} {q : List V} (hR : Rest s q) : Served s q [] s q
  | cons {s t u : State V} {q q' r : List V} {op : Op V} {ops : List (Op V)} (hR : Rest s q)
      (hd : Done s op t.mem t.hist) (hcap : t.mem.popGuard.cap = s.mem.popGuard.cap)
      (h : Served t q' ops u r) : Served s q (op :: ops) u r

section
variable {u : State V} {l l' : List (Op V)} {q' r : List V} {rs : Res V}

theorem Served.start (h : Served s q l t r) : Rest s q := by
  cases h with
  | nil hR => exact hR
  | cons hR => exact hR

theorem Served.rest (h : Served s q l t r) : Rest t r := by
  induction h with
  | nil hR => exact hR
  | cons _ _ _ _ ih => exact ih

theorem Served.cap (h : Served s q l t r) : t.mem.popGuard.cap = s.mem.popGuard.cap := by
  induction h with
  | nil => rfl
  | cons _ _ hcap _ ih => exact ih.trans hcap

theorem Served.trans (h : Served s q l t q') (h' : Served t q' l' u r) : Served s q (l ++ l') u r := by
  induction h with
  | nil => exact h'
  | cons hR hd hcap _ ih => exact .cons hR hd hcap (ih h')

theorem Rest.served (hR : Rest s q) (h : s.mem.popGuard.cap ≠ 0 ∨ takesNone q ops = true) :
    ∃ t, (∃ r, Served s q ops t r) ∧ ∃ N, ∀ n, N ≤ n → s.calls n ops = some t := by
  refine hR.calls_rec (P := fun s q ops t => ∃ r, Served s q ops t r) ?_ ?_ h
  · intro s q hR
    exact ⟨q, .nil hR⟩
  · rintro s q op ops _ q' u t w hR hret - ⟨r, hserved⟩
    exact ⟨r, .cons hR hret.done hret.cap hserved⟩

theorem calls_append (s : State V) (l l' : List (Op V)) :
    s.calls n (l ++ l') = (s.calls n l).bind fun t => t.calls n l' := by
  induction l generalizing s with
  | nil => rfl
  | cons op l ih =>
    simp only [List.cons_append, State.calls, Option.bind_assoc]
    cases s.call n op with
    | none => rfl
    | some t => exact ih t

/-- Calls of any threads that do not overlap do what thread `0` does with them. -/
theorem callsBy_served {threads : Nat} {l : List (Tid × Op V)}
    (h : threads ≠ 0 ∨ popsAfterPush (l.map Prod.snd) = false) :
    ∃ t r, Served (.init threads : State V) [] (l.map Prod.snd) t r ∧ ∃ N, ∀ n, N ≤ n →
      ∃ s, (State.init threads).callsBy n l = some s ∧ Alike (.refl _) s t ∧ ∀ j, s.pc j = .idle := by
  have htake : threads ≠ 0 ∨ takesNone [] (l.map Prod.snd) = true :=
    h.imp_right fun h => by simp [takesNone, h]
  obtain ⟨t, ⟨r, hserved⟩, N, hN⟩ := (rest_init (V := V) threads).served htake
  refine ⟨t, r, hserved, N, fun n hn => ?_⟩
  have hr := (Alike.refl (State.init (V := V) threads)).calls (n := n) (fun _ => rfl) l
  rw [hN n hn] at hr
  exact rel_some_left hr

/-! ### Draining -/

theorem Returns.result (h : Returns s op rs q u t) : t.hist.result.map Ret.res = some rs := by
  have hret := congrArg List.getLast? h.returned
  rw [List.getLast?_concat] at hret
  rw [Hist.result, ← List.getLast?_map, List.map_map]
  exact hret

/-- Draining a queue of `q` takes one `try_pop` more than `q` is long. -/
theorem Rest.drain (hR : Rest s q) (h : s.mem.popGuard.cap ≠ 0 ∨ q = []) :
    ∃ t, Served s q (List.replicate (q.length + 1) .tryPop) t [] ∧
      ∃ N, ∀ n k, N ≤ n → q.length < k → s.drain n 0 k = some t := by
  induction q generalizing s with
  | nil =>
    obtain ⟨u, t, hret⟩ := hR.tryPop_nil
    obtain ⟨N, hN⟩ := hret.call
    refine ⟨t, .cons hR hret.done hret.cap (.nil hret.rest), N, fun n k hn hk => ?_⟩
    obtain ⟨k, rfl⟩ := Nat.exists_eq_succ_of_ne_zero (Nat.ne_of_gt hk)
    simp only [State.drain, callBy_zero, hN n hn, Option.bind_some]
    have hres := hret.result
    split
    · rename_i heq
      rw [heq] at hres
      cases hres
    · rfl
  | cons v q ih =>
    have hcap := h.resolve_right (List.cons_ne_nil v q)
    obtain ⟨u, t, hret⟩ := hR.tryPop_cons hcap
    obtain ⟨N₁, h₁⟩ := hret.call
    obtain ⟨w, hserved, N₂, h₂⟩ := ih hret.rest (.inl (by rw [hret.cap]; exact hcap))
    refine ⟨w, .cons hR hret.done hret.cap hserved, max N₁ N₂, fun n k hn hk => ?_⟩
    obtain ⟨k, rfl⟩ := Nat.exists_eq_succ_of_ne_zero (Nat.ne_of_gt (Nat.lt_of_le_of_lt (Nat.zero_le _) hk))
    simp only [State.drain, callBy_zero, h₁ n (by omega), Option.bind_some]
    have hres := hret.result
    split
    · exact h₂ n k (by omega) (Nat.lt_of_succ_lt_succ hk)
    · rename_i hno
      cases hr : t.hist.result with
      | none => rw [hr] at hres; cases hres
      | some ret =>
        rw [hr] at hres
        cases ret with
        | tryPop o =>
          cases o with
          | none => cases hres
          | some p => exact absurd hr (hno p)
        | _ => cases hres

theorem drain_eq_calls (h : s.drain n 0 k = some t) :
    ∃ j, s.calls n (List.replicate (j + 1) .tryPop) = some t := by
  induction k generalizing s with
  | zero => cases h
  | succ k ih =>
    obtain ⟨u, hu, h⟩ := Option.bind_eq_some_iff.1 h
    rw [callBy_zero] at hu
    split at h
    · obtain ⟨j, hj⟩ := ih h
      refine ⟨j + 1, ?_⟩
      rw [List.replicate_succ, State.calls, hu]
      exact hj
    · cases h
      refine ⟨0, ?_⟩
      rw [List.replicate_one, State.calls, hu]
      rfl

end

end

end CoQueue.Shift
