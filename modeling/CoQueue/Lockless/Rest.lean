import CoQueue.Lockless.Linear

/-!
# No call in progress

A push that has claimed a slot is the only one that can return it, and it returns it once (`Brought`), as
it is with pops and the positions they claim. So when all threads are idle every claim has been returned:
the calls that have returned are the claims in some order, and every slot below `tail` has been written.
Both indices are off the phantom positions then, since whoever moved one there is under way.
-/

namespace CoQueue.Lockless

open Schedule Token

variable {V : Type} {s : State V} {m' : Mem V} {pc pc' : Pc V} {ev : Event V} {i : Tid} {p : Nat}

/-! ### Who brings the value of a slot -/

/-- The position that a push has claimed and not returned yet. -/
def Pc.brings : Pc V → Option Nat
  | .pushTailChunk _ t _ _ | .pushTailIndex _ t _ _ | .pushNext _ t _ _ | .pushWrite _ t _
  | .pushFlag t _ => some (position t)
  | _ => none

/-- The positions of the pushes that have returned. -/
def Hist.pushed (h : Hist V) : List Nat :=
  h.returns.filterMap fun
    | (_, .push p) => some p
    | _ => none

def Brought (s : State V) : Prop :=
  Custody (s.hist.pushes.map Prod.fst) s.hist.pushed fun i => (s.pc i).brings

theorem pushed_push (h : Hist V) (i : Tid) (p : Nat) :
    (h.log i (.returned (.push p))).pushed = h.pushed ++ [p] := by
  simp [Hist.log, Hist.pushed]

theorem pushed_pop (h : Hist V) (i : Tid) (r : Option (Nat × V)) :
    (h.log i (.returned (.pop r))).pushed = h.pushed := by
  simp [Hist.log, Hist.pushed]

theorem brings_destroyLoop {h : Nat} {c : ChunkId} {v : V} {k : Nat} :
    (destroyLoop h c v k).brings = none := by
  unfold destroyLoop
  split <;> rfl

theorem brings_popTry {h h' : Nat} (o : Option ChunkId) : (popTry h h' o : Pc V).brings = none := by
  cases o <;> rfl

theorem Brought.keep (hb : Brought s) (hpc : s.pc i = pc) (hbrings : pc'.brings = pc.brings)
    (hpushes : (s.hist.log i ev).pushes = s.hist.pushes)
    (hpushed : (s.hist.log i ev).pushed = s.hist.pushed) : Brought (s.put i (m', pc', ev)) := by
  show Custody ((s.hist.log i ev).pushes.map Prod.fst) (s.hist.log i ev).pushed _
  rw [hpushes, hpushed]
  exact hb.keep_update (F := Pc.brings) (by rw [hpc, hbrings])

theorem Brought.claim {t : Nat} {v : V} (hb : Brought s) (hl : Counted s) (hpc : s.pc i = pc)
    (hnone : pc.brings = none) (ht : s.mem.tailIndex = t) (hsome : pc'.brings = some (position t)) :
    Brought (s.put i (m', pc', .pushed (position t) v)) := by
  have hnew : position t ∉ s.hist.pushes.map Prod.fst := by
    rw [hl.pushes, ht, mem_slots]; omega
  show Custody ((s.hist.pushes ++ [(position t, v)]).map Prod.fst) s.hist.pushed _
  rw [List.map_append]
  exact hb.take_update (F := Pc.brings) (by rw [hpc, hnone]) hsome hnew

theorem Brought.return {t : Nat} (hb : Brought s) (hpc : s.pc i = pc)
    (hsome : pc.brings = some (position t)) (hnone : pc'.brings = none) :
    Brought (s.put i (m', pc', .returned (.push (position t)))) := by
  show Custody (s.hist.pushes.map Prod.fst) (s.hist.log i _).pushed _
  rw [pushed_push]
  exact hb.give_update (F := Pc.brings) (by rw [hpc, hsome]) hnone

theorem Brought.move (hi : Inv s) (hb : Brought s) (hpc : s.pc i = pc) (hm : Move s.mem pc m' pc' ev) :
    Brought (s.put i (m', pc', ev)) := by
  cases hm with
  | pushClaimLast v t c n ht ho | pushClaim v n t c ht ho => exact hb.claim hi.counted hpc rfl ht rfl
  | pushClaimNone v t c ht ho =>
    have hok := hi.placed.ok i
    rw [hpc] at hok
    exact absurd rfl (hok.2.2.2.1 ho)
  | pushFlag t c => exact hb.return hpc rfl rfl
  | popEmpty h c ht | dealloc h c v | popFlag h c v hd | destroyFlag h c v k hr =>
    exact hb.keep hpc rfl rfl (pushed_pop _ _ _)
  | popFlagged h ho hf | popAhead h c ht hl | popSame h c ht hl =>
    exact hb.keep hpc (brings_popTry _) rfl rfl
  | popFlagDestroy h c v hd | destroySkip h c v k hr | destroyNext h c v k hr =>
    exact hb.keep hpc brings_destroyLoop rfl rfl
  | _ => exact hb.keep hpc rfl rfl rfl

theorem brought_init : Brought (.init : State V) :=
  ⟨fun _ => ⟨none, decide_eq_false fun h => List.not_mem_nil h.1, fun _ => rfl⟩, List.nodup_nil, nofun⟩

theorem brought_of_run {C : State V → Act V → Prop} (h : Run step C .init s) : Brought s :=
  holds_of_run h brought_init fun hi hb hm => hb.move hi rfl hm

/-! ### All calls have returned -/

def AtRest (s : State V) : Prop := ∀ i, s.pc i = .idle

theorem Inv.tail_offset (hi : Inv s) (hr : AtRest s) : offset s.mem.tailIndex ≠ chunkCap :=
  of_decide_eq_false (hi.placed.tailHeld.eq_false fun i => by rw [hr i]; rfl)

theorem Inv.head_offset (hi : Inv s) (hr : AtRest s) : offset s.mem.headIndex ≠ chunkCap :=
  of_decide_eq_false (hi.placed.headHeld.eq_false fun i => by rw [hr i]; rfl)

theorem Inv.headChunk (hi : Inv s) (hr : AtRest s) (hc : s.hist.chain ≠ []) : s.mem.headChunk ≠ none := by
  have hfirst := of_decide_eq_false (hi.placed.firstHeld.eq_false fun i => by rw [hr i]; rfl)
  exact fun hn => hfirst ⟨hn, hc⟩

theorem Inv.pushed_perm (hi : Inv s) (hb : Brought s) (hr : AtRest s) :
    s.hist.pushed.Perm (slots (position s.mem.tailIndex)) := by
  rw [← hi.counted.pushes]
  refine hb.perm (fun i => by rw [hr i]; rfl) ?_
  rw [hi.counted.pushes]
  exact nodup_slots _

theorem Inv.popped_perm (hi : Inv s) (hr : AtRest s) :
    (s.hist.popped.map Prod.fst).Perm (slots (position s.mem.headIndex)) := by
  rw [← hi.counted.pops]
  refine (taken_iff.1 hi.taken).perm (fun i => by rw [hr i]; rfl) ?_
  rw [hi.counted.pops]
  exact nodup_slots _

theorem Inv.push_returned (hi : Inv s) (hb : Brought s) (hr : AtRest s)
    (hp : p ∈ slots (position s.mem.tailIndex)) : ∃ j, (j, Ret.push p) ∈ s.hist.returns := by
  obtain ⟨⟨j, r⟩, hret, hmatch⟩ := List.mem_filterMap.1 ((hi.pushed_perm hb hr).symm.subset hp)
  cases r with
  | push q =>
    obtain rfl : q = p := Option.some.inj hmatch
    exact ⟨j, hret⟩
  | pop r => cases hmatch

/-- Every slot below `tail` has been written by then. -/
theorem Inv.filled (hi : Inv s) (hb : Brought s) (hr : AtRest s) (hp : p ∈ slots (position s.mem.tailIndex)) :
    Filled s.mem s.hist.chain p := by
  obtain ⟨j, hret⟩ := hi.push_returned hb hr hp
  exact hi.ready.filled j p hret

/-! ### One thread -/

def Act.tid : Act V → Tid
  | .push i _ | .pop i | .run i _ => i

theorem step_pc_of_ne {s' : State V} {a : Act V} {j : Tid} (hs : step s a = some s') (hj : j ≠ a.tid) :
    s'.pc j = s.pc j := by
  cases a with
  | push i v =>
    obtain ⟨-, rfl⟩ := enter_eq hs
    exact Function.update_of_ne hj _ _
  | pop i =>
    obtain ⟨-, rfl⟩ := enter_eq hs
    exact Function.update_of_ne hj _ _
  | run i b =>
    obtain ⟨r, -, rfl⟩ := Option.map_eq_some_iff.1 hs
    exact Function.update_of_ne hj _ _

theorem eq_idle_of_isIdle (h : pc.isIdle = true) : pc = .idle := by
  cases pc <;> first | rfl | cases h

theorem atRest_of_sole (h : Run step (fun _ a => a.tid = i) .init s) (hi : (s.pc i).isIdle = true) :
    AtRest s := by
  have hothers : ∀ j, j ≠ i → s.pc j = .idle := by
    refine h.invariant (P := fun s => ∀ j, j ≠ i → s.pc j = .idle) (fun _ _ => rfl) ?_
    intro t a u ht ha hs j hj
    rw [step_pc_of_ne hs (by rw [ha]; exact hj)]
    exact ht j hj
  intro j
  by_cases hj : j = i
  · subst hj; exact eq_idle_of_isIdle hi
  · exact hothers j hj

/-- Thread `i` makes a call and takes `n` steps of it. -/
def partCall (i : Tid) (a : Act Nat) (n : Nat) : List (Act Nat) := a :: List.replicate n (.run i false)

/-- One thread pushes a chunk full of values and one more, and pops one. -/
def settleSchedule : List (Act Nat) :=
  partCall 0 (.push 0 1) 7 ++ (List.replicate 29 (partCall 0 (.push 0 7) 5)).flatten ++
    partCall 0 (.push 0 8) 8 ++ partCall 0 (.push 0 9) 5 ++ partCall 0 (.pop 0) 7

theorem settled_run : ∃ s : State Nat, Run step Any .init s ∧ AtRest s ∧
    s.hist.pushed = List.range 31 ++ [32] ∧ s.hist.popped = [(0, 1)] := by
  have hexec : (exec step (fun _ a => a.tid = 0) .init settleSchedule).map
      (fun s => ((s.pc 0).isIdle, s.hist.pushed, s.hist.popped)) =
        some (true, List.range 31 ++ [32], [(0, 1)]) := by
    decide +kernel
  obtain ⟨s, hrun, hs⟩ := Run.of_exec_map hexec
  simp only [Prod.mk.injEq] at hs
  exact ⟨s, hrun.mono fun _ _ _ => trivial, atRest_of_sole hrun hs.1, hs.2.1, hs.2.2⟩

end CoQueue.Lockless
