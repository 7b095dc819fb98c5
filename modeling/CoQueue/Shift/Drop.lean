import CoQueue.Shift.Retire

/-!
# Dropping the queue

`RawQueue::drop` pops the queue empty and frees the last `head`. For the values this is right: every value that
was pushed is read out of its node once, by a `try_pop` of the run or by one of `drop`, in the order of the
pushes, and nobody looks into the dummy (`Tally`). It needs a guard with room for one node; without it the
first `try_pop` that claims a value panics, be it one of `drop`.

For the nodes it is not. `PtrGuard` has no `Drop`, and even the loop that empties it never reads the first
slot, so the dummy node, which is the first to be retired, is still there in the end (`Dusty`).
-/

namespace CoQueue.Shift

open Linked Schedule

section
variable {V : Type} {s t : State V} {m : Mem V} {h : Hist V} {op : Op V} {ops : List (Op V)} {q r vals : List V}
  {threads n : Nat} {i : Tid}

/-- The values that the run pushes, in order. -/
def pushes (ops : List (Op V)) : List V :=
  ops.filterMap fun
    | .push v => some v
    | _ => none

/-- Of a run that ends in `s` and a drop that ends in `t`. -/
structure MovedOnce (vals : List V) (s t : State V) : Prop where
  /-- The nodes that were read are the ones that were pushed, in order, -/
  nodes : t.hist.popped.map Prod.fst = t.hist.pushed
  once : (t.hist.popped.map Prod.fst).Nodup
  dummy : 0 ∉ t.hist.popped.map Prod.fst
  /-- they held the values pushed, -/
  values : t.hist.popped.map Prod.snd = vals
  /-- and `drop` went on where the `try_pop`s of the run had got to. -/
  drained : s.hist.popped <+: t.hist.popped

/-! ### Values -/

/-- Between two calls every claimed node has been read, and `vals` are the values pushed so far. -/
structure Tally (m : Mem V) (h : Hist V) (vals : List V) : Prop where
  linked : h.linked = h.pushed
  claims : h.popped.map Prod.fst = h.claims
  values : h.linked.map m.data = vals.map some
  born : m.born = h.nodes

theorem tally_init (threads : Nat) : Tally (.withThreads threads : Mem V) ⟨[], [], []⟩ [] := ⟨rfl, rfl, rfl, rfl⟩

@[simp] theorem retire_born (m : Mem V) (a : Addr) : (m.retire a).born = m.born := by
  unfold Mem.retire; split <;> rfl

theorem Tally.done (ht : Tally s.mem s.hist vals) (hI : Inv s) (hd : Done s op m h) :
    Tally m h (vals ++ pushes [op]) := by
  cases hd with
  | push v =>
    have hold : ∀ a ∈ s.hist.linked,
        Function.update s.mem.data s.mem.fresh (some v) a = s.mem.data a := by
      intro a ha
      have hborn := hI.born a (List.mem_cons_of_mem _ ha)
      have hne : a ≠ s.mem.fresh := fun h => s.mem.fresh_notMem (h ▸ hborn)
      exact Function.update_of_ne hne _ _
    refine ⟨?_, ?_, ?_, ?_⟩
    · simp [Hist.pushed, ht.linked]
    · rw [← ht.claims]; simp [Hist.popped]
    · show (s.hist.linked ++ [s.mem.fresh]).map (Function.update s.mem.data s.mem.fresh (some v)) = _
      rw [List.map_append, List.map_congr_left hold, ht.values]
      simp [pushes]
    · simp [Mem.alloc, Hist.nodes, ht.born]
  | isEmpty =>
    refine ⟨?_, ?_, ?_, ht.born⟩
    · rw [ht.linked]; simp [Hist.pushed]
    · rw [← ht.claims]; simp [Hist.popped]
    · rw [ht.values]; simp [pushes]
  | none hn =>
    refine ⟨?_, ?_, ?_, ht.born⟩
    · rw [ht.linked]; simp [Hist.pushed]
    · rw [← ht.claims]; simp [Hist.popped]
    · rw [ht.values]; simp [pushes]
  | some b v hn hv =>
    refine ⟨?_, ?_, ?_, ?_⟩
    · rw [ht.linked]; simp [Hist.pushed]
    · rw [← ht.claims]; simp [Hist.popped]
    · rw [retire_data, ht.values]; simp [pushes]
    · rw [retire_born]; exact ht.born

theorem Served.tally (hs : Served s q ops t r) (ht : Tally s.mem s.hist vals) :
    Tally t.mem t.hist (vals ++ pushes ops) := by
  induction hs generalizing vals with
  | nil => simpa [pushes] using ht
  | @cons s t u q q' r op ops hR hd hcap _ ih =>
    have hop : pushes (op :: ops) = pushes [op] ++ pushes ops := by
      rw [pushes, pushes, pushes, ← List.filterMap_append]; rfl
    rw [hop, ← List.append_assoc]
    exact ih (ht.done hR.inv hd)

theorem Done.popped (hd : Done s op m h) : s.hist.popped <+: h.popped := by
  cases hd <;> simp [Hist.popped]

theorem Served.popped (hs : Served s q ops t r) : s.hist.popped <+: t.hist.popped := by
  induction hs with
  | nil => exact List.prefix_rfl
  | cons _ hd _ _ ih => exact hd.popped.trans ih

theorem Tally.moved (ht : Tally t.mem t.hist vals) (hR : Rest t []) (hs : s.hist.popped <+: t.hist.popped) :
    MovedOnce vals s t := by
  have hlen := hR.length
  have hclaims : t.hist.claims = t.hist.linked :=
    hR.inv.claims.eq_of_length (by simpa using hlen)
  have hnodes : t.hist.popped.map Prod.fst = t.hist.linked := ht.claims.trans hclaims
  have hnodup : (0 :: t.hist.linked).Nodup := hR.inv.path.nodup
  have hdata : ∀ p ∈ t.hist.popped, t.mem.data p.1 = some p.2 := fun p hp => (hR.inv.popped p hp).2
  refine ⟨hnodes.trans ht.linked, hR.inv.popped_nodup, ?_, ?_, hs⟩
  · rw [hnodes]; exact (List.nodup_cons.1 hnodup).1
  · refine List.map_injective_iff.2 (Option.some_injective V) ?_
    rw [← ht.values, ← hnodes, List.map_map, List.map_map]
    exact List.map_congr_left fun p hp => (hdata p hp).symm

/-! ### The whole life of a queue -/

theorem popsAfterPush_of_pushes (hp : pushes ops = []) : popsAfterPush ops = false := by
  induction ops with
  | nil => rfl
  | cons op ops ih =>
    cases op with
    | push v => cases hp
    | tryPop => exact ih hp
    | isEmpty => exact ih hp

theorem popsAfterPush_drain (hp : pushes ops ≠ []) (j : Nat) :
    popsAfterPush (ops ++ List.replicate (j + 1) .tryPop) = true := by
  induction ops with
  | nil => exact absurd rfl hp
  | cons op ops ih =>
    cases op with
    | push v => simp [popsAfterPush, List.replicate_succ, Op.isTryPop]
    | tryPop => exact ih hp
    | isEmpty => exact ih hp

theorem pushes_drain (ops : List (Op V)) (k : Nat) : pushes (ops ++ List.replicate k .tryPop) = pushes ops := by
  simp [pushes, List.filterMap_replicate_of_none]

theorem Alike.pushed {e : Equiv.Perm Tid} (h : Alike e s t) : t.hist.pushed = s.hist.pushed :=
  h.filterMap_returns fun _ r => by cases r <;> rfl

theorem MovedOnce.alike {s' t' : State V} {e e' : Equiv.Perm Tid} (h : MovedOnce vals s' t') (hs : Alike e s s')
    (ht : Alike e' t t') : MovedOnce vals s t := by
  refine ⟨?_, ?_, ?_, ?_, ?_⟩
  · rw [← ht.popped, ← ht.pushed]; exact h.nodes
  · rw [← ht.popped]; exact h.once
  · rw [← ht.popped]; exact h.dummy
  · rw [← ht.popped]; exact h.values
  · rw [← ht.popped, ← hs.popped]; exact h.drained

/-- A queue with room in its guard, or one that nothing was pushed to, is used and dropped as thread `0` uses
and drains it. -/
theorem dropped_served (l : List (Tid × Op V)) (i : Tid) (h : threads ≠ 0 ∨ pushes (l.map Prod.snd) = []) :
    ∃ s' t' q, Served (.init threads : State V) [] (l.map Prod.snd) s' q ∧
      Served s' q (List.replicate (q.length + 1) .tryPop) t' [] ∧ ∃ N, ∀ n, N ≤ n →
        ∃ s t, (State.init threads).callsBy n l = some s ∧ Alike (.refl _) s s' ∧
          s.drain n i n = some t ∧ Alike (.refl _) t t' := by
  obtain ⟨s', q, hs, N₁, h₁⟩ := callsBy_served (l := l) (h.imp_right popsAfterPush_of_pushes)
  have hdrain : s'.mem.popGuard.cap ≠ 0 ∨ q = [] := by
    rcases h with h | h
    · left; rw [hs.cap]; exact h
    · right
      have hval := (hs.tally (tally_init threads)).values
      have hlen := hs.rest.length
      rw [h] at hval
      rw [List.map_eq_nil_iff.1 hval, List.length_nil] at hlen
      exact List.eq_nil_of_length_eq_zero (by omega)
  obtain ⟨t', ht, N₂, h₂⟩ := hs.rest.drain hdrain
  refine ⟨s', t', q, hs, ht, max N₁ (max N₂ (q.length + 1)), fun n hn => ?_⟩
  obtain ⟨s, hcalls, hlike, hidle⟩ := h₁ n (by omega)
  have hr := hlike.drain (n := n) (i := i) hidle n
  rw [h₂ n n (by omega) (by omega)] at hr
  obtain ⟨t, hd, hlike'⟩ := rel_some_left hr
  exact ⟨s, t, hcalls, hlike, hd, hlike'⟩

/-- Without room in the guard, a queue that something was pushed to does not get through its drop. -/
theorem dropped_zero {l : List (Tid × Op V)} (hp : pushes (l.map Prod.snd) ≠ []) {s t : State V}
    (hs : (State.init 0).callsBy n l = some s) (hd : s.drain n i n = some t) : False := by
  have hr := (Alike.refl (State.init (V := V) 0)).calls (n := n) (fun _ => rfl) l
  rw [hs] at hr
  obtain ⟨s', hs', hlike, hidle⟩ := rel_some_right hr
  have hr := hlike.drain (n := n) (i := i) hidle n
  rw [hd] at hr
  obtain ⟨t', hd', -⟩ := rel_some_right hr
  obtain ⟨j, hj⟩ := drain_eq_calls hd'
  have hall := calls_append (n := n) (State.init (V := V) 0) (l.map Prod.snd) (List.replicate (j + 1) .tryPop)
  rw [hs', Option.bind_some, hj, (rest_init (V := V) 0).calls_none rfl
    (by simp [takesNone, popsAfterPush_drain hp j])] at hall
  cases hall

/-- Every value is moved out once exactly when the guards have room for a node or nothing is pushed. -/
theorem moved_once_iff (threads : Nat) (l : List (Tid × Op V)) (i : Tid) :
    (∃ N, ∀ n, N ≤ n → ∃ s t, (State.init threads).callsBy n l = some s ∧ s.dropQueue n i = some t ∧
      MovedOnce (pushes (l.map Prod.snd)) s t) ↔ threads ≠ 0 ∨ pushes (l.map Prod.snd) = [] := by
  constructor
  · rintro ⟨N, hN⟩
    obtain ⟨s, t, hs, ht, -⟩ := hN N (Nat.le_refl N)
    obtain ⟨t', ht', -⟩ := Option.map_eq_some_iff.1 ht
    by_contra hno
    rw [not_or, not_not] at hno
    obtain ⟨rfl, hp⟩ := hno
    exact dropped_zero hp hs ht'
  · intro h
    obtain ⟨s', t', q, hs, ht, N, hN⟩ := dropped_served l i h
    have htally := (hs.trans ht).tally (tally_init threads)
    rw [List.nil_append, pushes_drain] at htally
    have hmoved := htally.moved ht.rest ht.popped
    refine ⟨N, fun n hn => ?_⟩
    obtain ⟨s, t, hcalls, hlike, hd, hlike'⟩ := hN n hn
    refine ⟨s, _, hcalls, by rw [State.dropQueue, hd]; rfl, ?_⟩
    obtain ⟨h1, h2, h3, h4, h5⟩ := hmoved.alike hlike hlike'
    exact ⟨h1, h2, h3, h4, h5⟩

/-- A queue for no threads panics when it is dropped with a value in it. -/
theorem zero_threads_drop_panics :
    ¬∀ (threads : Nat) (l : List (Tid × Op Nat)) (i : Tid), ∃ N, ∀ n, N ≤ n → ∃ s t,
      (State.init threads).callsBy n l = some s ∧ s.dropQueue n i = some t ∧
        MovedOnce (pushes (l.map Prod.snd)) s t := by
  intro h
  obtain ⟨N, hN⟩ := h 0 [(0, .push 10)] 0
  obtain ⟨s, t, hs, ht, -⟩ := hN N (Nat.le_refl N)
  obtain ⟨t', ht', -⟩ := Option.map_eq_some_iff.1 ht
  exact dropped_zero (by simp [pushes]) hs ht'

/-! ### Nodes -/

theorem mem_swept {slot : Nat → Option Addr} {a : Addr} (h : a ∈ swept slot n) :
    ∃ k, 0 < k ∧ slot k = some a := by
  induction n with
  | zero => cases h
  | succ n ih =>
    rcases List.mem_append.1 h with h | h
    · exact ⟨n + 1, Nat.succ_pos n, Option.mem_toList.1 h⟩
    · exact ih h

/-- The dummy node is never freed: it is not in any slot that the loop over the guard reads. -/
structure Dusty (m : Mem V) (h : Hist V) : Prop where
  slot : ∀ k, 0 < k → m.popGuard.slot k ≠ some 0
  freed : 0 ∉ m.freed
  start : h.claims = [] → m.popGuard.len = 0 ∧ m.freed = []

theorem dusty_init (threads : Nat) : Dusty (.withThreads threads : Mem V) ⟨[], [], []⟩ :=
  ⟨fun _ _ => nofun, List.not_mem_nil, fun _ => ⟨rfl, rfl⟩⟩

theorem Inv.head_ne_zero (hI : Inv s) (hc : s.hist.claims ≠ []) : s.mem.head ≠ 0 := by
  intro h0
  have hhead := hI.head_eq
  rw [h0] at hhead
  have := hI.path.index_inj (i := 0) (by rfl) hhead
  exact hc (List.eq_nil_of_length_eq_zero this.symm)

theorem Dusty.retire (hd : Dusty s.mem s.hist) (hI : Inv s) (hcap : s.mem.popGuard.cap ≠ 0) {b : Addr}
    {rets : List (Tid × Ret V)} :
    Dusty ({ s.mem with head := b }.retire s.mem.head) ⟨s.hist.linked, s.hist.claims ++ [b], rets⟩ := by
  by_cases hfull : s.mem.popGuard.len = s.mem.popGuard.cap
  · have hne : s.mem.head ≠ 0 := hI.head_ne_zero fun hc => hcap (hfull.symm.trans (hd.start hc).1)
    refine ⟨fun k hk => ?_, ?_, by simp⟩
    · simp only [Mem.retire, hfull, if_true, Function.update_of_ne (Nat.ne_of_gt hk)]
      exact hd.slot k hk
    · simp only [Mem.retire, hfull, if_true, List.mem_append, List.mem_singleton, not_or]
      refine ⟨⟨hd.freed, hne.symm⟩, fun h0 => ?_⟩
      obtain ⟨k, hk, hk0⟩ := mem_swept h0
      exact hd.slot k hk hk0
  · simp only [Mem.retire, if_neg hfull, PtrGuard.push, PtrGuard.write, PtrGuard.compareAndSwap, if_true]
    refine ⟨fun k hk => ?_, hd.freed, by simp⟩
    simp only [Function.update_apply]
    split
    · -- the dummy is retired first, into the first slot
      intro h0
      refine hI.head_ne_zero (fun hc => ?_) (Option.some.inj h0)
      have := (hd.start hc).1
      omega
    · exact hd.slot k hk

theorem Served.dusty (hs : Served s q ops t r) (hcap : s.mem.popGuard.cap ≠ 0)
    (hd : Dusty s.mem s.hist) : Dusty t.mem t.hist := by
  induction hs with
  | nil => exact hd
  | @cons s t u q q' r op ops hR hdone hc _ ih =>
    refine ih (by rw [hc]; exact hcap) ?_
    obtain ⟨m, pc, h⟩ := t
    cases hdone with
    | push v =>
      have hfreed : (s.mem.alloc s.mem.fresh v).freed = s.mem.freed := Mem.alloc_freed s.mem.fresh_notMem v
      exact ⟨hd.slot, hfreed ▸ hd.freed, hfreed ▸ hd.start⟩
    | isEmpty => exact ⟨hd.slot, hd.freed, hd.start⟩
    | none hn => exact ⟨hd.slot, hd.freed, hd.start⟩
    | some b v hn hv => exact hd.retire hR.inv hcap

/-- When the queue has been drained and its last `head` is freed, the nodes are gone if there was only one. -/
theorem Dusty.live_iff (hd : Dusty t.mem t.hist) (ht : Tally t.mem t.hist vals) (hR : Rest t []) :
    (∀ a, ¬({ t.mem with freed := t.mem.freed ++ [t.mem.head] } : Mem V).live a) ↔ vals = [] := by
  have hlen := congrArg List.length ht.values
  have hclaims := hR.length
  simp only [List.length_map] at hlen
  rw [List.length_nil, Nat.zero_add] at hclaims
  constructor
  · intro h
    by_contra hne
    have hc : t.hist.claims ≠ [] := by
      intro hc
      rw [hc, List.length_nil, hlen] at hclaims
      exact hne (List.eq_nil_of_length_eq_zero hclaims.symm)
    refine h 0 ⟨hR.inv.born 0 List.mem_cons_self, ?_⟩
    simp only [List.mem_append, List.mem_singleton, not_or]
    exact ⟨hd.freed, (hR.inv.head_ne_zero hc).symm⟩
  · rintro rfl a ⟨hborn, hnot⟩
    have hc : t.hist.claims = [] := List.eq_nil_of_length_eq_zero (by rw [hclaims, hlen]; rfl)
    have hhead := hR.inv.head_eq
    rw [hc] at hhead
    simp only [List.mem_append, List.mem_singleton, not_or] at hnot
    have h0 : t.mem.head = 0 := (Option.some.inj hhead).symm
    have ha : a = 0 := by
      have hborn' : a ∈ t.mem.born := hborn
      rw [ht.born, Hist.nodes, List.eq_nil_of_length_eq_zero hlen] at hborn'
      exact List.mem_singleton.1 hborn'
    exact hnot.2 (ha.trans h0.symm)

theorem dropped_live_iff (ht : 1 ≤ threads) (l : List (Tid × Op V)) (i : Tid) :
    ∃ N, ∀ n, N ≤ n → ∃ t, ((State.init threads).callsBy n l).bind (·.dropQueue n i) = some t ∧
      ((∀ a, ¬t.mem.live a) ↔ pushes (l.map Prod.snd) = []) := by
  have hcap : threads ≠ 0 := Nat.ne_of_gt ht
  obtain ⟨s', t', q, hs, ht', N, hN⟩ := dropped_served l i (.inl hcap)
  have htally := (hs.trans ht').tally (tally_init threads)
  have hdusty := (hs.trans ht').dusty hcap (dusty_init threads)
  rw [List.nil_append, pushes_drain] at htally
  refine ⟨N, fun n hn => ?_⟩
  obtain ⟨s, t, hcalls, -, hd, hlike⟩ := hN n hn
  refine ⟨_, by rw [hcalls, Option.bind_some, State.dropQueue, hd]; rfl, ?_⟩
  rw [← hdusty.live_iff htally ht'.rest, hlike.mem]

/-- No node is left behind exactly when nothing was pushed. -/
theorem no_node_left_iff (ht : 1 ≤ threads) (l : List (Tid × Op V)) (i : Tid) :
    (∃ N, ∀ n, N ≤ n → ∃ t, ((State.init threads).callsBy n l).bind (·.dropQueue n i) = some t ∧
      ∀ a, ¬t.mem.live a) ↔ pushes (l.map Prod.snd) = [] :=
  enough_iff (dropped_live_iff ht l i)

theorem unused_no_node_left :
    1 ≤ 4 ∧ ∃ N, ∀ n, N ≤ n → ∃ t,
      ((State.init 4 : State Nat).callsBy n [(0, .tryPop)]).bind (·.dropQueue n 0) = some t ∧
        ∀ a, ¬t.mem.live a :=
  ⟨by decide, (no_node_left_iff (by decide) [(0, .tryPop)] 0).2 rfl⟩

/-- The dummy node outlives a queue that a value went through. -/
theorem dummy_left_behind :
    ¬∀ (threads : Nat) (l : List (Tid × Op Nat)) (i : Tid), 1 ≤ threads → ∃ N, ∀ n, N ≤ n → ∃ t,
      ((State.init threads).callsBy n l).bind (·.dropQueue n i) = some t ∧ ∀ a, ¬t.mem.live a := by
  intro h
  have hone := h 4 [(0, .push 10)] 0 (by decide)
  cases (enough_iff (dropped_live_iff (by decide) _ _)).1 hone

end

end CoQueue.Shift
