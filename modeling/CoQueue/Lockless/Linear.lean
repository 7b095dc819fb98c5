import CoQueue.Lockless.Log

/-!
# `CoQueue` is a FIFO queue

The claims are the linearisation points: the `n`-th claim of `head.index` takes the slot of the `n`-th
claim of `tail.index`, and the pop that made it returns the value of that push. Nothing is lost: a pop
that has claimed a slot returns on its own steps once the push of that slot has returned (`Ready`), since
the push has linked the next chunk and set `WRITE` by then.
-/

namespace CoQueue.Lockless

open Schedule Token

variable {V : Type} {s s' : State V} {m m' : Mem V} {chain chain' : List ChunkId} {pc pc' : Pc V}
  {ev : Event V} {i j : Tid} {p : Nat}

/-! ### What a returned push leaves behind -/

/-- The slot has been written, and the chunk behind it linked if the slot is the last of its chunk. -/
def Filled (m : Mem V) (chain : List ChunkId) (p : Nat) : Prop :=
  ∃ c, chain[p / lap]? = some c ∧ m.state c (p % lap) &&& writeBit ≠ 0 ∧
    (p % lap + 1 = chunkCap → m.next c ≠ none)

def Linked (m : Mem V) : Pc V → Prop
  | .pushWrite _ t c | .pushFlag t c => offset t + 1 = chunkCap → m.next c ≠ none
  | _ => True

structure Ready (s : State V) : Prop where
  linked : ∀ i, Linked s.mem (s.pc i)
  filled : ∀ j p, (j, Ret.push p) ∈ s.hist.returns → Filled s.mem s.hist.chain p

structure Grows (m m' : Mem V) : Prop where
  next : ∀ c, m.next c ≠ none → m'.next c ≠ none
  state : ∀ c o, m.state c o &&& writeBit ≠ 0 → m'.state c o &&& writeBit ≠ 0

theorem Grows.of_eq (hn : m'.next = m.next) (hs : m'.state = m.state) : Grows m m' :=
  ⟨fun _ h => by rwa [hn], fun _ _ h => by rwa [hs]⟩

theorem Linked.mono (h : Linked m pc) (g : Grows m m') : Linked m' pc := by
  cases pc <;> try trivial
  all_goals exact fun ho => g.next _ (h ho)

theorem Filled.mono (h : Filled m chain p) (g : Grows m m') (e : chain <+: chain') :
    Filled m' chain' p := by
  obtain ⟨c, hc, hw, hn⟩ := h
  obtain ⟨l, rfl⟩ := e
  refine ⟨c, ?_, g.state c _ hw, fun ho => g.next c (hn ho)⟩
  rw [List.getElem?_append_left (List.getElem?_eq_some_iff.1 hc).1]
  exact hc

theorem and_or_ne_zero {x b d : Nat} (h : x &&& d ≠ 0) : (x ||| b) &&& d ≠ 0 := by
  rw [Nat.and_or_distrib_right]
  exact fun h0 => h (Nat.or_eq_zero_iff.1 h0).1

theorem grows_setState (m : Mem V) (c : ChunkId) (o b : Nat) :
    Grows m (m.setState c o (m.state c o ||| b)) := by
  refine ⟨fun _ => id, fun d q h => ?_⟩
  rw [setState_state]
  split
  · rename_i heq
    obtain ⟨rfl, rfl⟩ := heq
    exact and_or_ne_zero h
  · exact h

theorem grows_next (m : Mem V) (c n : ChunkId) :
    Grows m { m with next := Function.update m.next c (some n) } := by
  refine ⟨fun d h => ?_, fun _ _ => id⟩
  simp only [Function.update_apply]
  split
  · nofun
  · exact h

theorem chain_log (h : Hist V) (i : Tid) (ev : Event V) : h.chain <+: (h.log i ev).chain := by
  cases ev <;> simp [Hist.log]

theorem Ready.keep (hr : Ready s) (g : Grows s.mem m') (hl : Linked m' pc')
    (hret : ∀ j p, (j, Ret.push p) ∈ (s.hist.log i ev).returns →
      (j, Ret.push p) ∈ s.hist.returns ∨ Filled m' (s.hist.log i ev).chain p) :
    Ready (s.put i (m', pc', ev)) where
  linked := (Function.forall_update_iff s.pc fun _ pc => Linked m' pc).2
    ⟨hl, fun j _ => (hr.linked j).mono g⟩
  filled j p h := (hret j p h).elim (fun h => (hr.filled j p h).mono g (chain_log _ _ _)) id

theorem linked_destroyLoop {h : Nat} {c : ChunkId} {v : V} {k : Nat} :
    Linked m (destroyLoop h c v k) := by
  unfold destroyLoop
  split <;> trivial

theorem linked_popTry {h h' : Nat} (o : Option ChunkId) : Linked m (popTry h h' o : Pc V) := by
  cases o <;> trivial

theorem mem_returns_pop {r : Option (Nat × V)}
    (h : (j, Ret.push p) ∈ (s.hist.log i (.returned (.pop r))).returns) :
    (j, Ret.push p) ∈ s.hist.returns := by
  rcases List.mem_append.1 h with h | h
  · exact h
  · simp at h

theorem Ready.move (hp : Placed s) (hr : Ready s) (hpc : s.pc i = pc)
    (hm : Move s.mem pc m' pc' ev) : Ready (s.put i (m', pc', ev)) := by
  have hok := hp.ok i
  have hlink := hr.linked i
  rw [hpc] at hok hlink
  cases hm with
  | pushClaim v n t c ht ho => exact hr.keep (.of_eq rfl rfl) (fun h => absurd h ho) fun _ _ => .inl
  | pushNext v t c n =>
    refine hr.keep (grows_next _ _ _) (fun _ => ?_) fun _ _ => .inl
    simp
  | pushWrite v t c => exact hr.keep (.of_eq rfl rfl) hlink fun _ _ => .inl
  | pushFlag t c =>
    have hg := grows_setState s.mem c (offset t) writeBit
    refine hr.keep hg trivial fun j p h => ?_
    rcases List.mem_append.1 h with h | h
    · exact .inl h
    · obtain ⟨-, rfl⟩ : j = i ∧ p = position t := by simpa using h
      refine .inr ⟨c, hok.2.2.2, ?_, fun ho => hg.next c (hlink ho)⟩
      rw [setState_state, if_pos ⟨rfl, rfl⟩, Nat.and_or_distrib_right]
      exact fun h0 => absurd (Nat.or_eq_zero_iff.1 h0).2 (by decide)
  | popFlagged h ho hf | popAhead h c ht hl | popSame h c ht hl =>
    exact hr.keep (.of_eq rfl rfl) (linked_popTry _) fun _ _ => .inl
  | popEmpty h c ht | dealloc h c v =>
    exact hr.keep (.of_eq rfl rfl) trivial fun _ _ h => .inl (mem_returns_pop h)
  | popFlag h c v hd =>
    exact hr.keep (grows_setState _ _ _ _) trivial fun _ _ h => .inl (mem_returns_pop h)
  | destroyFlag h c v k hz =>
    exact hr.keep (grows_setState _ _ _ _) trivial fun _ _ h => .inl (mem_returns_pop h)
  | popFlagDestroy h c v hd =>
    exact hr.keep (grows_setState _ _ _ _) linked_destroyLoop fun _ _ => .inl
  | destroyNext h c v k hz => exact hr.keep (grows_setState _ _ _ _) linked_destroyLoop fun _ _ => .inl
  | destroySkip h c v k hz => exact hr.keep (.of_eq rfl rfl) linked_destroyLoop fun _ _ => .inl
  | _ => exact hr.keep (.of_eq rfl rfl) trivial fun _ _ => .inl

theorem ready_init : Ready (.init : State V) := ⟨fun _ => trivial, nofun⟩

/-! ### All invariants together -/

structure Inv (s : State V) : Prop where
  placed : Placed s
  counted : Counted s
  valued : Valued s
  taken : Taken s
  ready : Ready s

theorem inv_init : Inv (.init : State V) := ⟨placed_init, counted_init, valued_init, taken_init, ready_init⟩

theorem Inv.step {a : Act V} (h : Inv s) (hs : step s a = some s') : Inv s' := by
  obtain ⟨i, m', pc', ev, hm, rfl⟩ := move_of_step hs
  exact ⟨h.placed.move rfl hm, h.counted.move h.placed rfl hm, h.valued.move h.placed rfl hm,
    h.taken.move h.counted h.valued rfl hm, h.ready.move h.placed rfl hm⟩

theorem inv_of_run {C : State V → Act V → Prop} (h : Run step C .init s) : Inv s :=
  h.invariant inv_init fun _ _ _ hi _ hs => hi.step hs

/-- Over these invariants, any other one has to be checked move by move only. -/
theorem holds_of_run {C : State V → Act V → Prop} {P : State V → Prop} (h : Run step C .init s) (h₀ : P .init)
    (hP : ∀ {s i m' pc' ev}, Inv s → P s → Move s.mem (s.pc i) m' pc' ev → P (s.put i (m', pc', ev))) :
    P s := by
  have key : Inv s ∧ P s := by
    refine h.invariant (P := fun s => Inv s ∧ P s) ⟨inv_init, h₀⟩ ?_
    intro t a u ⟨hi, hp⟩ _ hs
    refine ⟨hi.step hs, ?_⟩
    obtain ⟨i, m', pc', ev, hm, rfl⟩ := move_of_step hs
    exact hP hi hp hm
  exact key.2

/-! ### A claimed pop returns -/

/-- How far a pop that has made its claim is from its return. -/
def Pc.rank : Pc V → Nat
  | .popWaitNext _ _ _ => 71
  | .popNextNext _ _ _ _ => 70
  | .popHeadChunk _ _ _ _ => 69
  | .popHeadIndex _ _ _ => 68
  | .popWaitWrite _ _ => 67
  | .popRead _ _ => 66
  | .popFlag _ _ _ => 65
  | .destroyLoad _ _ _ k => 2 * (chunkCap - k) + 2
  | .destroyFlag _ _ _ k => 2 * (chunkCap - k) + 1
  | _ => 0

def Nearer (p : Nat) (pc : Pc V) (r : Mem V × Pc V × Event V) : Prop :=
  (r.2.1.takes = some p ∧ r.2.1.rank < pc.rank ∧ r.2.2 = .silent) ∨
    ∃ v, r.2.2 = .returned (.pop (some (p, v)))

theorem nearer_destroyLoop {h : Nat} {c : ChunkId} {v : V} {k : Nat} (hpos : 0 < pc.rank)
    (hk : k < chunkCap → 2 * (chunkCap - k) + 2 < pc.rank) :
    Nearer (position h) pc (m, destroyLoop h c v k, .silent) := by
  refine .inl ⟨takes_destroyLoop, ?_, rfl⟩
  simp only [destroyLoop]
  split
  · exact hk ‹_›
  · exact hpos

theorem Inv.nearer (hi : Inv s) (ht : (s.pc i).takes = some p) (hf : Filled s.mem s.hist.chain p) :
    ∃ r, stepPc s.mem false (s.pc i) = some r ∧ Nearer p (s.pc i) r := by
  have hok := hi.placed.ok i
  have hsound := hi.valued.sound i
  obtain ⟨d, hd, hw, hn⟩ := hf
  generalize s.pc i = pc at *
  cases pc <;> simp only [Pc.takes, reduceCtorEq, Option.some.injEq] at ht <;> subst ht
  case popWaitNext h c h' =>
    obtain rfl : c = d := Option.some.inj (hok.2.1.symm.trans hd)
    obtain ⟨n, hn⟩ := Option.ne_none_iff_exists'.1 (hn hok.1)
    simp only [stepPc, hn]
    exact ⟨_, rfl, .inl ⟨rfl, Nat.lt_succ_self _, rfl⟩⟩
  case popNextNext h c h' n =>
    simp only [stepPc]
    split
    · exact ⟨_, rfl, .inl ⟨rfl, Nat.lt_succ_self _, rfl⟩⟩
    · exact ⟨_, rfl, .inl ⟨rfl, Nat.lt_succ_self _, rfl⟩⟩
  case popHeadChunk => exact ⟨_, rfl, .inl ⟨rfl, Nat.lt_succ_self _, rfl⟩⟩
  case popHeadIndex => exact ⟨_, rfl, .inl ⟨rfl, Nat.lt_succ_self _, rfl⟩⟩
  case popWaitWrite h c =>
    obtain rfl : c = d := Option.some.inj (hok.2.1.symm.trans hd)
    exact ⟨_, if_neg hw, .inl ⟨rfl, Nat.lt_succ_self _, rfl⟩⟩
  case popRead h c =>
    obtain ⟨v, hv⟩ := Option.ne_none_iff_exists'.1 hsound
    simp only [stepPc, hv]
    split
    · exact ⟨_, rfl, nearer_destroyLoop (Nat.succ_pos _)
        fun _ => show 2 * (chunkCap - 0) + 2 < 66 by decide⟩
    · exact ⟨_, rfl, .inl ⟨rfl, Nat.lt_succ_self _, rfl⟩⟩
  case popFlag h c v =>
    simp only [stepPc]
    split
    · exact ⟨_, rfl, nearer_destroyLoop (Nat.succ_pos _)
        fun _ => by simp only [Pc.rank, chunkCap, lap]; omega⟩
    · exact ⟨_, rfl, .inr ⟨v, rfl⟩⟩
  case destroyLoad h c v k =>
    simp only [stepPc]
    split
    · exact ⟨_, rfl, .inl ⟨rfl, Nat.lt_succ_self _, rfl⟩⟩
    · exact ⟨_, rfl, nearer_destroyLoop (Nat.succ_pos _) fun _ => by simp only [Pc.rank]; omega⟩
  case destroyFlag h c v k =>
    simp only [stepPc]
    split
    · exact ⟨_, rfl, .inr ⟨v, rfl⟩⟩
    · exact ⟨_, rfl, nearer_destroyLoop (Nat.succ_pos _) fun _ => by simp only [Pc.rank]; omega⟩
  case dealloc h c v => exact ⟨_, rfl, .inr ⟨v, rfl⟩⟩

/-- Once the push of its slot has returned, a pop that has made its claim returns on its own steps. -/
theorem Inv.returns (hi : Inv s) (ht : (s.pc i).takes = some p) (hj : (j, Ret.push p) ∈ s.hist.returns) :
    ∃ s' v, Run Lockless.step (fun _ a => a = .run i false) s s' ∧
      s'.hist.returns = s.hist.returns ++ [(i, .pop (some (p, v)))] ∧ s'.hist.pushes = s.hist.pushes := by
  -- by induction on the distance to the return
  generalize hn : (s.pc i).rank = n
  induction n using Nat.strong_induction_on generalizing s with
  | _ n ih =>
    obtain ⟨⟨m', pc', ev⟩, hs, hr⟩ := hi.nearer ht (hi.ready.filled j p hj)
    have hstep : Lockless.step s (.run i false) = some (s.put i (m', pc', ev)) := by
      simp only [Lockless.step, hs, Option.map_some]
    have hone : Run Lockless.step (fun _ a => a = .run i false) s (s.put i (m', pc', ev)) :=
      .single rfl hstep
    rcases hr with ⟨htakes, hlt, rfl⟩ | ⟨v, rfl⟩
    · have hpc : (s.put i (m', pc', .silent)).pc i = pc' := Function.update_self ..
      obtain ⟨s', v, hrun, hret, hpush⟩ := ih pc'.rank (hn ▸ hlt) (hi.step hstep) (by rw [hpc]; exact htakes)
        hj (by rw [hpc])
      exact ⟨s', v, hone.trans hrun, hret, hpush⟩
    · exact ⟨_, v, hone, rfl, rfl⟩

/-! ### Linearisation -/

structure Linear (s : State V) : Prop where
  /-- Claims of `head.index` take the slots in the order of the claims of `tail.index`. -/
  order : s.hist.pops <+: s.hist.pushes.map Prod.fst
  distinct : (s.hist.pushes.map Prod.fst).Nodup
  /-- What the `n`-th claim of `head.index` returns is what the `n`-th claim of `tail.index` brought. -/
  value : ∀ (n p : Nat) (v : V), s.hist.pops[n]? = some p → (p, v) ∈ s.hist.popped →
    s.hist.pushes[n]? = some (p, v)
  claimed : ∀ e ∈ s.hist.popped, e.1 ∈ s.hist.pops
  once : (s.hist.popped.map Prod.fst).Nodup
  /-- A claim that has not been returned is with one pop, -/
  pending : ∀ p ∈ s.hist.pops, p ∉ s.hist.popped.map Prod.fst → ∃! i, (s.pc i).takes = some p
  /-- which returns the value of its push on its own steps once that push has returned. -/
  delivers : ∀ i j p, (s.pc i).takes = some p → (j, Ret.push p) ∈ s.hist.returns →
    ∃ s' v, Run step (fun _ a => a = .run i false) s s' ∧
      s'.hist.returns = s.hist.returns ++ [(i, .pop (some (p, v)))] ∧ (p, v) ∈ s.hist.pushes
  defined : ∀ i, s.pc i ≠ .panicked ∧ s.pc i ≠ .undefined
  /-- A pop returns `Err` in a state in which as many pops as pushes have been claimed. -/
  empty : ∀ i spurious s', step s (.run i spurious) = some s' →
    s'.hist.returns = s.hist.returns ++ [(i, .pop none)] → s.hist.pops.length = s.hist.pushes.length

theorem getElem?_of_fst {l : List (Nat × V)} {n : Nat} {v : V} (hl : (l.map Prod.fst).Nodup)
    (hn : (l.map Prod.fst)[n]? = some p) (hv : (p, v) ∈ l) : l[n]? = some (p, v) := by
  obtain ⟨k, hk⟩ := List.mem_iff_getElem?.1 hv
  have hk' : (l.map Prod.fst)[k]? = some p := by rw [List.getElem?_map, hk]; rfl
  obtain rfl := (List.getElem?_inj (List.getElem?_eq_some_iff.1 hn).1 hl).1 (hn.trans hk'.symm)
  exact hk

theorem Inv.order (hi : Inv s) : s.hist.pops <+: s.hist.pushes.map Prod.fst := by
  rw [hi.counted.pops, hi.counted.pushes]
  exact slots_append_of_le hi.placed.core.le

theorem Inv.value {n : Nat} {v : V} (hi : Inv s) (hn : s.hist.pops[n]? = some p)
    (hv : (p, v) ∈ s.hist.popped) : s.hist.pushes[n]? = some (p, v) := by
  refine getElem?_of_fst ?_ ?_ (hi.valued.popped _ hv)
  · rw [hi.counted.pushes]; exact nodup_slots _
  · obtain ⟨l, hl⟩ := hi.order
    rw [← hl, List.getElem?_append_left (List.getElem?_eq_some_iff.1 hn).1]
    exact hn

theorem Inv.pending (hi : Inv s) (hp : p ∈ s.hist.pops) (hn : p ∉ s.hist.popped.map Prod.fst) :
    ∃! i, (s.pc i).takes = some p := (taken_iff.1 hi.taken).existsUnique hp hn

/-- `Err` is returned when `head` and `tail` are at the same position: `head` cannot have been ahead of
what the pop has read, as `tail` is not. -/
theorem Inv.empty (hi : Inv s) (hm : Move s.mem (s.pc i) m' pc' (.returned (.pop none))) :
    s.hist.pops.length = s.hist.pushes.length := by
  have hok := hi.placed.ok i
  generalize s.pc i = pc at *
  cases hm with
  | popEmpty h c ht =>
    have hle : position h ≤ position s.mem.headIndex := by
      rw [position_eq, position_eq]; exact Nat.div_le_div_right hok.1
    have heq : position s.mem.headIndex = position s.mem.tailIndex := by
      have := hi.placed.core.le; omega
    rw [hi.counted.pops, heq, ← hi.counted.pushes, List.length_map]

theorem returned_of_log {h : Hist V} {r : Ret V} (hr : (h.log i ev).returns = h.returns ++ [(i, r)]) :
    ev = .returned r := by
  cases ev with
  | returned r' =>
    have := List.append_cancel_left hr
    simp only [List.cons.injEq, Prod.mk.injEq, true_and, and_true] at this
    rw [this]
  | _ => simp [Hist.log] at hr

/-- Every interleaving of pushes and pops is linearised by the claims. -/
theorem linear_of_run (h : Run step Any .init s) : Linear s := by
  have hi := inv_of_run h
  refine ⟨hi.order, ?_, fun n p v => hi.value, fun e he => ?_, hi.taken.once, fun p => hi.pending,
    fun i j p ht hj => ?_, fun i => ⟨fun hpc => ?_, fun hpc => ?_⟩, fun i b s' hs hr => ?_⟩
  · rw [hi.counted.pushes]; exact nodup_slots _
  · exact hi.taken.claimed e.1 (List.mem_map_of_mem he)
  · obtain ⟨s', v, hrun, hret, hpush⟩ := hi.returns ht hj
    have hi' : Inv s' := hrun.invariant hi fun _ _ _ hi _ hs => hi.step hs
    refine ⟨s', v, hrun, hret, hpush ▸ hi'.valued.popped (p, v) ?_⟩
    rw [Hist.popped, hret, List.filterMap_append]
    simp
  · have := hi.placed.ok i; rw [hpc] at this; exact this
  · have := hi.valued.sound i; rw [hpc] at this; exact this
  · obtain ⟨⟨m', pc', ev⟩, hpc, rfl⟩ := Option.map_eq_some_iff.1 hs
    obtain rfl := returned_of_log hr
    exact hi.empty (move_of_stepPc hpc)

/-- Threads 0 and 2 push at the same time and race for the first chunk; thread 1 pops. -/
def raceSchedule : List (Act Nat) :=
  [Act.push 0 10, Act.push 2 20] ++ (List.replicate 7 [Act.run 0 false, Act.run 2 false]).flatten ++
    List.replicate 3 (Act.run 2 false) ++ [Act.pop 1] ++ List.replicate 7 (Act.run 1 false)

theorem race_linear :
    ∃ s : State Nat, Run step Any .init s ∧ s.hist.popped = [(0, 10)] ∧
      s.hist.pushes = [(0, 10), (1, 20)] ∧ Linear s := by
  have hexec : (exec step Any .init raceSchedule).map (fun s => (s.hist.popped, s.hist.pushes)) =
      some ([(0, 10)], [(0, 10), (1, 20)]) := by
    decide +kernel
  obtain ⟨s, hrun, hs⟩ := Run.of_exec_map hexec
  rw [Prod.mk.injEq] at hs
  exact ⟨s, hrun, hs.1, hs.2, linear_of_run hrun⟩

end CoQueue.Lockless
