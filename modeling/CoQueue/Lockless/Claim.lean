import CoQueue.Lockless.Rest

/-!
# What a claim rests on

A call loads an index and a chunk pointer one after the other, and its `compare_exchange` looks at the index
only. Every claim that ever succeeded was made with the chunk of its lap all the same: the observer `note`
writes down each claim with the chunk pointer the call held, and each first chunk as `tail` and `head` get to
know it, and `Noted` relates these notes to the chain of installed chunks.

A `pop` that finds `HAS_NEXT` in the index it has loaded does not load `tail`. What it then knows is that
`tail` has left the lap of that index, which stays so as `tail` only moves on (`Flagged`).
-/

namespace CoQueue.Lockless

open Schedule Token

variable {V : Type} {s s' : State V} {m m' : Mem V} {pc pc' : Pc V} {ev : Event V} {i : Tid}

/-! ### `HAS_NEXT` -/

/-- The index that a `pop` has loaded, if it goes on to its claim without a look at `tail`. -/
def Pc.skips : Pc V → Option Nat
  | .popChunk head => if offset head ≠ chunkCap ∧ (head + (1 <<< shift)) &&& hasNext ≠ 0 then some head else none
  | .popClaim head _ _ => if (head + (1 <<< shift)) &&& hasNext ≠ 0 then some head else none
  | _ => none

theorem skips_popChunk {h k : Nat} :
    (.popChunk h : Pc V).skips = some k ↔ (offset h ≠ chunkCap ∧ h % 2 = 1) ∧ h = k := by
  rw [Pc.skips, add_and_hasNext, Option.ite_none_right_eq_some, Option.some.injEq, Nat.mod_two_ne_zero]

theorem skips_popClaim {h h' k : Nat} {c : ChunkId} :
    (.popClaim h c h' : Pc V).skips = some k ↔ h % 2 = 1 ∧ h = k := by
  rw [Pc.skips, add_and_hasNext, Option.ite_none_right_eq_some, Option.some.injEq, Nat.mod_two_ne_zero]

/-- `tail` is past the lap of an index with which a pop skips the load of `tail`. -/
def Flagged (s : State V) : Prop :=
  ∀ i h, (s.pc i).skips = some h → position h / lap < position s.mem.tailIndex / lap

theorem Flagged.put (hf : Flagged s) (hle : s.mem.tailIndex ≤ m'.tailIndex)
    (hpc : ∀ h, pc'.skips = some h → position h / lap < position s.mem.tailIndex / lap) :
    Flagged (s.put i (m', pc', ev)) := by
  have hlap : position s.mem.tailIndex / lap ≤ position m'.tailIndex / lap := by
    rw [position_eq, position_eq]
    exact Nat.div_le_div_right (Nat.div_le_div_right hle)
  intro j h hj
  rcases at_update (P := fun pc => Pc.skips pc = some h) hj with ⟨-, hj⟩ | ⟨-, hj⟩
  · exact (hpc h hj).trans_le hlap
  · exact (hf j h hj).trans_le hlap

theorem skips_popTry {h h' k : Nat} {c : Option ChunkId} (hs : (popTry h h' c : Pc V).skips = some k) :
    h % 2 = 1 ∧ h = k := by
  cases c with
  | none => cases hs
  | some c => exact skips_popClaim.1 hs

theorem skips_destroyLoop {h k : Nat} {c : ChunkId} {v : V} {n : Nat} : (destroyLoop h c v n).skips ≠ some k := by
  unfold destroyLoop
  split <;> exact nofun

theorem Flagged.move (hp : Placed s) (hf : Flagged s) (hpc : s.pc i = pc) (hm : Move s.mem pc m' pc' ev) :
    Flagged (s.put i (m', pc', ev)) := by
  have hle := hp.tail_le (hpc ▸ hm)
  have hok := hp.ok i
  have hskip := hf i
  rw [hpc] at hok hskip
  refine hf.put hle fun k hk => ?_
  cases hm with
  | popIndex | popRetry =>
    obtain ⟨⟨-, hodd⟩, rfl⟩ := skips_popChunk.1 hk
    exact hp.core.flag hodd
  | popFlagged h ho hodd =>
    obtain ⟨-, rfl⟩ := skips_popTry hk
    exact hskip h (skips_popChunk.2 ⟨⟨ho, hodd⟩, rfl⟩)
  | popAhead h c | popSame h c =>
    -- it has loaded `tail` because the index was even
    have heven : h % 2 = 0 := hok.2.1
    have := (skips_popTry hk).1
    omega
  | popFlagDestroy | destroySkip | destroyNext => exact absurd hk skips_destroyLoop
  | _ => cases hk

theorem flagged_of_run {C : State V → Act V → Prop} (h : Run step C .init s) : Flagged s :=
  holds_of_run h nofun fun hi hf hm => hf.move hi.placed rfl hm

structure FastPath (s : State V) : Prop where
  flag : s.mem.headIndex &&& hasNext ≠ 0 → position s.mem.headIndex / lap < position s.mem.tailIndex / lap
  /-- With a look at `tail` the pop would find the queue not empty and go on to the same claim. -/
  check : ∀ i h, (s.pc i).skips = some h → position h ≠ position s.mem.tailIndex ∧ ∀ spurious c,
    stepPc s.mem spurious (.popTail h c) = some (s.mem, popTry h (h + (1 <<< shift)) c, .silent)
  /-- What it claims has been claimed by a push. -/
  claim : ∀ i h spurious s', (s.pc i).skips = some h → step s (.run i spurious) = some s' →
    ∀ p, s'.hist.pops = s.hist.pops ++ [p] → p ∈ s.hist.pushes.map Prod.fst

theorem or_hasNext_of_odd {index : Nat} (h : index % 2 = 1) : index ||| hasNext = index := by
  have hpred : (index - 1) ||| hasNext = index := (or_hasNext (by omega)).trans (by omega)
  rw [← hpred, Nat.or_assoc, Nat.or_self]

theorem popTail_of_flagged {h : Nat} (hodd : h % 2 = 1) (hlap : position h / lap < position m.tailIndex / lap)
    (spurious : Bool) (c : Option ChunkId) :
    stepPc m spurious (.popTail h c) = some (m, popTry h (h + (1 <<< shift)) c, .silent) := by
  have hne : position h ≠ position m.tailIndex := fun heq => hlap.ne (by rw [heq])
  have hor : (h + (1 <<< shift)) ||| hasNext = h + (1 <<< shift) :=
    or_hasNext_of_odd ((Nat.add_mod_right h 2).trans hodd)
  rw [stepPc, if_neg hne, if_pos hlap.ne, hor]

theorem odd_of_skips {h : Nat} (hs : pc.skips = some h) : h % 2 = 1 := by
  cases pc with
  | popChunk k =>
    obtain ⟨⟨-, hodd⟩, rfl⟩ := skips_popChunk.1 hs
    exact hodd
  | popClaim k c k' =>
    obtain ⟨hodd, rfl⟩ := skips_popClaim.1 hs
    exact hodd
  | _ => cases hs

theorem claimed_of_log {h : Hist V} {p : Nat} (hp : (h.log i ev).pops = h.pops ++ [p]) : ev = .claimed p := by
  cases ev with
  | claimed q => rw [List.singleton_inj.1 (List.append_cancel_left hp)]
  | _ => simp [Hist.log] at hp

/-- A position that a pop claims has been claimed by a push. -/
theorem Inv.claim_pushed {p : Nat} (hi : Inv s) (hm : Move s.mem (s.pc i) m' pc' (.claimed p)) :
    p ∈ s.hist.pushes.map Prod.fst := by
  have hok := hi.placed.ok i
  generalize s.pc i = pc at hok hm
  rw [hi.counted.pushes, mem_slots]
  cases hm with
  | popClaimLast h c h' hh ho | popClaim h c h' hh ho => exact ⟨(hok.2.2.2.2 hh).2.1, hok.2.1⟩

/-- A pop that skips the load of `tail` loses nothing by it. -/
theorem fast_path_of_run (h : Run step Any .init s) : FastPath s := by
  have hi := inv_of_run h
  have hf := flagged_of_run h
  refine ⟨fun hflag => hi.placed.core.flag ?_, fun i k hk => ⟨fun heq => ?_, ?_⟩, fun i k b s' _ hs p hp => ?_⟩
  · rwa [and_hasNext, Nat.mod_two_ne_zero] at hflag
  · exact (hf i k hk).ne (by rw [heq])
  · exact popTail_of_flagged (odd_of_skips hk) (hf i k hk)
  · obtain ⟨⟨m', pc', ev⟩, hpc, rfl⟩ := Option.map_eq_some_iff.1 hs
    obtain rfl := claimed_of_log hp
    exact hi.claim_pushed (move_of_stepPc hpc)

/-- Behind `settleSchedule`, a second pop finds `HAS_NEXT` set. -/
theorem settled_fast_path : ∃ s : State Nat, Run step Any .init s ∧ s.mem.headIndex = 3 ∧
    (s.pc 1).skips = some 3 ∧ FastPath s := by
  have hexec : (exec step Any .init (settleSchedule ++ partCall 1 (.pop 1) 1)).map
      (fun s => (s.mem.headIndex, (s.pc 1).skips)) = some (3, some 3) := by
    decide +kernel
  obtain ⟨s, hrun, hs⟩ := Run.of_exec_map hexec
  rw [Prod.mk.injEq] at hs
  exact ⟨s, hrun, hs.1, hs.2, fast_path_of_run hrun⟩

/-! ### Index and chunk -/

/-- The successful claims with the chunk pointer the call held, and the first chunks that were installed. -/
structure Notes where
  tailClaims : List (Nat × ChunkId)
  headClaims : List (Nat × ChunkId)
  tailFirst : List ChunkId
  headFirst : List ChunkId

def Notes.empty : Notes := ⟨[], [], [], []⟩

/-- What is noted of a step from `pc`; a `compare_exchange` that fails has no event. -/
def Notes.add (n : Notes) : Pc V → Event V → Notes
  | .pushFirst _ _ _ new, .installed _ => { n with tailFirst := n.tailFirst ++ [new] }
  | .pushHead _ _ _ new, _ => { n with headFirst := n.headFirst ++ [new] }
  | .pushClaim _ _ tail chunk, .pushed _ _ => { n with tailClaims := n.tailClaims ++ [(tail, chunk)] }
  | .popClaim head chunk _, .claimed _ => { n with headClaims := n.headClaims ++ [(head, chunk)] }
  | _, _ => n

def note (s : State V) : Act V → Notes → Notes
  | .run i spurious, n => (stepPc s.mem spurious (s.pc i)).elim n fun r => n.add (s.pc i) r.2.2
  | _, n => n

theorem move_of_watch {n n' : Notes} {a : Act V} (h : watch step note (s, n) a = some (s', n')) :
    ∃ i m' pc' ev, Move s.mem (s.pc i) m' pc' ev ∧ s' = s.put i (m', pc', ev) ∧ n' = n.add (s.pc i) ev := by
  obtain ⟨hs, rfl⟩ := watch_eq h
  cases a with
  | push i v =>
    obtain ⟨hidle, rfl⟩ := enter_eq hs
    exact ⟨i, _, _, _, by rw [hidle]; exact .enterPush v, rfl, by rw [hidle]; rfl⟩
  | pop i =>
    obtain ⟨hidle, rfl⟩ := enter_eq hs
    exact ⟨i, _, _, _, by rw [hidle]; exact .enterPop, rfl, by rw [hidle]; rfl⟩
  | run i spurious =>
    obtain ⟨⟨m', pc', ev⟩, hpc, rfl⟩ := Option.map_eq_some_iff.1 hs
    exact ⟨i, m', pc', ev, move_of_stepPc hpc, rfl, by simp only [note, hpc, Option.elim_some]⟩

structure Noted (s : State V) (n : Notes) : Prop where
  tailClaims : ∀ e ∈ n.tailClaims, At s.hist.chain e.1 e.2
  headClaims : ∀ e ∈ n.headClaims, At s.hist.chain e.1 e.2 ∧ s.mem.headChunk ≠ none
  tailFirst : n.tailFirst = s.hist.chain.take 1
  headFirst : n.headFirst = if s.mem.headChunk = none then [] else s.hist.chain.take 1

theorem noted_init : Noted (.init : State V) .empty := ⟨nofun, nofun, rfl, rfl⟩

theorem At.take_one {chain : List ChunkId} {c : ChunkId} (h : At chain 0 c) : chain.take 1 = [c] := by
  cases chain with
  | nil => cases h
  | cons d chain => rw [← Option.some.inj (h : some d = some c)]; rfl

/-- A step that leaves the two first chunks alone, and may add a claim. -/
theorem Noted.keep {n n' : Notes} (hn : Noted s n)
    (hchain : (s.hist.log i ev).chain.take 1 = s.hist.chain.take 1)
    (hhead : m'.headChunk = none ↔ s.mem.headChunk = none) (htf : n'.tailFirst = n.tailFirst)
    (hhf : n'.headFirst = n.headFirst)
    (htail : ∀ e ∈ n'.tailClaims, e ∈ n.tailClaims ∨ At s.hist.chain e.1 e.2)
    (hclaim : ∀ e ∈ n'.headClaims, e ∈ n.headClaims ∨ At s.hist.chain e.1 e.2 ∧ s.mem.headChunk ≠ none) :
    Noted (s.put i (m', pc', ev)) n' := by
  have hext := chain_log s.hist i ev
  refine ⟨fun e he => ?_, fun e he => ?_, ?_, ?_⟩
  · exact ((htail e he).elim (hn.tailClaims e) id).ext hext
  · obtain ⟨hat, hsome⟩ := (hclaim e he).elim (hn.headClaims e) id
    exact ⟨hat.ext hext, fun h => hsome (hhead.1 h)⟩
  · rw [htf, hn.tailFirst]
    exact hchain.symm
  · rw [hhf, hn.headFirst]
    show _ = if m'.headChunk = none then [] else (s.hist.log i ev).chain.take 1
    rw [hchain, ite_cond_congr (propext hhead)]

theorem Noted.move {n : Notes} (hp : Placed s) (hn : Noted s n) (hpc : s.pc i = pc)
    (hm : Move s.mem pc m' pc' ev) : Noted (s.put i (m', pc', ev)) (n.add pc ev) := by
  have hok := hp.ok i
  have hhold := hp.holdHead i
  rw [hpc] at hok hhold
  cases hm with
  | pushFirst v n t c hc =>
    obtain ⟨hnil, -, -, hhead⟩ := hp.core.at_start hc
    have hone : s.hist.chain ++ [c] = [c] := by rw [hnil]; rfl
    have htail := hn.tailFirst
    have hfirst := hn.headFirst
    rw [hnil] at htail
    rw [if_pos hhead] at hfirst
    have hext := chain_log s.hist i (.installed c)
    refine ⟨fun e he => (hn.tailClaims e he).ext hext, fun e he => absurd hhead (hn.headClaims e he).2, ?_, ?_⟩
    · show _ ++ [c] = (s.hist.chain ++ [c]).take 1
      rw [htail, hone]
      rfl
    · exact hfirst.trans (if_pos hhead).symm
  | pushHead v n t c =>
    have hfirst := of_decide_eq_true (hp.firstHeld.set_of_pos (i := i) (by rw [hpc]; exact Nat.one_pos))
    obtain ⟨rfl, hat⟩ : t = 0 ∧ At s.hist.chain t c := hok
    refine ⟨hn.tailClaims, fun e he => absurd hfirst.1 (hn.headClaims e he).2, hn.tailFirst, ?_⟩
    show _ ++ [c] = s.hist.chain.take 1
    rw [hn.headFirst, if_pos hfirst.1, hat.take_one]
    rfl
  | pushTailChunk v t c n' =>
    obtain ⟨d, chain, hcons⟩ := List.exists_cons_of_ne_nil hok.2.2.length_pos
    refine hn.keep ?_ Iff.rfl rfl rfl (fun _ => .inl) fun _ => .inl
    show (s.hist.chain ++ [n']).take 1 = _
    rw [hcons]
    rfl
  | pushClaimLast v t c n' ht ho | pushClaimNone v t c ht ho | pushClaim v n' t c ht ho =>
    refine hn.keep rfl Iff.rfl rfl rfl (fun e he => ?_) fun _ => .inl
    rcases List.mem_append.1 he with he | he
    · exact .inl he
    · obtain rfl := List.mem_singleton.1 he
      exact .inr (hok.2.2.2.2 ht)
  | popClaimLast h c h' hh ho | popClaim h c h' hh ho =>
    refine hn.keep rfl Iff.rfl rfl rfl (fun _ => .inl) fun e he => ?_
    rcases List.mem_append.1 he with he | he
    · exact .inl he
    · obtain rfl := List.mem_singleton.1 he
      exact .inr ⟨(hok.2.2.2.2 hh).1, hok.2.2.2.1⟩
  | popHeadChunk h c d k =>
    -- `head` has moved, so it has known a chunk before
    have hsome : s.mem.headChunk ≠ none := by
      intro hnone
      have hpos : position s.mem.headIndex = position h + 1 := hhold
      rw [hp.core.headNone hnone] at hpos
      cases hpos
    exact hn.keep rfl ⟨nofun, fun h => absurd h hsome⟩ rfl rfl (fun _ => .inl) fun _ => .inl
  | _ => exact hn.keep rfl Iff.rfl rfl rfl (fun _ => .inl) fun _ => .inl

theorem noted_of_watch {n : Notes} (h : Run (watch step note) Any (.init, .empty) (s, n)) : Inv s ∧ Noted s n :=
  h.invariant (P := fun w => Inv w.1 ∧ Noted w.1 w.2) ⟨inv_init, noted_init⟩ fun t a u ht _ hs => by
    refine ⟨ht.1.step (watch_eq hs).1, ?_⟩
    obtain ⟨i, m', pc', ev, hm, hu, hn⟩ := move_of_watch hs
    rw [hu, hn]
    exact ht.2.move ht.1.placed rfl hm

structure Matched (s : State V) (n : Notes) : Prop where
  /-- Each claim was made with the chunk of its lap. -/
  tailClaims : ∀ e ∈ n.tailClaims, s.hist.chain[position e.1 / lap]? = some e.2
  headClaims : ∀ e ∈ n.headClaims, s.hist.chain[position e.1 / lap]? = some e.2
  next : ∀ c d, s.mem.next c = some d → ∃ k, s.hist.chain[k]? = some c ∧ s.hist.chain[k + 1]? = some d
  /-- A first chunk is installed once, -/
  tailFirst : n.tailFirst = s.hist.chain.take 1
  claimed : n.tailClaims ≠ [] ∨ n.headClaims ≠ [] → ∃ c, n.tailFirst = [c]
  /-- and `head` gets the same one, from the thread that has installed it. -/
  headFirst : n.headFirst = n.tailFirst ∨ n.headFirst = [] ∧ ∃ i, (s.pc i).holdsFirst = true
  told : n.headClaims ≠ [] → n.headFirst = n.tailFirst

theorem At.singleton {chain : List ChunkId} {k : Nat} {c : ChunkId} (h : At chain k c) : ∃ d, chain.take 1 = [d] := by
  obtain ⟨d, l, hcons⟩ := List.exists_cons_of_ne_nil h.length_pos
  exact ⟨d, by rw [hcons]; rfl⟩

theorem Noted.matched {n : Notes} (hp : Placed s) (hn : Noted s n) : Matched s n := by
  have htold : s.mem.headChunk ≠ none → n.headFirst = n.tailFirst := fun hsome => by
    rw [hn.headFirst, if_neg hsome, hn.tailFirst]
  refine ⟨hn.tailClaims, fun e he => (hn.headClaims e he).1, fun c d hcd => ?_, hn.tailFirst, fun hne => ?_, ?_,
    fun hne => ?_⟩
  · obtain ⟨k, hc, hd, -⟩ := hp.core.next c d hcd
    exact ⟨k, hc, hd⟩
  · rw [hn.tailFirst]
    rcases hne with hne | hne
    · obtain ⟨e, he⟩ := List.exists_mem_of_ne_nil _ hne
      exact (hn.tailClaims e he).singleton
    · obtain ⟨e, he⟩ := List.exists_mem_of_ne_nil _ hne
      exact (hn.headClaims e he).1.singleton
  · by_cases hnone : s.mem.headChunk = none
    · have hfirst : n.headFirst = [] := hn.headFirst.trans (if_pos hnone)
      by_cases hnil : s.hist.chain = []
      · rw [hfirst, hn.tailFirst, hnil]
        exact .inl rfl
      · obtain ⟨i, hi⟩ := hp.firstHeld.iff_pos.1 (decide_eq_true ⟨hnone, hnil⟩)
        refine .inr ⟨hfirst, i, ?_⟩
        cases hb : (s.pc i).holdsFirst with
        | true => rfl
        | false => simp [hb] at hi
    · exact .inl (htold hnone)
  · obtain ⟨e, he⟩ := List.exists_mem_of_ne_nil _ hne
    exact htold (hn.headClaims e he).2

/-- In every run, whatever is noted of its claims is matched by the chain. -/
theorem matched_of_run (h : Run step Any .init s) :
    (∃ n, Run (watch step note) Any (.init, .empty) (s, n)) ∧
      ∀ n, Run (watch step note) Any (.init, .empty) (s, n) → Matched s n :=
  ⟨h.watch Notes.empty, fun _ hn => (noted_of_watch hn).2.matched (noted_of_watch hn).1.placed⟩

/-- Two pushes race for the first chunk, and a pop takes the first value. -/
theorem race_matched : ∃ (s : State Nat) (n : Notes), Run step Any .init s ∧ n.tailClaims = [(0, 0), (2, 0)] ∧
    n.headClaims = [(0, 0)] ∧ n.tailFirst = [0] ∧ n.headFirst = [0] ∧ Matched s n := by
  have hexec : (exec (watch step note) Any (State.init, Notes.empty) raceSchedule).map
      (fun w => (w.2.tailClaims, w.2.headClaims, w.2.tailFirst, w.2.headFirst)) =
        some ([(0, 0), (2, 0)], [(0, 0)], [0], [0]) := by
    decide +kernel
  obtain ⟨⟨s, n⟩, hrun, hs⟩ := Run.of_exec_map hexec
  simp only [Prod.mk.injEq] at hs
  have hqueue : Run step Any .init s := hrun.unwatch
  exact ⟨s, n, hqueue, hs.1, hs.2.1, hs.2.2.1, hs.2.2.2, (matched_of_run hqueue).2 n hrun⟩

end CoQueue.Lockless
