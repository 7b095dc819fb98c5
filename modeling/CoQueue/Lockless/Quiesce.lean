import CoQueue.Lockless.Rest

/-!
# Every call can return

A call waits for another thread in four places: while an index is on a phantom position, for the first chunk,
for the `next` of a chunk and for the `WRITE` of a slot. Each time there is a thread that will do what it waits
for, and that thread is not waiting for this one: a push that has made its claim waits for nobody, a pop that has
made its claim waits for such a push only, and a call that has made no claim waits for the thread that switches
the chunk of its index or has installed the first chunk. `Pc.distance` bounds the accesses that a thread still
makes when nobody is in its way, so the calls in progress can be completed, the claimed pushes first and the
unclaimed calls last.
-/

namespace CoQueue.Lockless

open Schedule Token

variable {V : Type} {s s' : State V} {m m' : Mem V} {pc pc' : Pc V} {ev : Event V} {i j : Tid} {p : Nat}

/-- How many accesses a thread is away from its return, at most, when no other thread moves or is in its way. -/
def Pc.distance (m : Mem V) : Pc V → Nat
  | .idle | .panicked | .undefined => 0
  | .pushFlag _ _ => 1
  | .pushWrite _ _ _ => 2
  | .pushNext _ _ _ _ => 3
  | .pushTailIndex _ _ _ _ => 4
  | .pushTailChunk _ _ _ _ => 5
  -- a claim that cannot succeed any more leads back to the loads
  | .pushClaim _ _ t _ => if m.tailIndex = t then 6 else 8
  | .pushChunk _ _ t => if m.tailChunk = none then 12 else if m.tailIndex = t then 7 else 9
  | .pushIndex _ _ => if m.tailChunk = none then 13 else 8
  | .pushFirst _ _ _ _ => if m.tailChunk = none then 11 else 9
  | .pushHead _ _ _ _ => 10
  | .popClaim h _ _ => if m.headIndex = h then 73 else 76
  | .popTail h c => if m.headChunk = none then 1 else if m.headIndex = h ∧ c ≠ none then 74 else 77
  | .popChunk h => if m.headChunk = none then 2 else if m.headIndex = h then 75 else 78
  | .popIndex => if m.headChunk = none then 3 else 76
  | pc => pc.rank + 1

/-- Nobody is in the way of thread `i`: of a pop that has made its claim, no push that has made one; of a call
that has made no claim, nobody who switches chunks either. -/
def Free (s : State V) (i : Tid) : Prop :=
  (s.pc i).brings = none → ∀ j, j ≠ i → (s.pc j).brings = none ∧
    ((s.pc i).takes = none → (s.pc j).holdsHead = false ∧ (s.pc j).holdsFirst = false)

theorem holdsTail_of_brings (h : pc.brings = none) : pc.holdsTail = false := by
  cases pc <;> first | rfl | cases h

theorem holdsHead_of_takes (h : pc.takes = none) : pc.holdsHead = false := by
  cases pc <;> first | rfl | cases h

theorem Inv.tail_off (hi : Inv s) (hf : Free s i) (hb : (s.pc i).brings = none) :
    offset s.mem.tailIndex ≠ chunkCap := by
  refine of_decide_eq_false (hi.placed.tailHeld.eq_false fun j => ?_)
  by_cases hji : j = i
  · rw [hji, holdsTail_of_brings hb]
    rfl
  · rw [holdsTail_of_brings (hf hb j hji).1]
    rfl

theorem Inv.head_off (hi : Inv s) (hf : Free s i) (hb : (s.pc i).brings = none) (ht : (s.pc i).takes = none) :
    offset s.mem.headIndex ≠ chunkCap := by
  refine of_decide_eq_false (hi.placed.headHeld.eq_false fun j => ?_)
  by_cases hji : j = i
  · rw [hji, holdsHead_of_takes ht]
    rfl
  · rw [((hf hb j hji).2 ht).1]
    rfl

/-- `head` has a chunk, or there is none yet. -/
theorem Inv.first (hi : Inv s) (hf : Free s i) (hb : (s.pc i).brings = none) (ht : (s.pc i).takes = none)
    (hfirst : (s.pc i).holdsFirst = false) (hc : s.mem.headChunk = none) : s.hist.chain = [] := by
  have hnone := of_decide_eq_false (hi.placed.firstHeld.eq_false fun j => by
    by_cases hji : j = i
    · rw [hji, hfirst]
      rfl
    · rw [((hf hb j hji).2 ht).2]
      rfl)
  by_contra hne
  exact hnone ⟨hc, hne⟩

theorem Inv.tail_zero (hi : Inv s) (hc : s.hist.chain = []) : s.mem.tailIndex = 0 ∧ s.mem.headIndex = 0 := by
  have htail : s.mem.tailIndex = 0 := by
    rcases hi.placed.core.length with h | h | h
    · exact h.2
    · rw [hc] at h
      cases h
    · rw [hc] at h
      cases h.2
  have hle := hi.placed.core.le
  have hflag : s.mem.headIndex % 2 ≠ 1 := by
    intro hodd
    have hlt := hi.placed.core.flag hodd
    simp only [htail, position_eq, Nat.zero_div, Nat.not_lt_zero] at hlt
  simp only [htail, position_eq, Nat.zero_div] at hle
  exact ⟨htail, by omega⟩

theorem Inv.chunk_none (hi : Inv s) (hc : s.mem.tailChunk = none) : s.hist.chain = [] := by
  rw [hi.placed.core.tailChunk, List.getLast?_eq_none_iff] at hc
  exact hc

/-- The push of a position that a pop has claimed has returned if no push is behind its claim. -/
theorem Inv.filled_of_takes (hi : Inv s) (hb : Brought s) (ht : (s.pc i).takes = some p)
    (hnone : ∀ j, (s.pc j).brings = none) : Filled s.mem s.hist.chain p := by
  have hpops : p ∈ s.hist.pops := by
    have hpos : 0 < (s.pc i).takesPos p := by rw [Pc.takesPos, if_pos ht]; exact Nat.one_pos
    exact (of_decide_eq_true ((hi.taken.held p).set_of_pos hpos)).1
  have hpush := hi.order.subset hpops
  by_contra hfilled
  have hback : p ∉ s.hist.pushed := by
    intro hmem
    obtain ⟨⟨j, r⟩, hret, hmatch⟩ := List.mem_filterMap.1 hmem
    cases r with
    | push q =>
      cases hmatch
      exact hfilled (hi.ready.filled j p hret)
    | pop r => cases hmatch
  obtain ⟨j, hj, -⟩ := hb.existsUnique hpush hback
  rw [hnone j] at hj
  cases hj

/-! ### One access -/

def Closer (s : State V) (i : Tid) : Prop :=
  ∃ r, stepPc s.mem false (s.pc i) = some r ∧ r.2.1.distance r.1 < (s.pc i).distance s.mem

theorem distance_of_takes (m : Mem V) (h : pc.takes = some p) : pc.distance m = pc.rank + 1 := by
  cases pc <;> first | rfl | cases h

theorem Inv.closer_pop (hi : Inv s) (hb : Brought s) (ht : (s.pc i).takes = some p)
    (hnone : ∀ j, (s.pc j).brings = none) : Closer s i := by
  obtain ⟨⟨m', pc', ev⟩, hs, hr⟩ := hi.nearer ht (hi.filled_of_takes hb ht hnone)
  refine ⟨_, hs, ?_⟩
  rw [distance_of_takes s.mem ht]
  rcases hr with ⟨htakes, hlt, -⟩ | ⟨v, rfl⟩
  · rw [distance_of_takes m' htakes]
    exact Nat.succ_lt_succ hlt
  · have hidle : pc' = .idle := by
      have hm := move_of_stepPc hs
      generalize s.pc i = pc at hm
      cases hm <;> rfl
    rw [hidle]
    exact Nat.succ_pos _

theorem closer_push (h : (s.pc i).brings = some p) : Closer s i := by
  unfold Closer
  generalize s.pc i = pc at *
  cases pc <;> first | exact ⟨_, rfl, Nat.lt_succ_self _⟩ | cases h

theorem Inv.closer_pushChunk {v : V} {n : Option ChunkId} {t : Nat} (hi : Inv s)
    (hpc : s.pc i = .pushChunk v n t) (hoff : offset s.mem.tailIndex ≠ chunkCap) : Closer s i := by
  have hok := hi.placed.ok i
  rw [hpc] at hok
  refine ⟨_, by rw [hpc]; rfl, ?_⟩
  rw [hpc]
  show (pushLoop s.mem v n t s.mem.tailChunk).2.distance (pushLoop s.mem v n t s.mem.tailChunk).1 < _
  have hres : (reserve s.mem n t).1.tailChunk = s.mem.tailChunk ∧
      (reserve s.mem n t).1.tailIndex = s.mem.tailIndex := by
    unfold reserve
    split
    · exact ⟨rfl, rfl⟩
    · exact ⟨rfl, rfl⟩
  unfold pushLoop
  cases hc : s.mem.tailChunk with
  | none =>
    have hzero := (hi.tail_zero (hi.chunk_none hc)).1
    have ht : t = s.mem.tailIndex := by have := hok.1; omega
    rw [if_neg (ht ▸ hoff)]
    simp only [pushTry, Pc.distance, Mem.alloc, hres.1, hc, if_true]
    decide
  | some c =>
    split
    · have hne : s.mem.tailIndex ≠ t := fun heq => hoff (heq ▸ ‹_›)
      simp only [Pc.distance, hc, reduceCtorEq, if_false, if_neg hne]
      decide
    · simp only [pushTry, Pc.distance, hres.2, hc, reduceCtorEq, if_false]
      split
      · decide
      · decide

theorem Inv.closer_pushClaim {v : V} {n : Option ChunkId} {t : Nat} {c : ChunkId} (hi : Inv s)
    (hpc : s.pc i = .pushClaim v n t c) : Closer s i := by
  have hok := hi.placed.ok i
  rw [hpc] at hok
  unfold Closer
  rw [hpc]
  by_cases ht : s.mem.tailIndex = t
  · have hdist : (Pc.pushClaim v n t c).distance s.mem = 6 := if_pos ht
    simp only [stepPc, hdist, ht, and_self, if_true]
    split
    · cases n with
      | none => exact absurd rfl (hok.2.2.2.1 ‹_›)
      | some n => exact ⟨_, rfl, show 5 < 6 by decide⟩
    · exact ⟨_, rfl, show 2 < 6 by decide⟩
  · -- `tail` has moved, so there is a chunk
    have hc : s.mem.tailChunk ≠ none := by
      intro hc
      have hzero := (hi.tail_zero (hi.chunk_none hc)).1
      have := hok.1
      omega
    have hdist : (Pc.pushClaim v n t c).distance s.mem = 8 := if_neg ht
    have hdist' : (Pc.pushChunk v n s.mem.tailIndex).distance s.mem = 7 := (if_neg hc).trans (if_pos rfl)
    simp only [stepPc, hdist, ht, false_and, if_false]
    exact ⟨_, rfl, by rw [hdist']; decide⟩

theorem Inv.closer_popChunk {h : Nat} (hi : Inv s) (hpc : s.pc i = .popChunk h)
    (hoff : offset s.mem.headIndex ≠ chunkCap) (hfirst : s.mem.headChunk = none → s.hist.chain = []) :
    Closer s i := by
  have hok := hi.placed.ok i
  rw [hpc] at hok
  refine ⟨_, by rw [hpc]; rfl, ?_⟩
  rw [hpc]
  show (popLoop h s.mem.headChunk).distance s.mem < _
  have hflag : (h + (1 <<< shift)) &&& hasNext = h % 2 := add_and_hasNext h
  unfold popLoop
  cases hc : s.mem.headChunk with
  | none =>
    have hzero := (hi.tail_zero (hfirst hc)).2
    obtain rfl : h = 0 := by have : h ≤ _ := hok; omega
    rw [if_neg (hzero ▸ hoff), if_pos hflag]
    simp only [Pc.distance, hc, if_true]
    decide
  | some c =>
    by_cases hh : s.mem.headIndex = h
    · rw [if_neg (hh ▸ hoff)]
      split
      · simp only [Pc.distance, hc, hh, reduceCtorEq, if_false, ne_eq, not_false_eq_true, and_self, if_true]
        decide
      · simp only [popTry, Pc.distance, hc, hh, reduceCtorEq, if_false, if_true]
        decide
    · split
      · simp only [Pc.distance, hc, hh, reduceCtorEq, if_false]
        decide
      · split
        · simp only [Pc.distance, hc, hh, reduceCtorEq, if_false, false_and]
          decide
        · simp only [popTry, Pc.distance, hc, hh, reduceCtorEq, if_false]
          decide

theorem Inv.closer_popTail {h : Nat} {c : Option ChunkId} (hi : Inv s) (hpc : s.pc i = .popTail h c)
    (hfirst : s.mem.headChunk = none → s.hist.chain = []) : Closer s i := by
  have hok := hi.placed.ok i
  rw [hpc] at hok
  unfold Closer
  rw [hpc]
  have hpos : 0 < (Pc.popTail h c : Pc V).distance s.mem := by
    simp only [Pc.distance]
    split
    · decide
    · split
      · decide
      · decide
  by_cases hempty : position h = position s.mem.tailIndex
  · simp only [stepPc, if_pos hempty]
    exact ⟨_, rfl, hpos⟩
  · have hchunk : s.mem.headChunk ≠ none := by
      intro hnone
      have hzero := hi.tail_zero (hfirst hnone)
      obtain rfl : h = 0 := by have := hok.1; omega
      exact hempty (by rw [hzero.1])
    have htry : ∀ h' : Nat, (popTry h h' c : Pc V).distance s.mem < (Pc.popTail h c : Pc V).distance s.mem := by
      intro h'
      cases c with
      | none =>
        simp only [popTry, Pc.distance, if_neg hchunk, ne_eq, not_true_eq_false, and_false, if_false]
        decide
      | some d =>
        simp only [popTry, Pc.distance, if_neg hchunk, ne_eq, reduceCtorEq, not_false_eq_true, and_true]
        split
        · decide
        · decide
    simp only [stepPc, if_neg hempty]
    split
    · exact ⟨_, rfl, htry _⟩
    · exact ⟨_, rfl, htry _⟩

theorem Inv.closer_popClaim {h h' : Nat} {c : ChunkId} (hi : Inv s) (hpc : s.pc i = .popClaim h c h') :
    Closer s i := by
  have hok := hi.placed.ok i
  rw [hpc] at hok
  unfold Closer
  rw [hpc]
  by_cases hh : s.mem.headIndex = h
  · have hdist : (Pc.popClaim h c h' : Pc V).distance s.mem = 73 := if_pos hh
    simp only [stepPc, hdist, hh, and_self, if_true]
    split
    · exact ⟨_, rfl, show 72 < 73 by decide⟩
    · exact ⟨_, rfl, show 68 < 73 by decide⟩
  · have hdist : (Pc.popClaim h c h' : Pc V).distance s.mem = 76 := if_neg hh
    have hdist' : (Pc.popChunk s.mem.headIndex : Pc V).distance s.mem = 75 :=
      (if_neg hok.2.2.2.1).trans (if_pos rfl)
    simp only [stepPc, hdist, hh, false_and, if_false]
    exact ⟨_, rfl, by rw [hdist']; decide⟩

/-- If nobody is in its way, each access brings a thread closer to its return. -/
theorem Inv.closer (hi : Inv s) (hb : Brought s) (hidle : s.pc i ≠ .idle) (hf : Free s i) : Closer s i := by
  cases hbrings : (s.pc i).brings with
  | some p => exact closer_push hbrings
  | none =>
    have hnone : ∀ j, (s.pc j).brings = none := by
      intro j
      by_cases hji : j = i
      · rw [hji, hbrings]
      · exact (hf hbrings j hji).1
    cases htakes : (s.pc i).takes with
    | some p => exact hi.closer_pop hb htakes hnone
    | none =>
      have htail := hi.tail_off hf hbrings
      have hhead := hi.head_off hf hbrings htakes
      have hfirst := hi.first hf hbrings htakes
      cases hpc : s.pc i <;> rw [hpc] at hbrings htakes hfirst
      case idle => exact absurd hpc hidle
      case panicked =>
        have hok := hi.placed.ok i
        rw [hpc] at hok
        cases hok
      case undefined =>
        have hsound := hi.valued.sound i
        rw [hpc] at hsound
        cases hsound
      case pushIndex v n =>
        refine ⟨_, by rw [hpc]; rfl, ?_⟩
        rw [hpc]
        simp only [Pc.distance, if_true]
        split
        · decide
        · decide
      case pushChunk => exact hi.closer_pushChunk hpc htail
      case pushFirst v n t c =>
        unfold Closer
        rw [hpc]
        by_cases hc : s.mem.tailChunk = none
        · have hdist : (Pc.pushFirst v n t c).distance s.mem = 11 := if_pos hc
          simp only [stepPc, hdist, hc, if_true]
          exact ⟨_, rfl, show 10 < 11 by decide⟩
        · have hdist : (Pc.pushFirst v n t c).distance s.mem = 9 := if_neg hc
          have hdist' : (Pc.pushIndex v (some c)).distance s.mem = 8 := if_neg hc
          simp only [stepPc, hdist, hc, if_false]
          exact ⟨_, rfl, by rw [hdist']; decide⟩
      case pushHead v n t c =>
        refine ⟨_, by rw [hpc]; rfl, ?_⟩
        rw [hpc]
        simp only [Pc.distance]
        split
        · decide
        · decide
      case pushClaim => exact hi.closer_pushClaim hpc
      case popIndex =>
        refine ⟨_, by rw [hpc]; rfl, ?_⟩
        rw [hpc]
        simp only [Pc.distance, if_true]
        split
        · decide
        · decide
      case popChunk => exact hi.closer_popChunk hpc hhead (hfirst rfl)
      case popTail => exact hi.closer_popTail hpc (hfirst rfl)
      case popClaim => exact hi.closer_popClaim hpc
      -- the others have made a claim
      all_goals simp only [Pc.brings, Pc.takes, reduceCtorEq] at hbrings htakes

/-! ### One call -/

theorem brings_of_move (hm : Move m pc m' pc' ev) (hidle : pc' ≠ .idle) (h : pc'.brings = none) :
    pc.brings = none := by
  cases hm <;> first | rfl | exact h | exact absurd rfl hidle

theorem takes_of_move (hm : Move m pc m' pc' ev) (hidle : pc' ≠ .idle) (hdef : pc' ≠ .undefined)
    (h : pc'.takes = none) : pc.takes = none := by
  cases hm with
  | popFlagDestroy | destroySkip | destroyNext =>
    rw [takes_destroyLoop] at h
    cases h
  | _ => first | rfl | exact h | exact absurd rfl hidle | exact absurd rfl hdef

theorem Free.move (hf : Free s i) (hm : Move s.mem (s.pc i) m' pc' ev) (hidle : pc' ≠ .idle)
    (hdef : pc' ≠ .undefined) : Free (s.put i (m', pc', ev)) i := by
  intro hbrings j hji
  have hself : (s.put i (m', pc', ev)).pc i = pc' := Function.update_self ..
  have hother : (s.put i (m', pc', ev)).pc j = s.pc j := Function.update_of_ne hji _ _
  rw [hself] at hbrings ⊢
  rw [hother]
  obtain ⟨hj, hrest⟩ := hf (brings_of_move hm hidle hbrings) j hji
  exact ⟨hj, fun htakes => hrest (takes_of_move hm hidle hdef htakes)⟩

theorem Inv.defined (hi : Inv s) (i : Tid) : s.pc i ≠ .undefined := by
  intro hpc
  have hsound := hi.valued.sound i
  rw [hpc] at hsound
  cases hsound

/-- Thread `i` gets to its return on its own steps. -/
theorem completes (h : Run step Any .init s) (hf : Free s i) :
    ∃ t, Run step (fun _ a => a = .run i false) s t ∧ t.pc i = .idle ∧ ∀ j, j ≠ i → t.pc j = s.pc j := by
  -- by induction on the distance to the return
  generalize hn : (s.pc i).distance s.mem = n
  induction n using Nat.strong_induction_on generalizing s with
  | _ n ih =>
    by_cases hidle : s.pc i = .idle
    · exact ⟨s, .refl, hidle, fun _ _ => rfl⟩
    obtain ⟨⟨m', pc', ev⟩, hr, hlt⟩ := (inv_of_run h).closer (brought_of_run h) hidle hf
    have hstep : step s (.run i false) = some (s.put i (m', pc', ev)) := by
      rw [step, hr]
      rfl
    have hone : Run step (fun _ a => a = .run i false) s (s.put i (m', pc', ev)) := .single rfl hstep
    have hself : (s.put i (m', pc', ev)).pc i = pc' := Function.update_self ..
    have hother : ∀ j, j ≠ i → (s.put i (m', pc', ev)).pc j = s.pc j := fun j hji =>
      Function.update_of_ne hji _ _
    have hrun : Run step Any .init (s.put i (m', pc', ev)) := .tail h trivial hstep
    by_cases hidle' : pc' = .idle
    · exact ⟨_, hone, hself.trans hidle', hother⟩
    have hdef : pc' ≠ .undefined := hself ▸ (inv_of_run hrun).defined i
    have hf' := hf.move (move_of_stepPc hr) hidle' hdef
    obtain ⟨t, ht, hend, hkeep⟩ := ih _ (hn ▸ hlt) hrun hf' (by rw [hself]; rfl)
    exact ⟨t, hone.trans ht, hend, fun j hji => (hkeep j hji).trans (hother j hji)⟩

/-! ### All calls -/

/-- Only finitely many threads have ever made a call. -/
theorem finite_of_run (h : Run step Any .init s) : ∃ l : List Tid, ∀ j, j ∉ l → s.pc j = .idle := by
  refine h.invariant (P := fun s => ∃ l : List Tid, ∀ j, j ∉ l → s.pc j = .idle) ⟨[], fun _ _ => rfl⟩ ?_
  rintro t a u ⟨l, hl⟩ - hs
  refine ⟨a.tid :: l, fun j hj => ?_⟩
  rw [List.mem_cons, not_or] at hj
  rw [step_pc_of_ne hs hj.1]
  exact hl j hj.2

/-- A step of a call in progress. -/
def GoOn (_ : State V) (a : Act V) : Prop := ∃ i, a = .run i false

theorem reached_of_goOn (h : Run step Any .init s) (hs : Run step GoOn s s') : Run step Any .init s' :=
  h.trans (hs.mono fun _ _ _ => trivial)

/-- Thread `i` gets to its return, and what is so of all threads stays so. -/
theorem returns_of_free {R : Pc V → Prop} (hidle : R .idle) (h : Run step Any .init s) (hall : ∀ j, R (s.pc j))
    (hf : Free s i) : ∃ t, Run step GoOn s t ∧ (Run step Any .init t ∧ ∀ j, R (t.pc j)) ∧ t.pc i = .idle ∧
      ∀ j, j ≠ i → t.pc j = s.pc j := by
  obtain ⟨t, hrun, hi, hother⟩ := completes h hf
  have hgo : Run step GoOn s t := hrun.mono fun _ _ ha => ⟨i, ha⟩
  refine ⟨t, hgo, ⟨reached_of_goOn h hgo, fun j => ?_⟩, hi, hother⟩
  by_cases hji : j = i
  · rw [hji, hi]
    exact hidle
  · rw [hother j hji]
    exact hall j

/-- Nobody has to wait for this thread to finish a push or to tell `head` of the first chunk. -/
def Pc.settled (pc : Pc V) : Prop := pc.brings = none ∧ pc.holdsFirst = false

theorem eq_pushHead (h : pc.holdsFirst = true) : ∃ v n t c, pc = .pushHead v n t c := by
  cases pc <;> first | exact ⟨_, _, _, _, rfl⟩ | cases h

theorem settle_push (i : Tid) (h : Run step Any .init s) :
    ∃ t, Run step GoOn s t ∧ Run step Any .init t ∧ (t.pc i).settled ∧ ∀ j, j ≠ i → t.pc j = s.pc j := by
  cases hbrings : (s.pc i).brings with
  | some p =>
    have hf : Free s i := fun hnone => by rw [hbrings] at hnone; cases hnone
    obtain ⟨t, hgo, ⟨ht, -⟩, hi, hother⟩ := returns_of_free (R := fun _ => True) trivial h (fun _ => trivial) hf
    exact ⟨t, hgo, ht, by rw [hi]; exact ⟨rfl, rfl⟩, hother⟩
  | none =>
    cases hfirst : (s.pc i).holdsFirst with
    | false => exact ⟨s, .refl, h, ⟨hbrings, hfirst⟩, fun _ _ => rfl⟩
    | true =>
      obtain ⟨v, n, t, c, hpc⟩ := eq_pushHead hfirst
      have hstep : step s (.run i false) =
          some (s.put i ({ s.mem with headChunk := some c }, .pushClaim v n t c, .silent)) := by
        rw [step, hpc]
        rfl
      refine ⟨_, .single ⟨i, rfl⟩ hstep, .tail h trivial hstep, ?_, fun j hji => Function.update_of_ne hji _ _⟩
      rw [show (s.put i _).pc i = _ from Function.update_self ..]
      exact ⟨rfl, rfl⟩

theorem settle_pop (i : Tid) (h : Run step Any .init s ∧ ∀ j, (s.pc j).settled) :
    ∃ t, Run step GoOn s t ∧ (Run step Any .init t ∧ ∀ j, (t.pc j).settled) ∧ (t.pc i).takes = none ∧
      ∀ j, j ≠ i → t.pc j = s.pc j := by
  cases htakes : (s.pc i).takes with
  | none => exact ⟨s, .refl, h, htakes, fun _ _ => rfl⟩
  | some p =>
    have hf : Free s i := fun _ j _ => ⟨(h.2 j).1, fun hnone => by rw [htakes] at hnone; cases hnone⟩
    obtain ⟨t, hgo, ht, hi, hother⟩ := returns_of_free (R := Pc.settled) ⟨rfl, rfl⟩ h.1 h.2 hf
    exact ⟨t, hgo, ht, by rw [hi]; rfl, hother⟩

theorem settle_call (i : Tid) (h : Run step Any .init s ∧ ∀ j, (s.pc j).settled ∧ (s.pc j).takes = none) :
    ∃ t, Run step GoOn s t ∧ (Run step Any .init t ∧ ∀ j, (t.pc j).settled ∧ (t.pc j).takes = none) ∧
      t.pc i = .idle ∧ ∀ j, j ≠ i → t.pc j = s.pc j := by
  refine returns_of_free (R := fun pc => pc.settled ∧ pc.takes = none) ⟨⟨rfl, rfl⟩, rfl⟩ h.1 h.2 fun _ j _ => ?_
  obtain ⟨⟨hbrings, hfirst⟩, htakes⟩ := h.2 j
  exact ⟨hbrings, fun _ => ⟨holdsHead_of_takes htakes, hfirst⟩⟩

/-- The calls in progress can all return, whatever has happened before: no call waits for one that waits for it,
and none for something that only a new call would do. -/
theorem quiesces (h : Run step Any .init s) : ∃ t, Run step GoOn s t ∧ AtRest t := by
  -- the pushes behind their claims, then the pops behind theirs, then the calls without a claim
  obtain ⟨l, hl⟩ := finite_of_run h
  obtain ⟨s₁, hgo₁, h₁, hpush⟩ := Run.sweep (P := Run step Any .init) (Q := Pc.settled)
    (fun _ i hs => settle_push i hs) l h fun j hj => by rw [hl j hj]; exact ⟨rfl, rfl⟩
  obtain ⟨l₁, hl₁⟩ := finite_of_run h₁
  obtain ⟨s₂, hgo₂, h₂, hpop⟩ := Run.sweep (P := fun s => Run step Any .init s ∧ ∀ j, (s.pc j).settled)
    (Q := fun pc : Pc V => pc.takes = none) (fun _ i hs => settle_pop i hs) l₁ ⟨h₁, hpush⟩
    fun j hj => by rw [hl₁ j hj]; rfl
  obtain ⟨l₂, hl₂⟩ := finite_of_run h₂.1
  obtain ⟨s₃, hgo₃, h₃, hrest⟩ := Run.sweep
    (P := fun s => Run step Any .init s ∧ ∀ j, (s.pc j).settled ∧ (s.pc j).takes = none)
    (Q := fun pc : Pc V => pc = .idle) (fun _ i hs => settle_call i hs) l₂ ⟨h₂.1, fun j => ⟨h₂.2 j, hpop j⟩⟩ hl₂
  exact ⟨s₃, (hgo₁.trans hgo₂).trans hgo₃, hrest⟩

/-- Thread 1 waits for thread 0, which has claimed the first slot and not written it yet, and the claim that
thread 2 is about to make will fail. -/
def stalled : List (Act Nat) :=
  partCall 0 (.push 0 10) 3 ++ partCall 2 (.push 2 20) 2 ++ List.replicate 2 (.run 0 false) ++
    partCall 1 (.pop 1) 6

theorem stalled_quiesces : ∃ s : State Nat, Run step Any .init s ∧ (s.pc 1).takes = some 0 ∧
    (s.pc 0).brings = some 0 ∧ ∃ t, Run step GoOn s t ∧ AtRest t := by
  have hexec : (exec step Any .init stalled).map (fun s => ((s.pc 1).takes, (s.pc 0).brings)) =
      some (some 0, some 0) := by
    decide +kernel
  obtain ⟨s, hrun, hs⟩ := Run.of_exec_map hexec
  rw [Prod.mk.injEq] at hs
  exact ⟨s, hrun, hs.1, hs.2, quiesces hrun⟩

end CoQueue.Lockless
