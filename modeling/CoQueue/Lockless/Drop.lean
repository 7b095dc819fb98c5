import CoQueue.Lib.Path
import CoQueue.Lockless.Destroy
import CoQueue.Lockless.Len

/-!
# `CoQueue::drop`

The loop goes from `head` to `tail` position by position: it drops the value of a slot, and on a phantom
position it gives the chunk back and goes on with `next`. When no call is in progress every slot between
the two indices has been written, every chunk but the last is linked to the one behind it, and `tail` is
in the last chunk (`Laid`); this is what makes the walk meet `tail` and find in between the values that
have not been popped.
-/

namespace CoQueue.Lockless

open Schedule

variable {V : Type} {s : State V} {m : Mem V} {p : Nat}

/-- What `drop` has dropped: values, with the chunk and the slot they were in, and chunks. -/
structure Dropped (V : Type) where
  values : List (ChunkId × Nat × V)
  chunks : List ChunkId

inductive DropEnd (V : Type)
  | done (d : Dropped V)
  /-- Follows a null pointer. -/
  | null
  /-- Follows a pointer to a chunk that was given back. -/
  | dangling
  /-- Drops a value that nobody wrote. -/
  | unwritten

/-- The loop of `drop` and what comes after it, with `fuel` rounds at most. -/
def dropLoop (m : Mem V) (tail : Nat) : Nat → Nat → Option ChunkId → Dropped V → Option (DropEnd V)
  | 0, _, _, _ => none
  | fuel + 1, head, chunk, d =>
    if head = tail then some (.done { d with chunks := d.chunks ++ chunk.toList })
    else match chunk with
      | none => some .null
      | some c =>
        if c ∈ m.freed ∨ c ∈ d.chunks then some .dangling
        else if offset head < chunkCap then
          match m.value c (offset head) with
          | some v =>
            dropLoop m tail fuel (head + (1 <<< shift)) (some c)
              { d with values := d.values ++ [(c, offset head, v)] }
          | none => some .unwritten
        else
          dropLoop m tail fuel (head + (1 <<< shift)) (m.next c) { d with chunks := d.chunks ++ [c] }

/-- `CoQueue::drop`. -/
def Mem.drop (m : Mem V) (fuel : Nat) : Option (DropEnd V) :=
  dropLoop m (eraseBits m.tailIndex) fuel (eraseBits m.headIndex) m.headChunk ⟨[], []⟩

/-! ### What a resting queue looks like -/

structure Laid (s : State V) : Prop where
  value : ∀ p, p < position s.mem.tailIndex → p % lap ≠ chunkCap →
    ∃ c v, s.hist.chain[p / lap]? = some c ∧ s.mem.value c (p % lap) = some v ∧ (p, v) ∈ s.hist.pushes
  next : ∀ k c, s.hist.chain[k]? = some c → s.mem.next c = s.hist.chain[k + 1]?
  length : (s.hist.chain = [] ∧ s.mem.tailIndex = 0) ∨
    s.hist.chain.length = position s.mem.tailIndex / lap + 1

theorem Inv.laid_value (hi : Inv s) (hb : Brought s) (hr : AtRest s) (hp : p < position s.mem.tailIndex)
    (ho : p % lap ≠ chunkCap) :
    ∃ c v, s.hist.chain[p / lap]? = some c ∧ s.mem.value c (p % lap) = some v ∧
      (p, v) ∈ s.hist.pushes := by
  obtain ⟨c, hc, hw, -⟩ := hi.filled hb hr (mem_slots.2 ⟨hp, ho⟩)
  obtain ⟨v, hv⟩ := Option.ne_none_iff_exists'.1 (hi.valued.written c _ hw)
  have hpush := hi.valued.value _ c _ v hc hv
  rw [Nat.div_add_mod'] at hpush
  exact ⟨c, v, hc, hv, hpush⟩

/-- The push of the last slot of a chunk has linked the chunk behind it. -/
theorem Inv.laid_next (hi : Inv s) (hb : Brought s) (hr : AtRest s) {k : Nat} {c : ChunkId}
    (hc : s.hist.chain[k]? = some c) (hk : k < position s.mem.tailIndex / lap) :
    s.mem.next c ≠ none := by
  have hlast : k * lap + 30 < position s.mem.tailIndex ∧ (k * lap + 30) % lap = 30 ∧
      (k * lap + 30) / lap = k := by
    simp only [lap] at hk ⊢
    omega
  obtain ⟨d, hd, -, hnext⟩ := hi.filled hb hr (mem_slots.2 ⟨hlast.1, by rw [hlast.2.1]; decide⟩)
  rw [hlast.2.2] at hd
  obtain rfl : c = d := Option.some.inj (hc.symm.trans hd)
  exact hnext (by rw [hlast.2.1]; rfl)

theorem Inv.laid (hi : Inv s) (hb : Brought s) (hr : AtRest s) : Laid s := by
  have hlength : (s.hist.chain = [] ∧ s.mem.tailIndex = 0) ∨
      s.hist.chain.length = position s.mem.tailIndex / lap + 1 := by
    rcases hi.placed.core.length with h | h | h
    · exact .inl h
    · exact .inr h
    · exact absurd h.1 (hi.tail_offset hr)
  refine ⟨fun p hp ho => hi.laid_value hb hr hp ho, fun k c hc => ?_, hlength⟩
  have hk : k < s.hist.chain.length := (List.getElem?_eq_some_iff.1 hc).1
  cases hn : s.mem.next c with
  | some d =>
    obtain ⟨j, hj, hj', -⟩ := hi.placed.core.next c d hn
    obtain rfl := hi.placed.core.index_eq hc hj
    exact hj'.symm
  | none =>
    -- the chunk is the last one
    refine (List.getElem?_eq_none ?_).symm
    by_contra hlt
    refine hi.laid_next hb hr hc ?_ hn
    rcases hlength with ⟨hnil, -⟩ | hlen
    · rw [hnil] at hk; cases hk
    · omega

/-! ### The walk -/

/-- The slot is the one of the position of `e`, and its value the one of `e`. -/
def SlotOf (chain : List ChunkId) (x : ChunkId × Nat × V) (e : Nat × V) : Prop :=
  chain[e.1 / lap]? = some x.1 ∧ x.2.1 = e.1 % lap ∧ x.2.2 = e.2

theorem offset_shift (p : Nat) : offset (p <<< shift) = p % lap := by rw [offset, position_shift]

theorem shift_add (p : Nat) : p <<< shift + 1 <<< shift = (p + 1) <<< shift := by
  rw [Nat.shiftLeft_eq, Nat.shiftLeft_eq, Nat.shiftLeft_eq, Nat.add_mul]

theorem shift_inj {q : Nat} (h : p <<< shift = q <<< shift) : p = q := by
  rw [← position_shift p, h, position_shift]

section
variable {tail fuel : Nat} {c : ChunkId} {v : V} {d : Dropped V}

theorem dropLoop_end (chunk : Option ChunkId) :
    dropLoop m tail (fuel + 1) tail chunk d = some (.done ⟨d.values, d.chunks ++ chunk.toList⟩) := by
  cases chunk <;> rw [dropLoop, if_pos rfl]

theorem dropLoop_value (hne : p <<< shift ≠ tail) (hc : c ∉ m.freed ∧ c ∉ d.chunks)
    (ho : p % lap < chunkCap) (hv : m.value c (p % lap) = some v) :
    dropLoop m tail (fuel + 1) (p <<< shift) (some c) d =
      dropLoop m tail fuel ((p + 1) <<< shift) (some c) ⟨d.values ++ [(c, p % lap, v)], d.chunks⟩ := by
  have hdangling : ¬(c ∈ m.freed ∨ c ∈ d.chunks) := not_or.2 hc
  rw [dropLoop, if_neg hne]
  simp only [hdangling, if_false, offset_shift, ho, if_true, hv, shift_add]

theorem dropLoop_phantom (hne : p <<< shift ≠ tail) (hc : c ∉ m.freed ∧ c ∉ d.chunks)
    (ho : p % lap = chunkCap) :
    dropLoop m tail (fuel + 1) (p <<< shift) (some c) d =
      dropLoop m tail fuel ((p + 1) <<< shift) (m.next c) ⟨d.values, d.chunks ++ [c]⟩ := by
  have hdangling : ¬(c ∈ m.freed ∨ c ∈ d.chunks) := not_or.2 hc
  rw [dropLoop, if_neg hne]
  simp only [hdangling, if_false, offset_shift, ho, Nat.lt_irrefl, shift_add]

end

theorem Laid.chunk (h : Laid s) (hp : p < position s.mem.tailIndex) :
    ∃ c, s.hist.chain[p / lap]? = some c := by
  refine Option.ne_none_iff_exists'.1 fun hn => ?_
  have hlen := List.getElem?_eq_none_iff.1 hn
  have hle : p / lap ≤ position s.mem.tailIndex / lap := Nat.div_le_div_right hp.le
  rcases h.length with ⟨-, h0⟩ | h
  · rw [h0] at hp; exact absurd hp (Nat.not_lt_zero _)
  · omega

/-- The values of the slots from a slot on: that slot's, and those behind it. -/
theorem Counted.drop_pushes {v : V} (hl : Counted s) (hp : p < position s.mem.tailIndex)
    (ho : p % lap ≠ chunkCap) (hv : (p, v) ∈ s.hist.pushes) :
    s.hist.pushes.drop (slots p).length = (p, v) :: s.hist.pushes.drop (slots (p + 1)).length := by
  have hget : (s.hist.pushes.map Prod.fst)[(slots p).length]? = some p := by
    obtain ⟨l, hl'⟩ := slots_append_of_le (show p + 1 ≤ position s.mem.tailIndex from hp)
    rw [hl.pushes, ← hl', slots_succ ho, List.append_assoc, List.getElem?_append_right (Nat.le_refl _),
      Nat.sub_self]
    rfl
  have hnodup : (s.hist.pushes.map Prod.fst).Nodup := by rw [hl.pushes]; exact nodup_slots _
  have hat := getElem?_of_fst hnodup hget hv
  obtain ⟨hlt, hat⟩ := List.getElem?_eq_some_iff.1 hat
  rw [slots_succ ho, List.length_append, List.drop_eq_getElem_cons hlt, hat]
  rfl

theorem drop_eq_toList {α : Type} {l : List α} {k : Nat} (h : l.length ≤ k + 1) :
    l.drop k = l[k]?.toList := by
  by_cases hk : k < l.length
  · rw [List.drop_eq_getElem_cons hk, List.drop_eq_nil_of_le h, List.getElem?_eq_getElem hk]
    rfl
  · rw [List.drop_eq_nil_of_le (Nat.le_of_not_lt hk), List.getElem?_eq_none (Nat.le_of_not_lt hk)]
    rfl

/-- With a round for each position left, the walk from position `p` on drops the values of the slots from
`p` on and the chunks from the one of `p` on. -/
def Walks (s : State V) (p : Nat) : Prop :=
  ∀ fuel d, position s.mem.tailIndex < p + fuel →
    (∀ c ∈ s.hist.chain.drop (p / lap), c ∉ s.mem.freed ∧ c ∉ d.chunks) →
    ∃ vals, dropLoop s.mem (eraseBits s.mem.tailIndex) fuel (p <<< shift) s.hist.chain[p / lap]? d =
        some (.done ⟨d.values ++ vals, d.chunks ++ s.hist.chain.drop (p / lap)⟩) ∧
      List.Forall₂ (SlotOf s.hist.chain) vals (s.hist.pushes.drop (slots p).length)

theorem Laid.walks_tail (h : Laid s) (hl : Counted s) : Walks s (position s.mem.tailIndex) := by
  intro fuel d hf _
  obtain ⟨fuel, rfl⟩ := Nat.exists_eq_add_one.2 (Nat.lt_add_right_iff_pos.1 hf)
  have hlen : s.hist.chain.length ≤ position s.mem.tailIndex / lap + 1 := by
    rcases h.length with ⟨hnil, -⟩ | h
    · rw [hnil]; exact Nat.zero_le _
    · exact h.le
  refine ⟨[], ?_, ?_⟩
  · rw [drop_eq_toList hlen, List.append_nil]
    exact dropLoop_end _
  · rw [← hl.pushes, List.length_map, List.drop_length]
    exact .nil

theorem Laid.walks_slot (h : Laid s) (hl : Counted s) (hp : p < position s.mem.tailIndex)
    (ho : p % lap ≠ chunkCap) (hw : Walks s (p + 1)) : Walks s p := by
  intro fuel d hf hd
  obtain ⟨fuel, rfl⟩ := Nat.exists_eq_add_one.2 (show 0 < fuel by omega)
  have hne : p <<< shift ≠ eraseBits s.mem.tailIndex := fun heq => hp.ne (shift_inj heq)
  have hlap : (p + 1) / lap = p / lap := by simp only [lap, chunkCap] at ho ⊢; omega
  obtain ⟨c, v, hc, hv, hpush⟩ := h.value p hp ho
  have hcd := hd c (List.mem_of_getElem? (by rw [List.getElem?_drop, Nat.add_zero]; exact hc))
  obtain ⟨vals, hloop, hvals⟩ := hw fuel ⟨d.values ++ [(c, p % lap, v)], d.chunks⟩ (by omega)
    (by rw [hlap]; exact hd)
  refine ⟨(c, p % lap, v) :: vals, ?_, ?_⟩
  · rw [hlap, hc] at hloop
    rw [hc, dropLoop_value hne hcd (mod_lap_lt ho) hv, hloop, List.append_assoc]
    rfl
  · rw [hl.drop_pushes hp ho hpush]
    exact .cons ⟨hc, rfl, rfl⟩ hvals

theorem Laid.walks_phantom (h : Laid s) (hnodup : s.hist.chain.Nodup) (hp : p < position s.mem.tailIndex)
    (ho : p % lap = chunkCap) (hw : Walks s (p + 1)) : Walks s p := by
  intro fuel d hf hd
  obtain ⟨fuel, rfl⟩ := Nat.exists_eq_add_one.2 (show 0 < fuel by omega)
  have hne : p <<< shift ≠ eraseBits s.mem.tailIndex := fun heq => hp.ne (shift_inj heq)
  have hlap : (p + 1) / lap = p / lap + 1 := by simp only [lap, chunkCap] at ho ⊢; omega
  obtain ⟨c, hc⟩ := h.chunk hp
  obtain ⟨hk, hck⟩ := List.getElem?_eq_some_iff.1 hc
  have hdrop : s.hist.chain.drop (p / lap) = c :: s.hist.chain.drop (p / lap + 1) := by
    rw [List.drop_eq_getElem_cons hk, hck]
  have hcd := hd c (hdrop ▸ List.mem_cons_self)
  have hbehind : c ∉ s.hist.chain.drop (p / lap + 1) := by
    have := hnodup.sublist (List.drop_sublist (p / lap) s.hist.chain)
    rw [hdrop] at this
    exact (List.nodup_cons.1 this).1
  have hd' : ∀ e ∈ s.hist.chain.drop ((p + 1) / lap), e ∉ s.mem.freed ∧ e ∉ d.chunks ++ [c] := by
    intro e he
    rw [hlap] at he
    obtain ⟨hfree, hnot⟩ := hd e (hdrop ▸ List.mem_cons_of_mem c he)
    refine ⟨hfree, fun hmem => (List.mem_append.1 hmem).elim hnot fun hec => ?_⟩
    exact hbehind (List.mem_singleton.1 hec ▸ he)
  obtain ⟨vals, hloop, hvals⟩ := hw fuel ⟨d.values, d.chunks ++ [c]⟩ (by omega) hd'
  refine ⟨vals, ?_, by rwa [slots_phantom ho] at hvals⟩
  rw [hc, dropLoop_phantom hne hcd ho, h.next _ c hc, ← hlap, hloop, hdrop, hlap, List.append_assoc]
  rfl

theorem Laid.walks (h : Laid s) (hl : Counted s) (hnodup : s.hist.chain.Nodup)
    (hp : p ≤ position s.mem.tailIndex) : Walks s p := by
  induction hp using Nat.decreasingInduction with
  | self => exact h.walks_tail hl
  | of_succ p hp ih =>
    by_cases ho : p % lap = chunkCap
    · exact h.walks_phantom hnodup hp ho ih
    · exact h.walks_slot hl hp ho ih

/-! ### What is dropped -/

/-- The values that were pushed and not popped, in the order of the queue. -/
def State.remaining (s : State V) : List (Nat × V) :=
  s.hist.pushes.filter fun e => decide (e.1 ∉ s.hist.popped.map Prod.fst)

/-- `drop` releases what is left, and nothing else. -/
structure Releases (s : State V) (d : Dropped V) : Prop where
  values : List.Forall₂ (SlotOf s.hist.chain) d.values s.remaining
  once : (d.values.map fun x => (x.1, x.2.1)).Nodup
  /-- Following `next` from `head.chunk` visits exactly the chunks that are given back. -/
  chunks : Linked.Path s.mem.next s.mem.headChunk d.chunks
  chunks_once : (s.mem.freed ++ d.chunks).Nodup

theorem Inv.headChunk_eq (hi : Inv s) (hr : AtRest s) :
    s.mem.headChunk = s.hist.chain[position s.mem.headIndex / lap]? := by
  cases hc : s.mem.headChunk with
  | some c => exact (hi.placed.core.headSome c hc (hi.head_offset hr)).symm
  | none =>
    by_cases hchain : s.hist.chain = []
    · rw [hchain]; rfl
    · exact absurd hc (hi.headChunk hr hchain)

theorem Inv.remaining_eq (hi : Inv s) (hr : AtRest s) :
    s.remaining = s.hist.pushes.drop (slots (position s.mem.headIndex)).length := by
  obtain ⟨l, hl⟩ := slots_append_of_le hi.placed.core.le
  have hpushes := hi.counted.pushes
  have hnodup := nodup_slots (position s.mem.tailIndex)
  rw [← hl] at hpushes hnodup
  obtain ⟨-, -, hdisj⟩ := List.nodup_append.1 hnodup
  generalize hk : slots (position s.mem.headIndex) = k at *
  have htake : (s.hist.pushes.take k.length).map Prod.fst = k := by
    rw [List.map_take, hpushes, List.take_left]
  have hdrop : (s.hist.pushes.drop k.length).map Prod.fst = l := by
    rw [List.map_drop, hpushes, List.drop_left]
  have hmem : ∀ q, q ∈ s.hist.popped.map Prod.fst ↔ q ∈ k := fun q => by
    rw [← hk]; exact (hi.popped_perm hr).mem_iff
  rw [State.remaining]
  conv_lhs => rw [← List.take_append_drop k.length s.hist.pushes]
  rw [List.filter_append, List.filter_eq_nil_iff.2, List.filter_eq_self.2, List.nil_append]
  · intro e he
    rw [decide_eq_true_eq, hmem]
    exact fun hin => hdisj _ hin _ (hdrop ▸ List.mem_map_of_mem he) rfl
  · intro e he
    rw [decide_eq_true_eq, hmem, not_not]
    exact htake ▸ List.mem_map_of_mem he

theorem Inv.remaining_nodup (hi : Inv s) : (s.remaining.map Prod.fst).Nodup := by
  refine List.Nodup.sublist (List.filter_sublist.map Prod.fst) ?_
  rw [hi.counted.pushes]
  exact nodup_slots _

theorem SlotOf.position {chain : List ChunkId} {x : ChunkId × Nat × V} {e : Nat × V} (h : SlotOf chain x e)
    (hchain : chain.Nodup) : chain.idxOf x.1 * lap + x.2.1 = e.1 := by
  obtain ⟨hc, ho, -⟩ := h
  obtain ⟨hk, hc⟩ := List.getElem?_eq_some_iff.1 hc
  rw [← hc, hchain.idxOf_getElem, ho, Nat.div_add_mod']

/-- Slots of different positions are different. -/
theorem nodup_slotOf {chain : List ChunkId} {xs : List (ChunkId × Nat × V)} {es : List (Nat × V)}
    (hchain : chain.Nodup) (h : List.Forall₂ (SlotOf chain) xs es) (hes : (es.map Prod.fst).Nodup) :
    (xs.map fun x => (x.1, x.2.1)).Nodup := by
  refine List.Nodup.of_map (fun q => chain.idxOf q.1 * lap + q.2) ?_
  have hmap : (xs.map fun x => (x.1, x.2.1)).map (fun q => chain.idxOf q.1 * lap + q.2) =
      es.map Prod.fst := by
    rw [List.map_map]
    induction h with
    | nil => rfl
    | cons hx _ ih =>
      rw [List.map_cons, List.map_cons, ih (List.nodup_cons.1 hes).2]
      exact congrArg (· :: _) (hx.position hchain)
  rw [hmap]
  exact hes

/-- Whenever no call is in progress, `drop` ends and releases what is left. -/
theorem drop_releases (h : Run step Any .init s) (hr : AtRest s) :
    ∃ N, ∀ n, N ≤ n → ∃ d, s.mem.drop n = some (.done d) ∧ Releases s d := by
  have hi := inv_of_run h
  have hfreed := (stuck_of_run h).freed
  have hlaid := hi.laid (brought_of_run h) hr
  have hnodup := hi.placed.core.nodup
  refine ⟨position s.mem.tailIndex + 1, fun n hn => ?_⟩
  obtain ⟨vals, hloop, hvals⟩ := hlaid.walks hi.counted hnodup hi.placed.core.le n ⟨[], []⟩ (by omega)
    fun c _ => ⟨by rw [hfreed]; exact List.not_mem_nil, List.not_mem_nil⟩
  refine ⟨⟨vals, s.hist.chain.drop (position s.mem.headIndex / lap)⟩, ?_, ?_⟩
  · rw [Mem.drop, hi.headChunk_eq hr]
    exact hloop
  · rw [← hi.remaining_eq hr] at hvals
    refine ⟨hvals, nodup_slotOf hnodup hvals hi.remaining_nodup, ?_, ?_⟩
    · rw [hi.headChunk_eq hr]
      exact .of_getElem? hlaid.next _
    · rw [hfreed]
      exact hnodup.sublist (List.drop_sublist _ _)

theorem settled_drop_releases : ∃ s : State Nat, Run step Any .init s ∧ AtRest s ∧
    s.hist.pushed = List.range 31 ++ [32] ∧ s.hist.popped = [(0, 1)] ∧
    ∃ N, ∀ n, N ≤ n → ∃ d, s.mem.drop n = some (.done d) ∧ Releases s d := by
  obtain ⟨s, hrun, hr, hpushed, hpopped⟩ := settled_run
  exact ⟨s, hrun, hr, hpushed, hpopped, drop_releases hrun hr⟩

end CoQueue.Lockless
