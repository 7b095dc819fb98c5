import CoQueue.Lockless.Placed

/-!
# Moving `head` and `tail`

The steps that change `head`, `tail` or a link, one lemma each: installing the first chunk and telling
`head` about it, claiming a slot at either end, and the three stores by which a push switches `tail` to
the next chunk and the two by which a pop switches `head`. A switch is made by the one thread that
claimed the last slot, so no other thread relies on what it changes.
-/

namespace CoQueue.Lockless

open Schedule Token

variable {V : Type} {s : State V} {m m' : Mem V} {chain chain' : List ChunkId} {i j : Tid}
  {v : V} {t h h' k : Nat} {c n : ChunkId}

/-! ### Arithmetic of a lap -/

theorem position_add_two (t : Nat) : position (t + 2) = position t + 1 := by
  rw [position_eq, position_eq]; omega

theorem offset_succ (hp : position h' = position h + 1) (ho : offset h ≠ chunkCap) :
    offset h' = offset h + 1 := by
  simp only [offset, hp, chunkCap, lap] at ho ⊢
  omega

theorem lap_succ (hp : position h' = position h + 1) (ho : offset h ≠ chunkCap) :
    position h' / lap = position h / lap := by
  simp only [offset, hp, chunkCap, lap] at ho ⊢
  omega

theorem lap_next (hp : position k = position h + 2) (ho : offset h + 1 = chunkCap) :
    position k / lap = position h / lap + 1 ∧ offset k = 0 := by
  simp only [offset, hp, chunkCap, lap] at ho ⊢
  omega

theorem offset_ne_of_last (ho : offset h + 1 = chunkCap) : offset h ≠ chunkCap := by omega

theorem At.length_pos (h : At chain t c) : chain ≠ [] := by
  rintro rfl
  cases h

theorem At.mem (h : At chain t c) : c ∈ chain := List.mem_of_getElem? h

theorem At.congr (h : At chain t c) (hl : position h' / lap = position t / lap) : At chain h' c := by
  unfold At; rw [hl]; exact h

/-! ### `tail` -/

theorem Core.claim_tail (hc : Core m chain) (hat : At chain m.tailIndex c)
    (ho : offset m.tailIndex ≠ chunkCap) : Core { m with tailIndex := m.tailIndex + 2 } chain := by
  have hpos := position_add_two m.tailIndex
  have hlap := lap_succ hpos ho
  refine ⟨?_, ?_, ?_, hc.nodup, hc.fresh, hc.tailChunk, ?_, ?_, hc.headNone, hc.headSome⟩
  · have := hc.even; simp only; omega
  · have := hc.le; simp only; omega
  · simp only [hlap]; exact hc.flag
  · simp only [hlap]
    rcases hc.length with ⟨hnil, -⟩ | hlen | ⟨hcap, -⟩
    · exact absurd hnil hat.length_pos
    · exact .inr (.inl hlen)
    · exact absurd hcap ho
  · simp only [hlap]; exact hc.next

theorem Core.length_of_at (hc : Core m chain) (hat : At chain m.tailIndex c)
    (ho : offset m.tailIndex ≠ chunkCap) : chain.length = position m.tailIndex / lap + 1 := by
  rcases hc.length with ⟨hnil, -⟩ | hlen | ⟨hcap, -⟩
  · exact absurd hnil hat.length_pos
  · exact hlen
  · exact absurd hcap ho

theorem ext_claim_tail : Ext m chain { m with tailIndex := m.tailIndex + 2 } chain :=
  ⟨Nat.le_add_right _ _, le_rfl, id, List.prefix_rfl⟩

theorem Placed.pushClaim {n : Option ChunkId} (hp : Placed s) (hpc : s.pc i = .pushClaim v n t c)
    (ht : s.mem.tailIndex = t) (ho : offset t + 1 ≠ chunkCap) :
    Placed (s.put i ({ s.mem with tailIndex := t + 2 }, .pushWrite v t c, .pushed (position t) v)) := by
  obtain ⟨-, heven, hcap, -, hat⟩ : Ok s.mem s.hist.chain (.pushClaim v n t c) := hpc ▸ hp.ok i
  subst ht
  have hoff := offset_succ (position_add_two s.mem.tailIndex) hcap
  refine hp.change ext_claim_tail (hp.core.claim_tail (hat rfl) hcap)
    ⟨heven, Nat.lt_add_of_pos_right (by decide), hcap, hat rfl⟩ trivial trivial
    (.inl fun j _ => hp.holdsTail_of hcap j) (.inr ⟨rfl, rfl⟩) ?_ ?_ ?_ le_rfl nofun List.nodup_nil
    fun _ => .inl
  · rw [show decide (offset (s.mem.tailIndex + 2) = chunkCap) = decide (offset s.mem.tailIndex = chunkCap)
      by rw [decide_eq_false hcap, decide_eq_false (by omega)]]
    exact hp.keep_tail hpc rfl
  · exact hp.keep_head hpc rfl
  · exact hp.keep_first hpc rfl

theorem Placed.pushClaimLast (hp : Placed s) (hpc : s.pc i = .pushClaim v (some n) t c)
    (ht : s.mem.tailIndex = t) (ho : offset t + 1 = chunkCap) :
    Placed (s.put i ({ s.mem with tailIndex := t + 2 }, .pushTailChunk v t c n,
      .pushed (position t) v)) := by
  obtain ⟨-, heven, hcap, -, hat⟩ : Ok s.mem s.hist.chain (.pushClaim v (some n) t c) := hpc ▸ hp.ok i
  subst ht
  have hoff := offset_succ (position_add_two s.mem.tailIndex) hcap
  refine hp.change ext_claim_tail (hp.core.claim_tail (hat rfl) hcap) ⟨heven, ho, hat rfl⟩
    ⟨rfl, hp.core.length_of_at (hat rfl) hcap⟩ trivial (.inl fun j _ => hp.holdsTail_of hcap j)
    (.inr ⟨rfl, rfl⟩) ?_ ?_ ?_ le_rfl (fun d hd => .inl (by rw [hpc]; exact hd)) (by simp [Pc.mine])
    fun _ => .inl
  · have hfree := hp.tailHeld
    rw [decide_eq_false hcap] at hfree
    rw [decide_eq_true (show offset (s.mem.tailIndex + 2) = chunkCap by omega)]
    exact hfree.take_update (F := fun pc : Pc V => pc.holdsTail.toNat) (by rw [hpc]; rfl)
  · exact hp.keep_head hpc rfl
  · exact hp.keep_first hpc rfl

theorem Placed.holdsTail_of_ne (hp : Placed s) (hi : (s.pc i).holdsTail = true) (hj : j ≠ i) :
    (s.pc j).holdsTail = false := by
  simpa using hp.tailHeld.eq_zero_of_ne (i := i) (by rw [hi]; decide) hj

theorem Placed.holdsHead_of_ne (hp : Placed s) (hi : (s.pc i).holdsHead = true) (hj : j ≠ i) :
    (s.pc j).holdsHead = false := by
  simpa using hp.headHeld.eq_zero_of_ne (i := i) (by rw [hi]; decide) hj

theorem Core.install (hc : Core m chain) (hfresh : n < m.fresh) (hn : n ∉ chain)
    (hlen : offset m.tailIndex = chunkCap ∧ chain.length = position m.tailIndex / lap + 1) :
    Core { m with tailChunk := some n } (chain ++ [n]) := by
  have happ : chain <+: chain ++ [n] := List.prefix_append _ _
  refine ⟨hc.even, hc.le, hc.flag, ?_, ?_, by simp, ?_, ?_, hc.headNone, ?_⟩
  · exact List.nodup_append.2 ⟨hc.nodup, by simp, by rintro d hd _ (_ | ⟨_, ⟨⟩⟩) rfl; exact hn hd⟩
  · intro d hd
    rcases List.mem_append.1 hd with hd | hd
    · exact hc.fresh d hd
    · rw [List.mem_singleton.1 hd]; exact hfresh
  · exact .inr (.inr ⟨hlen.1, by rw [List.length_append, hlen.2]; rfl⟩)
  · intro a b hab
    obtain ⟨k, ha, hb, hk⟩ := hc.next a b hab
    have hkl := (List.getElem?_eq_some_iff.1 hb).1
    exact ⟨k, by rw [List.getElem?_append_left (by omega)]; exact ha,
      by rw [List.getElem?_append_left hkl]; exact hb, hk⟩
  · exact fun d hd ho => (hc.headSome d hd ho).ext happ

theorem Placed.pushTailChunk (hp : Placed s) (hpc : s.pc i = .pushTailChunk v t c n) :
    Placed (s.put i ({ s.mem with tailChunk := some n }, .pushTailIndex v t c n, .installed n)) := by
  obtain ⟨heven, ho, hat⟩ : Ok s.mem s.hist.chain (.pushTailChunk v t c n) := hpc ▸ hp.ok i
  obtain ⟨hti, hlen⟩ : HoldTail s.mem s.hist.chain (.pushTailChunk v t c n) := hpc ▸ hp.holdTail i
  obtain ⟨hfresh, hn⟩ := hp.mine i n (by rw [hpc]; exact List.mem_singleton_self n)
  have hpos := position_add_two t
  have hoff := offset_succ hpos (offset_ne_of_last ho)
  have hlap := lap_succ hpos (offset_ne_of_last ho)
  have happ : s.hist.chain <+: s.hist.chain ++ [n] := List.prefix_append _ _
  have hnext : AtNext (s.hist.chain ++ [n]) t n := by
    unfold AtNext
    rw [← hlen, List.getElem?_append_right (Nat.le_refl _), Nat.sub_self]
    rfl
  refine hp.change ⟨le_rfl, le_rfl, id, happ⟩
    (hp.core.install hfresh hn ⟨by rw [hti]; omega, by rw [hti, hlap]; exact hlen⟩)
    ⟨heven, ho, hat.ext happ, hnext⟩
    ⟨hti, by show (_ ++ [n]).length = _; rw [List.length_append, hlen]; rfl⟩ trivial
    (.inl fun j hj => hp.holdsTail_of_ne (by rw [hpc]; rfl) hj) (.inr ⟨rfl, rfl⟩) (hp.keep_tail hpc rfl)
    (hp.keep_head hpc rfl) ?_ le_rfl nofun List.nodup_nil ?_
  · show Held (decide (s.mem.headChunk = none ∧ s.hist.chain ++ [n] ≠ [])) _
    rw [show decide (s.mem.headChunk = none ∧ s.hist.chain ++ [n] ≠ []) =
      decide (s.mem.headChunk = none ∧ s.hist.chain ≠ []) by simp [hat.length_pos]]
    exact hp.keep_first hpc rfl
  · intro d hd
    rcases List.mem_append.1 hd with hd | hd
    · exact .inl hd
    · exact .inr ⟨by rw [hpc]; exact hd, by simp [Pc.mine]⟩

theorem Placed.pushTailIndex (hp : Placed s) (hpc : s.pc i = .pushTailIndex v t c n) :
    Placed (s.put i ({ s.mem with tailIndex := t + 4 }, .pushNext v t c n, .silent)) := by
  obtain ⟨heven, ho, hat, hnext⟩ : Ok s.mem s.hist.chain (.pushTailIndex v t c n) := hpc ▸ hp.ok i
  obtain ⟨hti, hlen⟩ : HoldTail s.mem s.hist.chain (.pushTailIndex v t c n) := hpc ▸ hp.holdTail i
  have hpos : position (t + 4) = position t + 2 := by rw [position_eq, position_eq]; omega
  obtain ⟨hlap, hoff⟩ := lap_next hpos ho
  have hold : position s.mem.tailIndex = position t + 1 := by rw [hti]; exact position_add_two t
  have hlapold : position s.mem.tailIndex / lap = position t / lap :=
    lap_succ hold (offset_ne_of_last ho)
  have hc := hp.core
  refine hp.change ⟨by simp only; omega, le_rfl, id, List.prefix_rfl⟩ ?_ ⟨heven, ho, hat, hnext, le_rfl⟩
    trivial trivial (.inl fun j hj => hp.holdsTail_of_ne (by rw [hpc]; rfl) hj) (.inr ⟨rfl, rfl⟩) ?_
    (hp.keep_head hpc rfl) (hp.keep_first hpc rfl) le_rfl nofun List.nodup_nil fun _ => .inl
  · refine ⟨?_, ?_, ?_, hc.nodup, hc.fresh, hc.tailChunk, ?_, ?_, hc.headNone, hc.headSome⟩
    · simp only; omega
    · have := hc.le; simp only; omega
    · intro hodd
      have := hc.flag hodd
      simp only; omega
    · exact .inr (.inl (by rw [hlap]; exact hlen))
    · intro a b hab
      obtain ⟨k, ha, hb, hk⟩ := hc.next a b hab
      exact ⟨k, ha, hb, by simp only; omega⟩
  · have hcap : chunkCap = 31 := rfl
    rw [decide_eq_false (show offset (t + 4) ≠ chunkCap by omega)]
    exact hp.tailHeld.drop_update (F := fun pc : Pc V => pc.holdsTail.toNat) (by rw [hpc]; rfl)

theorem Placed.pushNext (hp : Placed s) (hpc : s.pc i = .pushNext v t c n) :
    Placed (s.put i ({ s.mem with next := Function.update s.mem.next c (some n) }, .pushWrite v t c,
      .silent)) := by
  obtain ⟨heven, ho, hat, hnext, hti⟩ : Ok s.mem s.hist.chain (.pushNext v t c n) := hpc ▸ hp.ok i
  have hc := hp.core
  refine hp.change ⟨le_rfl, le_rfl, id, List.prefix_rfl⟩ ?_
    ⟨heven, by simp only; omega, offset_ne_of_last ho, hat⟩ trivial trivial (.inr ⟨rfl, rfl⟩)
    (.inr ⟨rfl, rfl⟩) (hp.keep_tail hpc rfl) (hp.keep_head hpc rfl) (hp.keep_first hpc rfl) le_rfl nofun
    List.nodup_nil fun _ => .inl
  refine ⟨hc.even, hc.le, hc.flag, hc.nodup, hc.fresh, hc.tailChunk, hc.length, ?_, hc.headNone,
    hc.headSome⟩
  intro a b hab
  simp only [Function.update_apply] at hab
  split at hab
  · subst a
    cases hab
    refine ⟨position t / lap, hat, hnext, ?_⟩
    have hpos : position (t + 4) = position t + 2 := by rw [position_eq, position_eq]; omega
    rw [← (lap_next hpos ho).1]
    exact Nat.div_le_div_right (by rw [position_eq, position_eq]; exact Nat.div_le_div_right hti)
  · exact hc.next a b hab

/-! ### The first chunk -/

theorem Core.at_start (hc : Core m chain) (ht : m.tailChunk = none) :
    chain = [] ∧ m.tailIndex = 0 ∧ m.headIndex = 0 ∧ m.headChunk = none := by
  have hnil : chain = [] := List.getLast?_eq_none_iff.1 (hc.tailChunk.symm.trans ht)
  have hti : m.tailIndex = 0 := by
    rcases hc.length with ⟨-, h⟩ | h | ⟨-, h⟩
    · exact h
    · rw [hnil] at h; cases h
    · rw [hnil] at h; cases h
  have hhi : m.headIndex = 0 := by
    have hle := hc.le
    have hflag := hc.flag
    rw [hti] at hle hflag
    simp only [position_eq, lap] at hle hflag
    omega
  refine ⟨hnil, hti, hhi, ?_⟩
  by_contra hne
  obtain ⟨d, hd⟩ := Option.ne_none_iff_exists'.1 hne
  exact (hc.headSome d hd (by rw [hhi]; decide)).length_pos hnil

theorem Placed.pushFirst {n : Option ChunkId} (hp : Placed s) (hpc : s.pc i = .pushFirst v n t c)
    (hc : s.mem.tailChunk = none) :
    Placed (s.put i ({ s.mem with tailChunk := some c }, .pushHead v n t c, .installed c)) := by
  obtain ⟨hle, -⟩ : Ok s.mem s.hist.chain (.pushFirst v n t c) := hpc ▸ hp.ok i
  obtain ⟨hnil, hti, hhi, hhc⟩ := hp.core.at_start hc
  obtain ⟨hfresh, -⟩ := hp.mine i c (by rw [hpc]; exact List.mem_cons_self)
  have hnodup : (c :: n.toList).Nodup := by
    have := hp.mine_nodup i
    rwa [hpc] at this
  have hone : (s.hist.log i (.installed c)).chain = [c] := by
    show s.hist.chain ++ [c] = [c]
    rw [hnil]; rfl
  obtain rfl : t = 0 := by omega
  refine hp.change ?_ ?_ ?_ trivial trivial (.inl fun j _ => hp.holdsTail_of (by rw [hti]; decide) j)
    (.inr ⟨rfl, rfl⟩) (hp.keep_tail hpc rfl) (hp.keep_head hpc rfl) ?_ le_rfl
    (fun d hd => .inl (by rw [hpc]; exact List.mem_cons_of_mem _ hd)) (List.nodup_cons.1 hnodup).2 ?_
  · exact ⟨le_rfl, le_rfl, id, by rw [hnil]; exact List.nil_prefix⟩
  · rw [hone]
    refine ⟨hp.core.even, hp.core.le, hp.core.flag, by simp, by simpa using hfresh, rfl,
      .inr (.inl (by simp only [hti]; rfl)), ?_, hp.core.headNone, ?_⟩
    · intro a b hab
      obtain ⟨k, ha, -⟩ := hp.core.next a b hab
      rw [hnil] at ha
      cases ha
    · intro d hd
      rw [show s.mem.headChunk = some d from hd] at hhc
      cases hhc
  · rw [hone]; exact ⟨rfl, rfl⟩
  · have hfree := hp.firstHeld
    rw [decide_eq_false (fun h => h.2 hnil)] at hfree
    rw [hone, decide_eq_true ⟨hhc, by simp⟩]
    exact hfree.take_update (F := fun pc : Pc V => pc.holdsFirst.toNat) (by rw [hpc]; rfl)
  · intro d hd
    rw [hone, List.mem_singleton] at hd
    subst d
    exact .inr ⟨by rw [hpc]; exact List.mem_cons_self, (List.nodup_cons.1 hnodup).1⟩

theorem Placed.pushHead {n : Option ChunkId} (hp : Placed s) (hpc : s.pc i = .pushHead v n t c) :
    Placed (s.put i ({ s.mem with headChunk := some c }, .pushClaim v n t c, .silent)) := by
  obtain ⟨rfl, hat⟩ : Ok s.mem s.hist.chain (.pushHead v n t c) := hpc ▸ hp.ok i
  have hfirst := of_decide_eq_true (hp.firstHeld.set_of_pos (i := i) (by rw [hpc]; exact Nat.one_pos))
  have hhi := hp.core.headNone hfirst.1
  have hc := hp.core
  have hnodup := hp.mine_nodup i
  rw [hpc] at hnodup
  refine hp.change ⟨le_rfl, le_rfl, fun _ => nofun, List.prefix_rfl⟩ ?_
    ⟨Nat.zero_le _, rfl, by decide, fun h => absurd h (by decide), fun _ => hat⟩ trivial trivial
    (.inr ⟨rfl, rfl⟩)
    (.inl fun j _ => hp.holdsHead_of (by rw [hhi]; decide) j) (hp.keep_tail hpc rfl) (hp.keep_head hpc rfl)
    ?_ le_rfl (fun d hd => .inl (by rw [hpc]; exact hd)) hnodup fun _ => .inl
  · refine ⟨hc.even, hc.le, hc.flag, hc.nodup, hc.fresh, hc.tailChunk, hc.length, hc.next, nofun, ?_⟩
    rintro d ⟨⟩ -
    exact hat.congr (by simp only [hhi])
  · rw [decide_eq_false (by simp)]
    exact hp.firstHeld.drop_update (F := fun pc : Pc V => pc.holdsFirst.toNat) (by rw [hpc]; rfl)

/-! ### `head` -/

theorem position_lt {a b : Nat} (h : position a < position b) : a ≤ b := by
  rw [position_eq, position_eq] at h; omega

theorem Core.claim_head (hc : Core m chain) (hpos : position h' = position m.headIndex + 1)
    (ho : offset m.headIndex ≠ chunkCap) (hsome : m.headChunk ≠ none)
    (hlt : position m.headIndex < position m.tailIndex)
    (hflag : h' % 2 = 1 → position m.headIndex / lap < position m.tailIndex / lap) :
    Core { m with headIndex := h' } chain := by
  have hlap := lap_succ hpos ho
  refine ⟨hc.even, ?_, ?_, hc.nodup, hc.fresh, hc.tailChunk, hc.length, hc.next,
    fun h => absurd h hsome, fun d hd _ => (hc.headSome d hd ho).congr hlap⟩
  · simp only; omega
  · simp only [hlap]; exact hflag

theorem Placed.popClaim (hp : Placed s) (hpc : s.pc i = .popClaim h c h') (hh : s.mem.headIndex = h)
    (ho : offset h + 1 ≠ chunkCap) :
    Placed (s.put i ({ s.mem with headIndex := h' }, .popWaitWrite h c, .claimed (position h))) := by
  obtain ⟨-, hcap, hpos, hsome, hat⟩ : Ok s.mem s.hist.chain (.popClaim h c h') := hpc ▸ hp.ok i
  obtain ⟨hat, hlt, hflag⟩ := hat hh
  subst hh
  have hoff := offset_succ hpos hcap
  have hle : s.mem.headIndex ≤ h' := position_lt (by omega)
  refine hp.change ⟨le_rfl, hle, id, List.prefix_rfl⟩
    (hp.core.claim_head hpos hcap hsome hlt hflag) ⟨hcap, hat, hlt⟩ trivial trivial (.inr ⟨rfl, rfl⟩)
    (.inl fun j _ => hp.holdsHead_of hcap j) (hp.keep_tail hpc rfl) ?_ (hp.keep_first hpc rfl) le_rfl nofun
    List.nodup_nil fun _ => .inl
  rw [show decide (offset h' = chunkCap) = decide (offset s.mem.headIndex = chunkCap)
    by rw [decide_eq_false hcap, decide_eq_false (by omega)]]
  exact hp.keep_head hpc rfl

theorem Placed.popClaimLast (hp : Placed s) (hpc : s.pc i = .popClaim h c h')
    (hh : s.mem.headIndex = h) (ho : offset h + 1 = chunkCap) :
    Placed (s.put i ({ s.mem with headIndex := h' }, .popWaitNext h c h', .claimed (position h))) := by
  obtain ⟨-, hcap, hpos, hsome, hat⟩ : Ok s.mem s.hist.chain (.popClaim h c h') := hpc ▸ hp.ok i
  obtain ⟨hat, hlt, hflag⟩ := hat hh
  subst hh
  have hoff := offset_succ hpos hcap
  have hle : s.mem.headIndex ≤ h' := position_lt (by omega)
  refine hp.change ⟨le_rfl, hle, id, List.prefix_rfl⟩
    (hp.core.claim_head hpos hcap hsome hlt hflag) ⟨ho, hat, hlt, hpos⟩ trivial hpos (.inr ⟨rfl, rfl⟩)
    (.inl fun j _ => hp.holdsHead_of hcap j) (hp.keep_tail hpc rfl) ?_ (hp.keep_first hpc rfl) le_rfl nofun
    List.nodup_nil fun _ => .inl
  have hfree := hp.headHeld
  rw [decide_eq_false hcap] at hfree
  rw [decide_eq_true (show offset h' = chunkCap by omega)]
  exact hfree.take_update (F := fun pc : Pc V => pc.holdsHead.toNat) (by rw [hpc]; rfl)

theorem Placed.popHeadChunk (hp : Placed s) (hpc : s.pc i = .popHeadChunk h c n k) :
    Placed (s.put i ({ s.mem with headChunk := some n }, .popHeadIndex h c k, .silent)) := by
  obtain ⟨ho, hat, hlt, hk, hnext, hlap, hflag⟩ : Ok s.mem s.hist.chain (.popHeadChunk h c n k) :=
    hpc ▸ hp.ok i
  have hhi : position s.mem.headIndex = position h + 1 := by
    have := hp.holdHead i; rwa [hpc] at this
  have hoff := offset_succ hhi (offset_ne_of_last ho)
  have hsome : s.mem.headChunk ≠ none := by
    intro hnone
    rw [hp.core.headNone hnone, position_eq] at hhi
    omega
  have hc := hp.core
  refine hp.change ⟨le_rfl, le_rfl, fun _ => nofun, List.prefix_rfl⟩ ?_ ⟨ho, hat, hlt, hk, hlap, hflag⟩
    trivial ⟨hhi, n, rfl, hnext⟩ (.inr ⟨rfl, rfl⟩)
    (.inl fun j hj => hp.holdsHead_of_ne (by rw [hpc]; rfl) hj) (hp.keep_tail hpc rfl)
    (hp.keep_head hpc rfl) ?_ le_rfl nofun List.nodup_nil fun _ => .inl
  · refine ⟨hc.even, hc.le, hc.flag, hc.nodup, hc.fresh, hc.tailChunk, hc.length, hc.next, nofun, ?_⟩
    exact fun d _ hne => absurd (hoff.trans ho) hne
  · show Held (decide (some n = none ∧ s.hist.chain ≠ [])) _
    rw [show decide (some n = none ∧ s.hist.chain ≠ []) =
      decide (s.mem.headChunk = none ∧ s.hist.chain ≠ []) by simp [hsome]]
    exact hp.keep_first hpc rfl

theorem Placed.popHeadIndex (hp : Placed s) (hpc : s.pc i = .popHeadIndex h c k) :
    Placed (s.put i ({ s.mem with headIndex := k }, .popWaitWrite h c, .silent)) := by
  obtain ⟨ho, hat, hlt, hk, hlap, hflag⟩ : Ok s.mem s.hist.chain (.popHeadIndex h c k) := hpc ▸ hp.ok i
  obtain ⟨hhi, d, hd, hnext⟩ : HoldHead s.mem s.hist.chain (.popHeadIndex h c k) := hpc ▸ hp.holdHead i
  obtain ⟨hlapk, hoff⟩ := lap_next hk ho
  have hle : s.mem.headIndex ≤ k := position_lt (by omega)
  have hc := hp.core
  refine hp.change ⟨le_rfl, hle, id, List.prefix_rfl⟩ ?_
    ⟨offset_ne_of_last ho, hat, hlt⟩ trivial trivial (.inr ⟨rfl, rfl⟩)
    (.inl fun j hj => hp.holdsHead_of_ne (by rw [hpc]; rfl) hj) (hp.keep_tail hpc rfl) ?_
    (hp.keep_first hpc rfl) le_rfl nofun List.nodup_nil fun _ => .inl
  · refine ⟨hc.even, ?_, ?_, hc.nodup, hc.fresh, hc.tailChunk, hc.length, hc.next, ?_, ?_⟩
    · simp only [offset, chunkCap, lap] at ho hlap hoff ⊢
      omega
    · simp only [hlapk]; exact hflag
    · intro hnone
      rw [show s.mem.headChunk = none from hnone] at hd
      cases hd
    · intro d' hd' _
      rw [show s.mem.headChunk = some d' from hd'] at hd
      cases hd
      unfold At
      simp only [hlapk]
      exact hnext
  · have hcap : chunkCap = 31 := rfl
    rw [decide_eq_false (show offset k ≠ chunkCap by omega)]
    exact hp.headHeld.drop_update (F := fun pc : Pc V => pc.holdsHead.toNat) (by rw [hpc]; rfl)

/-! ### Every step -/

theorem Same.rfl : Same m m := ⟨.refl _, .refl _, .refl _, .refl _, .refl _, le_rfl⟩

theorem Core.index_eq {a b : Nat} (hc : Core m chain) (ha : chain[a]? = some c) (hb : chain[b]? = some c) :
    a = b :=
  (List.getElem?_inj (List.getElem?_eq_some_iff.1 ha).1 hc.nodup).1 (ha.trans hb.symm)

/-- The thread that reads `next` of its chunk gets the chunk behind it. -/
theorem Core.next_at (hc : Core m chain) (hat : At chain h c) (hn : m.next c = some n) :
    AtNext chain h n ∧ position h / lap + 1 ≤ position m.tailIndex / lap := by
  obtain ⟨k, hk, hk', hle⟩ := hc.next c n hn
  obtain rfl := hc.index_eq hat hk
  exact ⟨hk', hle⟩

theorem Core.next_atNext {d : ChunkId} (hc : Core m chain) (hat : AtNext chain h c)
    (hn : m.next c = some d) : position h / lap + 1 < position m.tailIndex / lap := by
  obtain ⟨k, hk, -, hle⟩ := hc.next c d hn
  have := hc.index_eq hat hk
  omega

theorem Placed.mine_reserved {n n' : Option ChunkId} {f : ChunkId} (hr : Reserved m n t f n') :
    ∀ c ∈ n'.toList, c ∈ n.toList ∨ m.fresh ≤ c ∧ c < f := by
  intro c hc
  rcases hr.fresh with ⟨-, rfl⟩ | ⟨rfl, -, rfl⟩
  · exact .inl hc
  · rw [Option.toList_some, List.mem_singleton] at hc
    subst hc
    exact .inr ⟨le_rfl, Nat.lt_succ_self _⟩

theorem nodup_toList (n : Option ChunkId) : n.toList.Nodup := by cases n <;> simp

theorem Placed.pushStart {n n' : Option ChunkId} {f : ChunkId} (hp : Placed s)
    (hpc : s.pc i = .pushChunk v n t) (ho : offset t ≠ chunkCap) (hr : Reserved s.mem n t f n') :
    Placed (s.put i ({ s.mem with fresh := f + 1 }, .pushFirst v n' t f, .silent)) := by
  obtain ⟨hle, heven⟩ : Ok s.mem s.hist.chain (.pushChunk v n t) := hpc ▸ hp.ok i
  have hf : s.mem.fresh ≤ f := by rcases hr.fresh with ⟨rfl, -⟩ | ⟨rfl, -⟩ <;> simp
  have hold : ∀ c ∈ n.toList, c < f := by
    intro c hc
    exact (hp.mine i c (by rw [hpc]; exact hc)).1.trans_le hf
  refine hp.quiet hpc ⟨rfl, rfl, rfl, rfl, rfl, hf.trans (Nat.le_succ f)⟩ ⟨rfl, rfl, rfl, rfl⟩ rfl
    ⟨hle, heven, ho, hr.some⟩ trivial ?_ ?_
  · intro c hc
    rcases List.mem_cons.1 hc with rfl | hc
    · exact .inr ⟨hf, Nat.lt_succ_self _⟩
    · exact (Placed.mine_reserved hr c hc).imp_right fun h => ⟨h.1, h.2.trans (Nat.lt_succ_self f)⟩
  · refine List.nodup_cons.2 ⟨fun hc => ?_, nodup_toList n'⟩
    rcases Placed.mine_reserved hr f hc with hc | ⟨-, hc⟩
    · exact lt_irrefl _ (hold f hc)
    · exact lt_irrefl _ hc

theorem Placed.pushReady {n n' : Option ChunkId} {f : ChunkId} (hp : Placed s)
    (hpc : s.pc i = .pushChunk v n t) (ho : offset t ≠ chunkCap) (hr : Reserved s.mem n t f n')
    (hc : s.mem.tailChunk = some c) :
    Placed (s.put i ({ s.mem with fresh := f }, .pushClaim v n' t c, .silent)) := by
  obtain ⟨hle, heven⟩ : Ok s.mem s.hist.chain (.pushChunk v n t) := hpc ▸ hp.ok i
  have hf : s.mem.fresh ≤ f := by rcases hr.fresh with ⟨rfl, -⟩ | ⟨rfl, -⟩ <;> simp
  refine hp.quiet hpc ⟨rfl, rfl, rfl, rfl, rfl, hf⟩ ⟨rfl, rfl, rfl, rfl⟩ rfl
    ⟨hle, heven, ho, hr.some, ?_⟩ trivial (Placed.mine_reserved hr) (nodup_toList n')
  rintro rfl
  exact hp.core.tail_at ho hc

theorem Placed.pass {pc pc' : Pc V} {ev : Event V} (hp : Placed s) (hpc : s.pc i = pc)
    (e : Same s.mem m') (hcalm : Calm pc pc') (hchain : (s.hist.log i ev).chain = s.hist.chain)
    (ok : Ok s.mem s.hist.chain pc') (holdHead : HoldHead s.mem s.hist.chain pc')
    (mine : pc'.mine = []) : Placed (s.put i (m', pc', ev)) :=
  hp.quiet hpc e hcalm hchain ok holdHead (by rw [mine]; nofun) (by rw [mine]; exact List.nodup_nil)

theorem Placed.popTry {pc : Pc V} {o : Option ChunkId} (hp : Placed s) (hpc : s.pc i = pc)
    (hcalm : Calm pc .popIndex) (ok : ∀ d, o = some d → Ok s.mem s.hist.chain (V := V) (.popClaim h d h')) :
    Placed (s.put i (s.mem, popTry h h' o, .silent)) := by
  cases o with
  | none => exact hp.pass hpc .rfl hcalm rfl trivial trivial rfl
  | some d =>
    exact hp.pass hpc .rfl ⟨hcalm.tail, hcalm.tail', hcalm.head, hcalm.first⟩ rfl (ok d rfl) trivial rfl

theorem Placed.destroyLoop {pc : Pc V} (hp : Placed s) (hpc : s.pc i = pc) (e : Same s.mem m')
    (hcalm : Calm pc .idle) (ok : Ok s.mem s.hist.chain (.dealloc h c v)) :
    Placed (s.put i (m', destroyLoop h c v k, .silent)) := by
  unfold Lockless.destroyLoop
  split
  · exact hp.pass hpc e ⟨hcalm.tail, hcalm.tail', hcalm.head, hcalm.first⟩ rfl ok trivial rfl
  · exact hp.pass hpc e ⟨hcalm.tail, hcalm.tail', hcalm.head, hcalm.first⟩ rfl ok trivial rfl

theorem Placed.popChunk (hp : Placed s) (hpc : s.pc i = .popChunk h) (ho : offset h ≠ chunkCap)
    (hf : h % 2 = 1) : Placed (s.put i (s.mem, Lockless.popTry h (h + 2) s.mem.headChunk, .silent)) := by
  have hle : h ≤ s.mem.headIndex := by have := hp.ok i; rwa [hpc] at this
  refine hp.popTry hpc ⟨rfl, rfl, rfl, rfl⟩ fun d hd => ?_
  refine ⟨hle, ho, position_add_two h, by rw [hd]; nofun, fun hh => ?_⟩
  subst hh
  have hflag := hp.core.flag hf
  refine ⟨hp.core.headSome d hd ho, ?_, fun _ => hflag⟩
  exact lt_of_not_ge fun hge => hflag.not_ge (Nat.div_le_div_right hge)

theorem Placed.popTail {o : Option ChunkId} (hp : Placed s) (hpc : s.pc i = .popTail h o)
    (ht : position h ≠ position s.mem.tailIndex) (hpos : position h' = position h + 1)
    (hf : h' % 2 = 1 → position h / lap ≠ position s.mem.tailIndex / lap) :
    Placed (s.put i (s.mem, Lockless.popTry h h' o, .silent)) := by
  obtain ⟨hle, heven, ho, hat⟩ : Ok s.mem s.hist.chain (.popTail h o) := hpc ▸ hp.ok i
  refine hp.popTry hpc ⟨rfl, rfl, rfl, rfl⟩ fun d hd => ?_
  refine ⟨hle, ho, hpos, (hat d hd).1, fun hh => ⟨(hat d hd).2 hh, ?_, fun hodd => ?_⟩⟩
  · subst hh; exact lt_of_le_of_ne hp.core.le ht
  · subst hh; exact lt_of_le_of_ne (Nat.div_le_div_right hp.core.le) (hf hodd)

theorem Placed.move {pc pc' : Pc V} {ev : Event V} (hp : Placed s) (hpc : s.pc i = pc)
    (hm : Move s.mem pc m' pc' ev) : Placed (s.put i (m', pc', ev)) := by
  have hok := hp.ok i
  have hhold := hp.holdHead i
  have hnodup := hp.mine_nodup i
  rw [hpc] at hok hhold hnodup
  cases hm with
  | enterPush v =>
    exact hp.pass hpc .rfl ⟨rfl, rfl, rfl, rfl⟩ rfl trivial trivial rfl
  | enterPop => exact hp.pass hpc .rfl ⟨rfl, rfl, rfl, rfl⟩ rfl trivial trivial rfl
  | pushIndex v n =>
    exact hp.quiet hpc .rfl ⟨rfl, rfl, rfl, rfl⟩ rfl ⟨le_rfl, hp.core.even⟩ trivial (fun _ => .inl) hnodup
  | pushWait v n t ho =>
    exact hp.quiet hpc .rfl ⟨rfl, rfl, rfl, rfl⟩ rfl trivial trivial (fun _ => .inl) hnodup
  | pushStart v n t f n' ho hr hc => exact hp.pushStart hpc ho hr
  | pushReady v n t f n' c ho hr hc => exact hp.pushReady hpc ho hr hc
  | pushFirst v n t c hc => exact hp.pushFirst hpc hc
  | pushBeaten v n t c hc =>
    refine hp.quiet hpc .rfl ⟨rfl, rfl, rfl, rfl⟩ rfl trivial trivial (fun d hd => .inl ?_) (by simp [Pc.mine])
    rw [Pc.mine, Option.toList_some, List.mem_singleton] at hd
    exact hd ▸ List.mem_cons_self
  | pushHead v n t c => exact hp.pushHead hpc
  | pushClaimLast v t c n ht ho => exact hp.pushClaimLast hpc ht ho
  | pushClaimNone v t c ht ho => exact absurd rfl (hok.2.2.2.1 ho)
  | pushClaim v n t c ht ho => exact hp.pushClaim hpc ht ho
  | pushRetry v n t c =>
    exact hp.quiet hpc .rfl ⟨rfl, rfl, rfl, rfl⟩ rfl ⟨le_rfl, hp.core.even⟩ trivial (fun _ => .inl) hnodup
  | pushTailChunk v t c n => exact hp.pushTailChunk hpc
  | pushTailIndex v t c n => exact hp.pushTailIndex hpc
  | pushNext v t c n => exact hp.pushNext hpc
  | pushWrite v t c =>
    exact hp.pass hpc ⟨rfl, rfl, rfl, rfl, rfl, le_rfl⟩ ⟨rfl, rfl, rfl, rfl⟩ rfl hok trivial rfl
  | pushFlag t c =>
    exact hp.pass hpc ⟨rfl, rfl, rfl, rfl, rfl, le_rfl⟩ ⟨rfl, rfl, rfl, rfl⟩ rfl trivial trivial rfl
  | popIndex => exact hp.pass hpc .rfl ⟨rfl, rfl, rfl, rfl⟩ rfl le_rfl trivial rfl
  | popWait h ho => exact hp.pass hpc .rfl ⟨rfl, rfl, rfl, rfl⟩ rfl trivial trivial rfl
  | popCheck h ho hf =>
    refine hp.pass hpc .rfl ⟨rfl, rfl, rfl, rfl⟩ rfl ⟨hok, hf, ho, fun d hd => ⟨by rw [hd]; nofun, ?_⟩⟩
      trivial rfl
    rintro rfl
    exact hp.core.headSome d hd ho
  | popFlagged h ho hf => exact hp.popChunk hpc ho hf
  | popEmpty h c ht => exact hp.pass hpc .rfl ⟨rfl, rfl, rfl, rfl⟩ rfl trivial trivial rfl
  | popAhead h c ht hl =>
    refine hp.popTail hpc ht ?_ fun _ => hl
    rw [or_hasNext (show (h + 2) % 2 = 0 by have := hok.2.1; omega), position_eq, position_eq]
    have := hok.2.1
    omega
  | popSame h c ht hl =>
    refine hp.popTail hpc ht (position_add_two h) fun hodd => ?_
    have := hok.2.1
    omega
  | popClaimLast h c h' hh ho => exact hp.popClaimLast hpc hh ho
  | popClaim h c h' hh ho => exact hp.popClaim hpc hh ho
  | popRetry h c h' => exact hp.pass hpc .rfl ⟨rfl, rfl, rfl, rfl⟩ rfl le_rfl trivial rfl
  | popNext h c h' n hn =>
    obtain ⟨ho, hat, hlt, hpos⟩ := hok
    obtain ⟨hnext, hlap⟩ := hp.core.next_at hat hn
    exact hp.pass hpc .rfl ⟨rfl, rfl, rfl, rfl⟩ rfl ⟨ho, hat, hlt, hpos, hnext, hlap⟩ hhold rfl
  | popWaitNext h c h' hn => exact hp.pass hpc .rfl ⟨rfl, rfl, rfl, rfl⟩ rfl hok hhold rfl
  | popNextSome h c h' n d hn =>
    obtain ⟨ho, hat, hlt, hpos, hnext, hlap⟩ := hok
    refine hp.pass hpc .rfl ⟨rfl, rfl, rfl, rfl⟩ rfl
      ⟨ho, hat, hlt, ?_, hnext, hlap, fun _ => hp.core.next_atNext hnext hn⟩ hhold rfl
    rw [or_hasNext (by omega), position_eq (_ + 1)]
    omega
  | popNextNone h c h' n hn =>
    obtain ⟨ho, hat, hlt, hpos, hnext, hlap⟩ := hok
    refine hp.pass hpc .rfl ⟨rfl, rfl, rfl, rfl⟩ rfl
      ⟨ho, hat, hlt, ?_, hnext, hlap, fun hodd => ?_⟩ hhold rfl
    · rw [position_eq (_ + 2)]; omega
    · omega
  | popHeadChunk h c n k => exact hp.popHeadChunk hpc
  | popHeadIndex h c k => exact hp.popHeadIndex hpc
  | popWaitWrite h c hw => exact hp.pass hpc .rfl ⟨rfl, rfl, rfl, rfl⟩ rfl hok trivial rfl
  | popWritten h c hw => exact hp.pass hpc .rfl ⟨rfl, rfl, rfl, rfl⟩ rfl hok trivial rfl
  | popReadLast h c v hv ho => exact hp.pass hpc .rfl ⟨rfl, rfl, rfl, rfl⟩ rfl hok trivial rfl
  | popRead h c v hv ho => exact hp.pass hpc .rfl ⟨rfl, rfl, rfl, rfl⟩ rfl hok trivial rfl
  | popUndefined h c hv => exact hp.pass hpc .rfl ⟨rfl, rfl, rfl, rfl⟩ rfl trivial trivial rfl
  | popFlagDestroy h c v hd =>
    exact hp.destroyLoop hpc ⟨rfl, rfl, rfl, rfl, rfl, le_rfl⟩ ⟨rfl, rfl, rfl, rfl⟩ hok
  | popFlag h c v hd =>
    exact hp.pass hpc ⟨rfl, rfl, rfl, rfl, rfl, le_rfl⟩ ⟨rfl, rfl, rfl, rfl⟩ rfl trivial trivial rfl
  | destroyLoad h c v k hr => exact hp.pass hpc .rfl ⟨rfl, rfl, rfl, rfl⟩ rfl hok trivial rfl
  | destroySkip h c v k hr => exact hp.destroyLoop hpc .rfl ⟨rfl, rfl, rfl, rfl⟩ hok
  | destroyFlag h c v k hr =>
    exact hp.pass hpc ⟨rfl, rfl, rfl, rfl, rfl, le_rfl⟩ ⟨rfl, rfl, rfl, rfl⟩ rfl trivial trivial rfl
  | destroyNext h c v k hr =>
    exact hp.destroyLoop hpc ⟨rfl, rfl, rfl, rfl, rfl, le_rfl⟩ ⟨rfl, rfl, rfl, rfl⟩ hok
  | dealloc h c v =>
    exact hp.pass hpc ⟨rfl, rfl, rfl, rfl, rfl, le_rfl⟩ ⟨rfl, rfl, rfl, rfl⟩ rfl trivial trivial rfl

/-- `tail.index` never goes back. -/
theorem Placed.tail_le {pc' : Pc V} {ev : Event V} (hp : Placed s) (hm : Move s.mem (s.pc i) m' pc' ev) :
    s.mem.tailIndex ≤ m'.tailIndex := by
  have hhold := hp.holdTail i
  generalize s.pc i = pc at *
  cases hm with
  | pushClaimLast v t c n ht ho | pushClaimNone v t c ht ho | pushClaim v n t c ht ho =>
    simp only
    omega
  | pushTailIndex v t c n =>
    have := hhold.1
    simp only
    omega
  | _ => exact le_rfl

theorem placed_init : Placed (.init : State V) where
  core := ⟨rfl, le_rfl, nofun, List.nodup_nil, nofun, rfl, .inl ⟨rfl, rfl⟩, nofun, fun _ => rfl, nofun⟩
  ok _ := trivial
  holdTail _ := trivial
  holdHead _ := trivial
  tailHeld := ⟨none, show decide (offset 0 = chunkCap) = false by decide, fun _ => rfl⟩
  headHeld := ⟨none, show decide (offset 0 = chunkCap) = false by decide, fun _ => rfl⟩
  firstHeld := ⟨none, decide_eq_false fun h => h.2 rfl, fun _ => rfl⟩
  mine _ := nofun
  mine_nodup _ := List.nodup_nil
  mine_inj _ _ := nofun

end CoQueue.Lockless
