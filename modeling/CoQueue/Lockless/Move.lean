import CoQueue.Lockless.Queue

/-!
# The steps of a thread, one by one

`Move m pc m' pc' ev` lists what a step can do, with its branches taken apart, its guards as hypotheses
and the shifts and masks of the source turned into arithmetic. Every invariant of the queue is proved by
going through this list.
-/

namespace CoQueue.Lockless

variable {V : Type} {m m' : Mem V} {pc pc' : Pc V} {ev : Event V}

/-- The outcome of `reserve`: `f` is the next fresh chunk then, and `n'` is `next_chunk`. -/
structure Reserved (m : Mem V) (n : Option ChunkId) (t : Nat) (f : ChunkId) (n' : Option ChunkId) : Prop where
  fresh : (f = m.fresh ∧ n' = n) ∨ (f = m.fresh + 1 ∧ n = none ∧ n' = some m.fresh)
  some : offset t + 1 = chunkCap → n' ≠ none

inductive Move (m : Mem V) : Pc V → Mem V → Pc V → Event V → Prop
  | enterPush (v) : Move m .idle m (.pushIndex v none) .silent
  | enterPop : Move m .idle m .popIndex .silent
  | pushIndex (v n) : Move m (.pushIndex v n) m (.pushChunk v n m.tailIndex) .silent
  | pushWait (v n t) (ho : offset t = chunkCap) :
      Move m (.pushChunk v n t) m (.pushIndex v n) .silent
  | pushStart (v n t f n') (ho : offset t ≠ chunkCap) (hr : Reserved m n t f n')
      (hc : m.tailChunk = none) :
      Move m (.pushChunk v n t) { m with fresh := f + 1 } (.pushFirst v n' t f) .silent
  | pushReady (v n t f n' c) (ho : offset t ≠ chunkCap) (hr : Reserved m n t f n')
      (hc : m.tailChunk = some c) :
      Move m (.pushChunk v n t) { m with fresh := f } (.pushClaim v n' t c) .silent
  | pushFirst (v n t c) (hc : m.tailChunk = none) :
      Move m (.pushFirst v n t c) { m with tailChunk := some c } (.pushHead v n t c) (.installed c)
  | pushBeaten (v n t c) (hc : m.tailChunk ≠ none) :
      Move m (.pushFirst v n t c) m (.pushIndex v (some c)) .silent
  | pushHead (v n t c) :
      Move m (.pushHead v n t c) { m with headChunk := some c } (.pushClaim v n t c) .silent
  | pushClaimLast (v t c n) (ht : m.tailIndex = t) (ho : offset t + 1 = chunkCap) :
      Move m (.pushClaim v (some n) t c) { m with tailIndex := t + 2 } (.pushTailChunk v t c n)
        (.pushed (position t) v)
  | pushClaimNone (v t c) (ht : m.tailIndex = t) (ho : offset t + 1 = chunkCap) :
      Move m (.pushClaim v none t c) { m with tailIndex := t + 2 } .panicked (.pushed (position t) v)
  | pushClaim (v n t c) (ht : m.tailIndex = t) (ho : offset t + 1 ≠ chunkCap) :
      Move m (.pushClaim v n t c) { m with tailIndex := t + 2 } (.pushWrite v t c)
        (.pushed (position t) v)
  | pushRetry (v n t c) :
      Move m (.pushClaim v n t c) m (.pushChunk v n m.tailIndex) .silent
  | pushTailChunk (v t c n) :
      Move m (.pushTailChunk v t c n) { m with tailChunk := some n } (.pushTailIndex v t c n)
        (.installed n)
  | pushTailIndex (v t c n) :
      Move m (.pushTailIndex v t c n) { m with tailIndex := t + 4 } (.pushNext v t c n) .silent
  | pushNext (v t c n) :
      Move m (.pushNext v t c n) { m with next := Function.update m.next c (some n) } (.pushWrite v t c)
        .silent
  | pushWrite (v t c) :
      Move m (.pushWrite v t c) (m.setValue c (offset t) v) (.pushFlag t c) .silent
  | pushFlag (t c) :
      Move m (.pushFlag t c) (m.setState c (offset t) (m.state c (offset t) ||| writeBit)) .idle
        (.returned (.push (position t)))
  | popIndex : Move m .popIndex m (.popChunk m.headIndex) .silent
  | popWait (h) (ho : offset h = chunkCap) : Move m (.popChunk h) m .popIndex .silent
  | popCheck (h) (ho : offset h ≠ chunkCap) (hf : h % 2 = 0) :
      Move m (.popChunk h) m (.popTail h m.headChunk) .silent
  | popFlagged (h) (ho : offset h ≠ chunkCap) (hf : h % 2 = 1) :
      Move m (.popChunk h) m (popTry h (h + 2) m.headChunk) .silent
  | popEmpty (h c) (ht : position h = position m.tailIndex) :
      Move m (.popTail h c) m .idle (.returned (.pop none))
  | popAhead (h c) (ht : position h ≠ position m.tailIndex)
      (hl : position h / lap ≠ position m.tailIndex / lap) :
      Move m (.popTail h c) m (popTry h ((h + 2) ||| hasNext) c) .silent
  | popSame (h c) (ht : position h ≠ position m.tailIndex)
      (hl : position h / lap = position m.tailIndex / lap) :
      Move m (.popTail h c) m (popTry h (h + 2) c) .silent
  | popClaimLast (h c h') (hh : m.headIndex = h) (ho : offset h + 1 = chunkCap) :
      Move m (.popClaim h c h') { m with headIndex := h' } (.popWaitNext h c h') (.claimed (position h))
  | popClaim (h c h') (hh : m.headIndex = h) (ho : offset h + 1 ≠ chunkCap) :
      Move m (.popClaim h c h') { m with headIndex := h' } (.popWaitWrite h c) (.claimed (position h))
  | popRetry (h c h') : Move m (.popClaim h c h') m (.popChunk m.headIndex) .silent
  | popNext (h c h' n) (hn : m.next c = some n) :
      Move m (.popWaitNext h c h') m (.popNextNext h c h' n) .silent
  | popWaitNext (h c h') (hn : m.next c = none) :
      Move m (.popWaitNext h c h') m (.popWaitNext h c h') .silent
  | popNextSome (h c h' n d) (hn : m.next n = some d) :
      Move m (.popNextNext h c h' n) m
        (.popHeadChunk h c n ((position h' * 2 + 2) ||| hasNext)) .silent
  | popNextNone (h c h' n) (hn : m.next n = none) :
      Move m (.popNextNext h c h' n) m (.popHeadChunk h c n (position h' * 2 + 2)) .silent
  | popHeadChunk (h c n k) :
      Move m (.popHeadChunk h c n k) { m with headChunk := some n } (.popHeadIndex h c k) .silent
  | popHeadIndex (h c k) :
      Move m (.popHeadIndex h c k) { m with headIndex := k } (.popWaitWrite h c) .silent
  | popWaitWrite (h c) (hw : m.state c (offset h) &&& writeBit = 0) :
      Move m (.popWaitWrite h c) m (.popWaitWrite h c) .silent
  | popWritten (h c) (hw : m.state c (offset h) &&& writeBit ≠ 0) :
      Move m (.popWaitWrite h c) m (.popRead h c) .silent
  | popReadLast (h c v) (hv : m.value c (offset h) = some v) (ho : offset h + 1 = chunkCap) :
      Move m (.popRead h c) m (.destroyLoad h c v 0) .silent
  | popRead (h c v) (hv : m.value c (offset h) = some v) (ho : offset h + 1 ≠ chunkCap) :
      Move m (.popRead h c) m (.popFlag h c v) .silent
  | popUndefined (h c) (hv : m.value c (offset h) = none) : Move m (.popRead h c) m .undefined .silent
  | popFlagDestroy (h c v) (hd : m.state c (offset h) &&& destroyBit ≠ 0) :
      Move m (.popFlag h c v) (m.setState c (offset h) (m.state c (offset h) ||| readBit))
        (destroyLoop h c v (offset h + 1)) .silent
  | popFlag (h c v) (hd : m.state c (offset h) &&& destroyBit = 0) :
      Move m (.popFlag h c v) (m.setState c (offset h) (m.state c (offset h) ||| readBit)) .idle
        (.returned (.pop (some (position h, v))))
  | destroyLoad (h c v k) (hr : m.state c k &&& readBit = 0) :
      Move m (.destroyLoad h c v k) m (.destroyFlag h c v k) .silent
  | destroySkip (h c v k) (hr : m.state c k &&& readBit ≠ 0) :
      Move m (.destroyLoad h c v k) m (destroyLoop h c v (k + 1)) .silent
  | destroyFlag (h c v k) (hr : m.state c k &&& readBit = 0) :
      Move m (.destroyFlag h c v k) (m.setState c k (m.state c k ||| destroyBit)) .idle
        (.returned (.pop (some (position h, v))))
  | destroyNext (h c v k) (hr : m.state c k &&& readBit ≠ 0) :
      Move m (.destroyFlag h c v k) (m.setState c k (m.state c k ||| destroyBit))
        (destroyLoop h c v (k + 1)) .silent
  | dealloc (h c v) :
      Move m (.dealloc h c v) { m with freed := m.freed ++ [c] } .idle
        (.returned (.pop (some (position h, v))))

theorem reserve_spec (m : Mem V) (n : Option ChunkId) (t : Nat) :
    (reserve m n t).1 = { m with fresh := (reserve m n t).1.fresh } ∧
      Reserved m n t (reserve m n t).1.fresh (reserve m n t).2 := by
  unfold reserve
  split
  · rename_i h
    exact ⟨rfl, .inr ⟨rfl, h.2, rfl⟩, fun _ => nofun⟩
  · rename_i h
    exact ⟨rfl, .inl ⟨rfl, rfl⟩, fun ho hn => h ⟨ho, hn⟩⟩

theorem move_pushChunk (m : Mem V) (v : V) (n : Option ChunkId) (t : Nat) :
    Move m (.pushChunk v n t) (pushLoop m v n t m.tailChunk).1 (pushLoop m v n t m.tailChunk).2 .silent := by
  unfold pushLoop
  split
  · exact .pushWait _ _ _ ‹_›
  · rename_i ho
    obtain ⟨h1, h2⟩ := reserve_spec m n t
    cases hc : m.tailChunk with
    | none =>
      have := Move.pushStart v n t _ _ ho h2 hc
      rw [pushTry, Mem.alloc, h1]
      exact this
    | some c =>
      have := Move.pushReady v n t _ _ c ho h2 hc
      rw [← h1] at this
      exact this

theorem move_popChunk (m : Mem V) (h : Nat) : Move m (.popChunk h) m (popLoop h m.headChunk) .silent := by
  unfold popLoop
  rw [add_and_hasNext]
  split
  · exact .popWait _ ‹_›
  · split
    · exact .popCheck _ ‹_› ‹_›
    · exact .popFlagged _ ‹_› (by omega)

theorem move_of_stepPc {spurious : Bool} (h : stepPc m spurious pc = some (m', pc', ev)) :
    Move m pc m' pc' ev := by
  cases pc <;> simp only [stepPc] at h
  case idle | panicked | undefined => cases h
  case pushChunk => cases h; exact move_pushChunk ..
  case popChunk => cases h; exact move_popChunk ..
  case pushFirst =>
    split at h <;> cases h
    · exact .pushFirst _ _ _ _ ‹_›
    · exact .pushBeaten _ _ _ _ ‹_›
  case pushClaim v n t c =>
    split at h
    · rename_i ht
      split at h
      · cases n <;> cases h
        · exact .pushClaimNone _ _ _ ht.1 ‹_›
        · exact .pushClaimLast _ _ _ _ ht.1 ‹_›
      · cases h; exact .pushClaim _ _ _ _ ht.1 ‹_›
    · cases h; exact .pushRetry ..
  case popTail =>
    split at h
    · cases h; exact .popEmpty _ _ ‹_›
    · split at h <;> cases h
      · exact .popAhead _ _ ‹_› ‹_›
      · exact .popSame _ _ ‹_› (not_not.1 ‹_›)
  case popClaim =>
    split at h
    · rename_i hh
      split at h <;> cases h
      · exact .popClaimLast _ _ _ hh.1 ‹_›
      · exact .popClaim _ _ _ hh.1 ‹_›
    · cases h; exact .popRetry ..
  case popWaitNext =>
    split at h <;> cases h
    · exact .popNext _ _ _ _ ‹_›
    · exact .popWaitNext _ _ _ ‹_›
  case popNextNext _ _ h' _ =>
    have hs : (position h' <<< shift) + (1 <<< shift) = position h' * 2 + 2 := by
      rw [Nat.shiftLeft_eq]; rfl
    rw [hs] at h
    split at h <;> cases h
    · exact .popNextSome _ _ _ _ _ ‹_›
    · exact .popNextNone _ _ _ _ ‹_›
  case popWaitWrite =>
    split at h <;> cases h
    · exact .popWaitWrite _ _ ‹_›
    · exact .popWritten _ _ ‹_›
  case popRead =>
    split at h
    · split at h <;> cases h
      · exact .popReadLast _ _ _ ‹_› ‹_›
      · exact .popRead _ _ _ ‹_› ‹_›
    · cases h; exact .popUndefined _ _ ‹_›
  case popFlag =>
    split at h <;> cases h
    · exact .popFlagDestroy _ _ _ ‹_›
    · exact .popFlag _ _ _ (not_not.1 ‹_›)
  case destroyLoad =>
    split at h <;> cases h
    · exact .destroyLoad _ _ _ _ ‹_›
    · exact .destroySkip _ _ _ _ ‹_›
  case destroyFlag =>
    split at h <;> cases h
    · exact .destroyFlag _ _ _ _ ‹_›
    · exact .destroyNext _ _ _ _ ‹_›
  all_goals
    cases h
    constructor

theorem enter_eq {s s' : State V} {i : Tid} (h : s.enter i pc = some s') :
    s.pc i = .idle ∧ s' = s.put i (s.mem, pc, .silent) := by
  unfold State.enter at h
  split at h
  · rename_i hidle
    cases h
    refine ⟨?_, rfl⟩
    cases hpc : s.pc i <;> first | rfl | simp [hpc, Pc.isIdle] at hidle
  · cases h

theorem move_of_step {s s' : State V} {a : Act V} (h : step s a = some s') :
    ∃ i m' pc' ev, Move s.mem (s.pc i) m' pc' ev ∧ s' = s.put i (m', pc', ev) := by
  cases a with
  | push i v =>
    obtain ⟨hidle, rfl⟩ := enter_eq h
    exact ⟨i, _, _, _, by rw [hidle]; exact .enterPush v, rfl⟩
  | pop i =>
    obtain ⟨hidle, rfl⟩ := enter_eq h
    exact ⟨i, _, _, _, by rw [hidle]; exact .enterPop, rfl⟩
  | run i spurious =>
    obtain ⟨⟨m', pc', ev⟩, hs, rfl⟩ := Option.map_eq_some_iff.1 h
    exact ⟨i, m', pc', ev, move_of_stepPc hs, rfl⟩

end CoQueue.Lockless
