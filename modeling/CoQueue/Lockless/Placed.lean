import Mathlib.Order.Nat
import CoQueue.Lib.Token
import CoQueue.Lockless.Move

/-!
# Positions and chunks

An index stands for a position; the `32` positions of a lap belong to one chunk, and the last of them is
a phantom: while an index rests on it, one thread is switching to the next chunk and everybody else
waits (`tailHeld`, `headHeld`). `Core` relates the four words `head` and `tail` are made of to the list
of installed chunks: `tail.chunk` is the last chunk and `head.chunk` the one of `head`'s lap, except
while a switch is under way; `head` never passes `tail`; and `HAS_NEXT` is set only when `tail` is in a
later lap.

A thread reads an index and a chunk pointer one after the other. What makes this safe is that an index
never comes back: if the index is still the same when the thread's `compare_exchange` succeeds, it was
the same when the chunk pointer was read (`Ok`).
-/

namespace CoQueue.Lockless

open Schedule Token

variable {V : Type} {s : State V} {m m' : Mem V} {chain chain' : List ChunkId} {i j : Tid}

/-- `c` is the chunk that the index belongs to. -/
def At (chain : List ChunkId) (index : Nat) (c : ChunkId) : Prop :=
  chain[position index / lap]? = some c

/-- `c` is the chunk behind the one that the index belongs to. -/
def AtNext (chain : List ChunkId) (index : Nat) (c : ChunkId) : Prop :=
  chain[position index / lap + 1]? = some c

structure Core (m : Mem V) (chain : List ChunkId) : Prop where
  even : m.tailIndex % 2 = 0
  le : position m.headIndex ≤ position m.tailIndex
  flag : m.headIndex % 2 = 1 → position m.headIndex / lap < position m.tailIndex / lap
  nodup : chain.Nodup
  fresh : ∀ c ∈ chain, c < m.fresh
  tailChunk : m.tailChunk = chain.getLast?
  length : (chain = [] ∧ m.tailIndex = 0) ∨ chain.length = position m.tailIndex / lap + 1 ∨
    (offset m.tailIndex = chunkCap ∧ chain.length = position m.tailIndex / lap + 2)
  next : ∀ c d, m.next c = some d → ∃ k, chain[k]? = some c ∧ chain[k + 1]? = some d ∧
    k + 1 ≤ position m.tailIndex / lap
  headNone : m.headChunk = none → m.headIndex = 0
  headSome : ∀ c, m.headChunk = some c → offset m.headIndex ≠ chunkCap → At chain m.headIndex c

/-! ### What a thread may rely on -/

/-- Facts about the locals of a thread that no other thread's step can undo. -/
def Ok (m : Mem V) (chain : List ChunkId) : Pc V → Prop
  | .pushChunk _ _ t => t ≤ m.tailIndex ∧ t % 2 = 0
  | .pushFirst _ n t _ =>
    t ≤ m.tailIndex ∧ t % 2 = 0 ∧ offset t ≠ chunkCap ∧ (offset t + 1 = chunkCap → n ≠ none)
  | .pushHead _ _ t c => t = 0 ∧ At chain t c
  | .pushClaim _ n t c =>
    t ≤ m.tailIndex ∧ t % 2 = 0 ∧ offset t ≠ chunkCap ∧ (offset t + 1 = chunkCap → n ≠ none) ∧
      (m.tailIndex = t → At chain t c)
  | .pushTailChunk _ t c _ => t % 2 = 0 ∧ offset t + 1 = chunkCap ∧ At chain t c
  | .pushTailIndex _ t c n => t % 2 = 0 ∧ offset t + 1 = chunkCap ∧ At chain t c ∧ AtNext chain t n
  | .pushNext _ t c n =>
    t % 2 = 0 ∧ offset t + 1 = chunkCap ∧ At chain t c ∧ AtNext chain t n ∧ t + 4 ≤ m.tailIndex
  | .pushWrite _ t c | .pushFlag t c =>
    t % 2 = 0 ∧ t < m.tailIndex ∧ offset t ≠ chunkCap ∧ At chain t c
  | .popChunk h => h ≤ m.headIndex
  | .popTail h c =>
    h ≤ m.headIndex ∧ h % 2 = 0 ∧ offset h ≠ chunkCap ∧
      ∀ d, c = some d → m.headChunk ≠ none ∧ (m.headIndex = h → At chain h d)
  | .popClaim h c h' =>
    h ≤ m.headIndex ∧ offset h ≠ chunkCap ∧ position h' = position h + 1 ∧ m.headChunk ≠ none ∧
      (m.headIndex = h → At chain h c ∧ position h < position m.tailIndex ∧
        (h' % 2 = 1 → position h / lap < position m.tailIndex / lap))
  | .popWaitNext h c h' =>
    offset h + 1 = chunkCap ∧ At chain h c ∧ position h < position m.tailIndex ∧
      position h' = position h + 1
  | .popNextNext h c h' n =>
    offset h + 1 = chunkCap ∧ At chain h c ∧ position h < position m.tailIndex ∧
      position h' = position h + 1 ∧ AtNext chain h n ∧ position h / lap + 1 ≤ position m.tailIndex / lap
  | .popHeadChunk h c n k =>
    offset h + 1 = chunkCap ∧ At chain h c ∧ position h < position m.tailIndex ∧
      position k = position h + 2 ∧ AtNext chain h n ∧ position h / lap + 1 ≤ position m.tailIndex / lap ∧
      (k % 2 = 1 → position h / lap + 1 < position m.tailIndex / lap)
  | .popHeadIndex h c k =>
    offset h + 1 = chunkCap ∧ At chain h c ∧ position h < position m.tailIndex ∧
      position k = position h + 2 ∧ position h / lap + 1 ≤ position m.tailIndex / lap ∧
      (k % 2 = 1 → position h / lap + 1 < position m.tailIndex / lap)
  | .popWaitWrite h c | .popRead h c | .popFlag h c _ | .destroyLoad h c _ _ | .destroyFlag h c _ _
  | .dealloc h c _ => offset h ≠ chunkCap ∧ At chain h c ∧ position h < position m.tailIndex
  | .panicked => False
  | _ => True

/-- The thread switches `tail` to the next chunk. -/
def Pc.holdsTail : Pc V → Bool
  | .pushTailChunk _ _ _ _ | .pushTailIndex _ _ _ _ => true
  | _ => false

/-- The thread switches `head` to the next chunk. -/
def Pc.holdsHead : Pc V → Bool
  | .popWaitNext _ _ _ | .popNextNext _ _ _ _ | .popHeadChunk _ _ _ _ | .popHeadIndex _ _ _ => true
  | _ => false

/-- The thread has installed the first chunk and has yet to tell `head`. -/
def Pc.holdsFirst : Pc V → Bool
  | .pushHead _ _ _ _ => true
  | _ => false

def HoldTail (m : Mem V) (chain : List ChunkId) : Pc V → Prop
  | .pushTailChunk _ t _ _ => m.tailIndex = t + 2 ∧ chain.length = position t / lap + 1
  | .pushTailIndex _ t _ _ => m.tailIndex = t + 2 ∧ chain.length = position t / lap + 2
  | _ => True

def HoldHead (m : Mem V) (chain : List ChunkId) : Pc V → Prop
  | .popWaitNext h _ _ | .popNextNext h _ _ _ | .popHeadChunk h _ _ _ =>
    position m.headIndex = position h + 1
  | .popHeadIndex h _ _ =>
    position m.headIndex = position h + 1 ∧ ∃ c, m.headChunk = some c ∧ AtNext chain h c
  | _ => True

/-- The chunks a thread has allocated and not installed yet. -/
def Pc.mine : Pc V → List ChunkId
  | .pushIndex _ n | .pushChunk _ n _ | .pushHead _ n _ _ | .pushClaim _ n _ _ => n.toList
  | .pushFirst _ n _ c => c :: n.toList
  | .pushTailChunk _ _ _ n => [n]
  | _ => []

structure Placed (s : State V) : Prop where
  core : Core s.mem s.hist.chain
  ok : ∀ i, Ok s.mem s.hist.chain (s.pc i)
  holdTail : ∀ i, HoldTail s.mem s.hist.chain (s.pc i)
  holdHead : ∀ i, HoldHead s.mem s.hist.chain (s.pc i)
  tailHeld : Held (decide (offset s.mem.tailIndex = chunkCap)) fun i => (s.pc i).holdsTail.toNat
  headHeld : Held (decide (offset s.mem.headIndex = chunkCap)) fun i => (s.pc i).holdsHead.toNat
  firstHeld : Held (decide (s.mem.headChunk = none ∧ s.hist.chain ≠ []))
    fun i => (s.pc i).holdsFirst.toNat
  mine : ∀ i, ∀ c ∈ (s.pc i).mine, c < s.mem.fresh ∧ c ∉ s.hist.chain
  mine_nodup : ∀ i, (s.pc i).mine.Nodup
  mine_inj : ∀ i j, ∀ c ∈ (s.pc i).mine, c ∈ (s.pc j).mine → i = j

/-! ### How `Ok` survives the steps of other threads -/

structure Ext (m : Mem V) (chain : List ChunkId) (m' : Mem V) (chain' : List ChunkId) : Prop where
  tail : m.tailIndex ≤ m'.tailIndex
  head : m.headIndex ≤ m'.headIndex
  chunk : m.headChunk ≠ none → m'.headChunk ≠ none
  chain : chain <+: chain'

theorem At.ext {index : Nat} {c : ChunkId} (h : At chain index c) (e : chain <+: chain') :
    At chain' index c := by
  unfold At at h ⊢
  obtain ⟨l, rfl⟩ := e
  rw [List.getElem?_append_left (List.getElem?_eq_some_iff.1 h).1]
  exact h

theorem AtNext.ext {index : Nat} {c : ChunkId} (h : AtNext chain index c) (e : chain <+: chain') :
    AtNext chain' index c := by
  unfold AtNext at h ⊢
  obtain ⟨l, rfl⟩ := e
  rw [List.getElem?_append_left (List.getElem?_eq_some_iff.1 h).1]
  exact h

theorem Ext.position_tail (e : Ext m chain m' chain') :
    position m.tailIndex ≤ position m'.tailIndex := by
  rw [position_eq, position_eq]
  exact Nat.div_le_div_right e.tail

theorem Ext.lap_tail (e : Ext m chain m' chain') :
    position m.tailIndex / lap ≤ position m'.tailIndex / lap :=
  Nat.div_le_div_right e.position_tail

theorem Ok.ext {pc : Pc V} (e : Ext m chain m' chain') (h : Ok m chain pc) : Ok m' chain' pc := by
  have htail := e.tail
  have hhead := e.head
  have hpos := e.position_tail
  have hlap := e.lap_tail
  cases pc <;> simp only [Ok] at h ⊢
  case pushChunk => omega
  case pushFirst => exact ⟨by omega, h.2⟩
  case pushHead => exact ⟨h.1, h.2.ext e.chain⟩
  case pushClaim =>
    obtain ⟨h1, h2, h3, h4, h5⟩ := h
    exact ⟨by omega, h2, h3, h4, fun ht => (h5 (by omega)).ext e.chain⟩
  case pushTailChunk => exact ⟨h.1, h.2.1, h.2.2.ext e.chain⟩
  case pushTailIndex => exact ⟨h.1, h.2.1, h.2.2.1.ext e.chain, h.2.2.2.ext e.chain⟩
  case pushNext =>
    obtain ⟨h1, h2, h3, h4, h5⟩ := h
    exact ⟨h1, h2, h3.ext e.chain, h4.ext e.chain, by omega⟩
  case pushWrite | pushFlag => exact ⟨h.1, by omega, h.2.2.1, h.2.2.2.ext e.chain⟩
  case popChunk => omega
  case popTail =>
    obtain ⟨h1, h2, h3, h4⟩ := h
    exact ⟨by omega, h2, h3, fun d hd =>
      ⟨e.chunk (h4 d hd).1, fun hh => ((h4 d hd).2 (by omega)).ext e.chain⟩⟩
  case popClaim =>
    obtain ⟨h1, h2, h3, h4, h5⟩ := h
    refine ⟨by omega, h2, h3, e.chunk h4, fun hh => ?_⟩
    obtain ⟨h6, h7, h8⟩ := h5 (by omega)
    exact ⟨h6.ext e.chain, by omega, fun hodd => by have := h8 hodd; omega⟩
  case popWaitNext => exact ⟨h.1, h.2.1.ext e.chain, by omega, h.2.2.2⟩
  case popNextNext =>
    obtain ⟨h1, h2, h3, h4, h5, h6⟩ := h
    exact ⟨h1, h2.ext e.chain, by omega, h4, h5.ext e.chain, by omega⟩
  case popHeadChunk =>
    obtain ⟨h1, h2, h3, h4, h5, h6, h7⟩ := h
    exact ⟨h1, h2.ext e.chain, by omega, h4, h5.ext e.chain, by omega, fun hk => by have := h7 hk; omega⟩
  case popHeadIndex =>
    obtain ⟨h1, h2, h3, h4, h5, h6⟩ := h
    exact ⟨h1, h2.ext e.chain, by omega, h4, by omega, fun hk => by have := h6 hk; omega⟩
  case popWaitWrite | popRead | popFlag | destroyLoad | destroyFlag | dealloc =>
    exact ⟨h.1, h.2.1.ext e.chain, by omega⟩

theorem HoldTail.of_not {pc : Pc V} (h : pc.holdsTail = false) : HoldTail m chain pc := by
  cases pc <;> trivial

theorem HoldHead.of_not {pc : Pc V} (h : pc.holdsHead = false) : HoldHead m chain pc := by
  cases pc <;> trivial

theorem HoldTail.congr {pc : Pc V} (h : HoldTail m chain pc) (ht : m'.tailIndex = m.tailIndex)
    (hc : chain' = chain) : HoldTail m' chain' pc := by
  subst hc
  cases pc <;> simp only [HoldTail, ht] at h ⊢ <;> exact h

theorem HoldHead.congr {pc : Pc V} (h : HoldHead m chain pc) (hi : m'.headIndex = m.headIndex)
    (hc : m'.headChunk = m.headChunk) (e : chain <+: chain') : HoldHead m' chain' pc := by
  cases pc <;> simp only [HoldHead, hi, hc] at h ⊢ <;> try exact h
  obtain ⟨h, c, hcc, hn⟩ := h
  exact ⟨h, c, hcc, hn.ext e⟩

/-- Thread `i` moves to `pc'`, and to a memory and a chain that every other thread can live with. -/
theorem Placed.change {pc' : Pc V} {h' : Hist V} (hp : Placed s)
    (ext : Ext s.mem s.hist.chain m' h'.chain) (core : Core m' h'.chain) (ok : Ok m' h'.chain pc')
    (holdTail : HoldTail m' h'.chain pc') (holdHead : HoldHead m' h'.chain pc')
    (others : (∀ j, j ≠ i → (s.pc j).holdsTail = false) ∨
      m'.tailIndex = s.mem.tailIndex ∧ h'.chain = s.hist.chain)
    (others' : (∀ j, j ≠ i → (s.pc j).holdsHead = false) ∨
      m'.headIndex = s.mem.headIndex ∧ m'.headChunk = s.mem.headChunk)
    (tailHeld : Held (decide (offset m'.tailIndex = chunkCap))
      fun j => (Function.update s.pc i pc' j).holdsTail.toNat)
    (headHeld : Held (decide (offset m'.headIndex = chunkCap))
      fun j => (Function.update s.pc i pc' j).holdsHead.toNat)
    (firstHeld : Held (decide (m'.headChunk = none ∧ h'.chain ≠ []))
      fun j => (Function.update s.pc i pc' j).holdsFirst.toNat)
    (fresh : s.mem.fresh ≤ m'.fresh)
    (mine : ∀ c ∈ pc'.mine, c ∈ (s.pc i).mine ∨ s.mem.fresh ≤ c ∧ c < m'.fresh)
    (nodup : pc'.mine.Nodup)
    (installed : ∀ c ∈ h'.chain, c ∈ s.hist.chain ∨ c ∈ (s.pc i).mine ∧ c ∉ pc'.mine) :
    Placed ⟨m', Function.update s.pc i pc', h'⟩ := by
  have hmine : ∀ c ∈ pc'.mine, c < m'.fresh ∧ c ∉ h'.chain := by
    intro c hc
    rcases mine c hc with hold | ⟨hle, hlt⟩
    · obtain ⟨hlt, hnot⟩ := hp.mine i c hold
      exact ⟨hlt.trans_le fresh, fun hin => (installed c hin).elim hnot fun h => h.2 hc⟩
    · refine ⟨hlt, fun hin => ?_⟩
      rcases installed c hin with hin | ⟨hin, -⟩
      · exact (hp.core.fresh c hin).not_ge hle
      · exact (hp.mine i c hin).1.not_ge hle
  have hall := fun P => (Function.forall_update_iff (a := i) (b := pc') s.pc P).2
  refine ⟨core, hall (fun _ pc => Ok m' h'.chain pc) ⟨ok, fun j _ => (hp.ok j).ext ext⟩,
    hall (fun _ pc => HoldTail m' h'.chain pc) ⟨holdTail, fun j hj => ?_⟩,
    hall (fun _ pc => HoldHead m' h'.chain pc) ⟨holdHead, fun j hj => ?_⟩, tailHeld, headHeld, firstHeld,
    hall (fun _ pc => ∀ c ∈ pc.mine, c < m'.fresh ∧ c ∉ h'.chain) ⟨hmine, fun j hj c hc => ?_⟩,
    hall (fun _ pc => pc.mine.Nodup) ⟨nodup, fun j _ => hp.mine_nodup j⟩, fun j k c hj hk => ?_⟩
  · exact others.elim (fun h => .of_not (h j hj)) fun h => (hp.holdTail j).congr h.1 h.2
  · exact others'.elim (fun h => .of_not (h j hj)) fun h => (hp.holdHead j).congr h.1 h.2 ext.chain
  · obtain ⟨hlt, hnot⟩ := hp.mine j c hc
    refine ⟨hlt.trans_le fresh, fun hin => (installed c hin).elim hnot fun h => ?_⟩
    exact hj (hp.mine_inj j i c hc h.1)
  · -- a chunk that `i` has now is one it had or a fresh one, which nobody else has
    have hcross : ∀ j, j ≠ i → c ∈ (s.pc j).mine → c ∉ pc'.mine := by
      intro j hj hjc hic
      rcases mine c hic with hold | ⟨hle, -⟩
      · exact hj (hp.mine_inj j i c hjc hold)
      · exact (hp.mine j c hjc).1.not_ge hle
    rcases at_update (P := fun pc => c ∈ Pc.mine pc) hj with ⟨rfl, hj'⟩ | ⟨hji, hj'⟩ <;>
      rcases at_update (P := fun pc => c ∈ Pc.mine pc) hk with ⟨rfl, hk'⟩ | ⟨hki, hk'⟩
    · rfl
    · exact absurd hj' (hcross k hki hk')
    · exact absurd hk' (hcross j hji hj')
    · exact hp.mine_inj j k c hj' hk'

section
variable {pc pc' : Pc V}

theorem Placed.keep_tail (hp : Placed s) (hpc : s.pc i = pc) (h : pc'.holdsTail = pc.holdsTail) :
    Held (decide (offset s.mem.tailIndex = chunkCap))
      fun j => (Function.update s.pc i pc' j).holdsTail.toNat :=
  hp.tailHeld.keep_update (F := fun pc : Pc V => pc.holdsTail.toNat) (by rw [hpc, h])

theorem Placed.keep_head (hp : Placed s) (hpc : s.pc i = pc) (h : pc'.holdsHead = pc.holdsHead) :
    Held (decide (offset s.mem.headIndex = chunkCap))
      fun j => (Function.update s.pc i pc' j).holdsHead.toNat :=
  hp.headHeld.keep_update (F := fun pc : Pc V => pc.holdsHead.toNat) (by rw [hpc, h])

theorem Placed.keep_first (hp : Placed s) (hpc : s.pc i = pc) (h : pc'.holdsFirst = pc.holdsFirst) :
    Held (decide (s.mem.headChunk = none ∧ s.hist.chain ≠ []))
      fun j => (Function.update s.pc i pc' j).holdsFirst.toNat :=
  hp.firstHeld.keep_update (F := fun pc : Pc V => pc.holdsFirst.toNat) (by rw [hpc, h])

end

structure Same (m m' : Mem V) : Prop where
  headIndex : m'.headIndex = m.headIndex
  headChunk : m'.headChunk = m.headChunk
  tailIndex : m'.tailIndex = m.tailIndex
  tailChunk : m'.tailChunk = m.tailChunk
  next : m'.next = m.next
  fresh : m.fresh ≤ m'.fresh

/-- A thread that goes from `pc` to `pc'` neither takes nor drops a token, nor does it switch `tail`. -/
structure Calm (pc pc' : Pc V) : Prop where
  tail : pc.holdsTail = false
  tail' : pc'.holdsTail = false
  head : pc'.holdsHead = pc.holdsHead
  first : pc'.holdsFirst = pc.holdsFirst

theorem Core.same (h : Core m chain) (e : Same m m') : Core m' chain where
  even := by rw [e.tailIndex]; exact h.even
  le := by rw [e.headIndex, e.tailIndex]; exact h.le
  flag := by rw [e.headIndex, e.tailIndex]; exact h.flag
  nodup := h.nodup
  fresh c hc := (h.fresh c hc).trans_le e.fresh
  tailChunk := by rw [e.tailChunk]; exact h.tailChunk
  length := by rw [e.tailIndex]; exact h.length
  next := by rw [e.next, e.tailIndex]; exact h.next
  headNone := by rw [e.headChunk, e.headIndex]; exact h.headNone
  headSome := by rw [e.headChunk, e.headIndex]; exact h.headSome

theorem Same.ext (e : Same m m') : Ext m chain m' chain :=
  ⟨e.tailIndex.ge, e.headIndex.ge, by rw [e.headChunk]; exact id, List.prefix_rfl⟩

theorem Placed.quiet {pc pc' : Pc V} {ev : Event V} (hp : Placed s) (hpc : s.pc i = pc)
    (e : Same s.mem m') (hcalm : Calm pc pc') (hchain : (s.hist.log i ev).chain = s.hist.chain)
    (ok : Ok s.mem s.hist.chain pc') (holdHead : HoldHead s.mem s.hist.chain pc')
    (mine : ∀ c ∈ pc'.mine, c ∈ pc.mine ∨ s.mem.fresh ≤ c ∧ c < m'.fresh)
    (nodup : pc'.mine.Nodup) : Placed (s.put i (m', pc', ev)) := by
  have ext : Ext s.mem s.hist.chain m' (s.hist.log i ev).chain := by rw [hchain]; exact e.ext
  refine hp.change ext ?_ (ok.ext ext) (.of_not hcalm.tail')
    (holdHead.congr e.headIndex e.headChunk ext.chain) (.inr ⟨e.tailIndex, hchain⟩)
    (.inr ⟨e.headIndex, e.headChunk⟩) ?_ ?_ ?_ e.fresh (hpc ▸ mine) nodup
    fun c hin => .inl (by rwa [hchain] at hin)
  · rw [hchain]; exact hp.core.same e
  · rw [e.tailIndex]; exact hp.keep_tail hpc (hcalm.tail'.trans hcalm.tail.symm)
  · rw [e.headIndex]; exact hp.keep_head hpc hcalm.head
  · rw [e.headChunk, hchain]; exact hp.keep_first hpc hcalm.first

/-! ### Reading an index and a chunk -/

/-- While `tail` is not being switched, `tail.chunk` is the chunk that `tail.index` belongs to. -/
theorem Core.tail_at {c : ChunkId} (h : Core m chain) (ho : offset m.tailIndex ≠ chunkCap)
    (hc : m.tailChunk = some c) : At chain m.tailIndex c := by
  rw [h.tailChunk] at hc
  unfold At
  rcases h.length with ⟨rfl, -⟩ | hlen | ⟨hcap, -⟩
  · cases hc
  · rw [List.getLast?_eq_getElem?, hlen] at hc
    exact hc
  · exact absurd hcap ho

theorem Placed.holdsTail_of (hp : Placed s) (ho : offset s.mem.tailIndex ≠ chunkCap) (j : Tid) :
    (s.pc j).holdsTail = false := by
  have hheld := hp.tailHeld
  rw [decide_eq_false ho] at hheld
  simpa using hheld.eq_zero j

theorem Placed.holdsHead_of (hp : Placed s) (ho : offset s.mem.headIndex ≠ chunkCap) (j : Tid) :
    (s.pc j).holdsHead = false := by
  have hheld := hp.headHeld
  rw [decide_eq_false ho] at hheld
  simpa using hheld.eq_zero j

end CoQueue.Lockless
