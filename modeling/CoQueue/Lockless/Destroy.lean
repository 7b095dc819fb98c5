import CoQueue.Lockless.Linear

/-!
# Giving chunks back

`Chunk::destroy` goes through all `CHUNK_CAP` slots of a chunk and stops at the first one whose `READ` bit
is not set. The pop of the last slot starts the destruction and does not set the bit of its own slot, so
the bit is never set there (`Stuck`): whoever gets as far as the last slot marks it `DESTROY` and leaves,
and nobody comes by after that. No chunk is ever given back, drained or not.
-/

namespace CoQueue.Lockless

open Schedule

variable {V : Type} {s : State V} {m' : Mem V} {pc pc' : Pc V} {ev : Event V} {i : Tid}

/-- All slots of the `k`-th chunk have been claimed by pops, and these have returned. -/
def Drained (s : State V) (k : Nat) (c : ChunkId) : Prop :=
  s.hist.chain[k]? = some c ∧ ∀ o, o < chunkCap → k * lap + o ∈ s.hist.popped.map Prod.fst

/-- The chunk that a pop which has made its claim may still access. -/
def Pc.popsFrom : Pc V → Option ChunkId
  | .popWaitNext _ c _ | .popNextNext _ c _ _ | .popHeadChunk _ c _ _ | .popHeadIndex _ c _
  | .popWaitWrite _ c | .popRead _ c | .popFlag _ c _ | .destroyLoad _ c _ _ | .destroyFlag _ c _ _
  | .dealloc _ c _ => some c
  | _ => none

structure DestroysOnce (s : State V) : Prop where
  /-- A drained chunk has been deallocated once, -/
  once : ∀ k c, Drained s k c → s.mem.freed.count c = 1
  /-- and whoever is about to deallocate a chunk is the last to access it. -/
  after : ∀ i h c v, s.pc i = .dealloc h c v → ∀ j, j ≠ i → (s.pc j).popsFrom ≠ some c

/-- The thread is not going to set `READ` in the last slot, nor is it past the last slot in `destroy`. -/
def Short : Pc V → Prop
  | .popFlag h _ _ => offset h + 1 ≠ chunkCap
  | .destroyLoad _ _ _ k | .destroyFlag _ _ _ k => k < chunkCap
  | .dealloc _ _ _ => False
  | _ => True

structure Stuck (s : State V) : Prop where
  short : ∀ i, Short (s.pc i)
  unread : ∀ c, s.mem.state c (chunkCap - 1) &&& readBit = 0
  freed : s.mem.freed = []

theorem short_destroyLoop {h : Nat} {c : ChunkId} {v : V} {k : Nat} (hk : k < chunkCap) :
    Short (destroyLoop h c v k) := by
  unfold destroyLoop
  rw [if_pos hk]
  exact hk

theorem short_popTry {h h' : Nat} (o : Option ChunkId) : Short (popTry h h' o : Pc V) := by
  cases o <;> trivial

theorem Stuck.keep (h : Stuck s) (hs : m'.state = s.mem.state) (hf : m'.freed = s.mem.freed)
    (hpc : Short pc') : Stuck (s.put i (m', pc', ev)) where
  short := (Function.forall_update_iff s.pc fun _ pc => Short pc).2 ⟨hpc, fun j _ => h.short j⟩
  unread c := by simp only [State.put, hs]; exact h.unread c
  freed := hf.trans h.freed

theorem Stuck.setBit {c : ChunkId} {o b : Nat} (h : Stuck s) (hb : o = chunkCap - 1 → b &&& readBit = 0)
    (hpc : Short pc') : Stuck (s.put i (s.mem.setState c o (s.mem.state c o ||| b), pc', ev)) where
  short := (Function.forall_update_iff s.pc fun _ pc => Short pc).2 ⟨hpc, fun j _ => h.short j⟩
  unread d := by
    simp only [State.put, setState_state]
    split
    · rename_i heq
      rw [or_and_of_disjoint (hb heq.2.symm), ← heq.1, ← heq.2]
      exact h.unread d
    · exact h.unread d
  freed := h.freed

theorem Stuck.lt_of_read {c : ChunkId} {k : Nat} (h : Stuck s) (hk : k < chunkCap)
    (hr : s.mem.state c k &&& readBit ≠ 0) : k + 1 < chunkCap := by
  by_contra hle
  obtain rfl : k = chunkCap - 1 := by omega
  exact hr (h.unread c)

theorem Stuck.move (hp : Placed s) (h : Stuck s) (hpc : s.pc i = pc) (hm : Move s.mem pc m' pc' ev) :
    Stuck (s.put i (m', pc', ev)) := by
  have hok := hp.ok i
  have hshort := h.short i
  rw [hpc] at hok hshort
  cases hm with
  | pushFlag t c => exact h.setBit (fun _ => rfl) trivial
  | popFlagged q ho hf | popAhead q c ht hl | popSame q c ht hl => exact h.keep rfl rfl (short_popTry _)
  | popReadLast q c v hv ho => exact h.keep rfl rfl (show 0 < chunkCap by decide)
  | popRead q c v hv ho => exact h.keep rfl rfl ho
  | popFlagDestroy q c v hd =>
    have hlt : offset q < lap := Nat.mod_lt _ (by decide)
    refine h.setBit (fun ho => absurd ho ?_) (short_destroyLoop ?_)
    · simp only [Short, chunkCap, lap] at hshort ⊢; omega
    · have hcap := hok.1
      simp only [Short, chunkCap, lap] at hshort hcap hlt ⊢
      omega
  | popFlag q c v hd =>
    refine h.setBit (fun ho => absurd ho ?_) trivial
    simp only [Short, chunkCap, lap] at hshort ⊢; omega
  | destroyLoad q c v k hr => exact h.keep rfl rfl hshort
  | destroySkip q c v k hr => exact h.keep rfl rfl (short_destroyLoop (h.lt_of_read hshort hr))
  | destroyFlag q c v k hr => exact h.setBit (fun _ => rfl) trivial
  | destroyNext q c v k hr =>
    exact h.setBit (fun _ => rfl) (short_destroyLoop (h.lt_of_read hshort hr))
  | dealloc q c v => exact hshort.elim
  | _ => exact h.keep rfl rfl trivial

theorem stuck_init : Stuck (.init : State V) := ⟨fun _ => trivial, fun _ => Nat.zero_and _, rfl⟩

theorem stuck_of_run {C : State V → Act V → Prop} (h : Run step C .init s) : Stuck s :=
  holds_of_run h stuck_init fun hi ht hm => ht.move hi.placed rfl hm

/-- Destruction does what it is for as long as there is nothing to destroy. -/
theorem destroysOnce_iff (h : Run step Any .init s) : DestroysOnce s ↔ ∀ k c, ¬Drained s k c := by
  have hs := stuck_of_run h
  constructor
  · intro hd k c hk
    have hcount := hd.once k c hk
    rw [hs.freed] at hcount
    cases hcount
  · intro hn
    refine ⟨fun k c hk => absurd hk (hn k c), fun i q c v hpc => ?_⟩
    have hshort := hs.short i
    rw [hpc] at hshort
    exact hshort.elim

def drainCall (a : Act Nat) (n : Nat) : List (Act Nat) := a :: List.replicate n (.run 0 false)

def drainSchedule : List (Act Nat) :=
  drainCall (.push 0 7) 7 ++ (List.replicate 29 (drainCall (.push 0 7) 5)).flatten ++
    drainCall (.push 0 7) 8 ++ drainCall (.pop 0) 7 ++
    (List.replicate 29 (drainCall (.pop 0) 6)).flatten ++ drainCall (.pop 0) 41

theorem drain_run : ∃ s : State Nat, Run step Any .init s ∧ Drained s 0 0 ∧ s.mem.freed = [] := by
  have hexec : (exec step Any .init drainSchedule).map
      (fun s => (s.hist.chain, s.hist.popped.map Prod.fst, s.mem.freed)) =
        some ([0, 1], List.range 31, []) := by
    decide +kernel
  obtain ⟨s, hrun, hs⟩ := Run.of_exec_map hexec
  simp only [Prod.mk.injEq] at hs
  refine ⟨s, hrun, ⟨by rw [hs.1]; rfl, fun o ho => ?_⟩, hs.2.2⟩
  rw [hs.2.1, List.mem_range]
  simp only [chunkCap, lap] at ho
  omega

theorem drain_destroysOnce_iff : ∃ s : State Nat, Run step Any .init s ∧ Drained s 0 0 ∧
    (DestroysOnce s ↔ ∀ k c, ¬Drained s k c) := by
  obtain ⟨s, hrun, hd, -⟩ := drain_run
  exact ⟨s, hrun, hd, destroysOnce_iff hrun⟩

/-- The drained chunk has not been given back, with all calls returned. -/
theorem drained_chunk_leaks : ∃ s : State Nat, Run step Any .init s ∧ ¬DestroysOnce s := by
  obtain ⟨s, hrun, hd, hfreed⟩ := drain_run
  refine ⟨s, hrun, fun h => ?_⟩
  have hcount := h.once 0 0 hd
  rw [hfreed] at hcount
  cases hcount

end CoQueue.Lockless
