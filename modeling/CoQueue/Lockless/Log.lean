import CoQueue.Lockless.Switch

/-!
# Claims and values

The claims of `tail.index` are the slots below `tail`, in order, and the claims of `head.index` the slots
below `head` (`Counted`): the phantom positions are the only ones left out. The log says which value
belongs to a slot, and whatever a thread writes to a slot, finds in one or carries is that value
(`Valued`); a chunk that is not installed yet is blank, and `WRITE` is set only behind the write. A
position that has been claimed at `head` and not been returned is with one pop (`Taken`).
-/

namespace CoQueue.Lockless

open Schedule Token

variable {V : Type} {s : State V} {m m' : Mem V} {chain : List ChunkId} {pushes pushes' : List (Nat × V)}
  {pc pc' : Pc V} {ev : Event V} {i j : Tid} {p : Nat}

/-! ### Claims -/

def slots (p : Nat) : List Nat := (List.range p).filter fun q => decide (q % lap ≠ chunkCap)

theorem slots_succ (h : p % lap ≠ chunkCap) : slots (p + 1) = slots p ++ [p] := by
  simp [slots, List.range_succ, h]

theorem slots_phantom (h : p % lap = chunkCap) : slots (p + 1) = slots p := by
  simp [slots, List.range_succ, h]

theorem nodup_slots (p : Nat) : (slots p).Nodup := List.nodup_range.sublist List.filter_sublist

theorem mem_slots {q : Nat} : q ∈ slots p ↔ q < p ∧ q % lap ≠ chunkCap := by
  simp [slots]

theorem slots_append_of_le {q : Nat} (h : p ≤ q) : slots p <+: slots q := by
  obtain ⟨n, rfl⟩ := Nat.exists_eq_add_of_le h
  unfold slots
  rw [List.range_add, List.filter_append]
  exact List.prefix_append _ _

structure Counted (s : State V) : Prop where
  pushes : s.hist.pushes.map Prod.fst = slots (position s.mem.tailIndex)
  pops : s.hist.pops = slots (position s.mem.headIndex)

theorem Counted.claim_tail {t : Nat} {v : V} (hl : Counted s) (ht : s.mem.tailIndex = t)
    (ho : offset t ≠ chunkCap) :
    Counted (s.put i ({ s.mem with tailIndex := t + 2 }, pc', .pushed (position t) v)) := by
  subst ht
  refine ⟨?_, hl.pops⟩
  simp only [State.put, Hist.log, List.map_append, hl.pushes, position_add_two, slots_succ ho]
  rfl

theorem Counted.claim_head {h h' : Nat} (hl : Counted s) (hh : s.mem.headIndex = h)
    (hpos : position h' = position h + 1) (ho : offset h ≠ chunkCap) :
    Counted (s.put i ({ s.mem with headIndex := h' }, pc', .claimed (position h))) := by
  subst hh
  refine ⟨hl.pushes, ?_⟩
  simp only [State.put, Hist.log, hl.pops, hpos, slots_succ ho]

theorem Counted.move (hp : Placed s) (hl : Counted s) (hpc : s.pc i = pc)
    (hm : Move s.mem pc m' pc' ev) : Counted (s.put i (m', pc', ev)) := by
  have hok := hp.ok i
  have hholdT := hp.holdTail i
  have hholdH := hp.holdHead i
  rw [hpc] at hok hholdT hholdH
  cases hm with
  | pushClaimLast v t c n ht ho => exact hl.claim_tail ht (offset_ne_of_last ho)
  | pushClaimNone v t c ht ho => exact hl.claim_tail ht (offset_ne_of_last ho)
  | pushClaim v n t c ht ho => exact hl.claim_tail ht hok.2.2.1
  | popClaimLast h c h' hh ho => exact hl.claim_head hh hok.2.2.1 hok.2.1
  | popClaim h c h' hh ho => exact hl.claim_head hh hok.2.2.1 hok.2.1
  | pushTailIndex v t c n =>
    -- the index leaves the phantom position behind
    have hpos : position (t + 4) = position s.mem.tailIndex + 1 := by
      rw [hholdT.1, position_eq, position_eq]; omega
    have hoff := offset_succ (position_add_two t) (offset_ne_of_last hok.2.1)
    refine ⟨?_, hl.pops⟩
    show s.hist.pushes.map Prod.fst = slots (position (t + 4))
    rw [hpos, slots_phantom (by rw [hholdT.1]; exact hoff.trans hok.2.1)]
    exact hl.pushes
  | popHeadIndex h c k =>
    have hpos : position k = position s.mem.headIndex + 1 := by rw [hok.2.2.2.1, hholdH.1]
    have hoff := offset_succ hholdH.1 (offset_ne_of_last hok.1)
    refine ⟨hl.pushes, ?_⟩
    show s.hist.pops = slots (position k)
    rw [hpos, slots_phantom (hoff.trans hok.1)]
    exact hl.pops
  | _ => exact ⟨hl.pushes, hl.pops⟩

theorem counted_init : Counted (.init : State V) := by
  constructor <;> simp [State.init, Mem.new, position_eq, slots]

/-! ### Values -/

@[simp] theorem setValue_value (m : Mem V) (c d : ChunkId) (o q : Nat) (v : V) :
    (m.setValue c o v).value d q = if d = c ∧ q = o then some v else m.value d q := by
  simp only [Mem.setValue, Function.update_apply]
  by_cases hd : d = c
  · subst d; by_cases hq : q = o <;> simp [hq]
  · simp [hd]

@[simp] theorem setState_state (m : Mem V) (c d : ChunkId) (o q x : Nat) :
    (m.setState c o x).state d q = if d = c ∧ q = o then x else m.state d q := by
  simp only [Mem.setState, Function.update_apply]
  by_cases hd : d = c
  · subst d; by_cases hq : q = o <;> simp [hq]
  · simp [hd]

theorem or_and_of_disjoint {x b d : Nat} (h : b &&& d = 0) : (x ||| b) &&& d = x &&& d := by
  rw [Nat.and_or_distrib_right, h, Nat.or_zero]

/-- The value a thread brings or carries is the one the log has for its slot. -/
def Sound (m : Mem V) (pushes : List (Nat × V)) : Pc V → Prop
  | .pushTailChunk v t _ _ | .pushTailIndex v t _ _ | .pushNext v t _ _ | .pushWrite v t _ =>
    (position t, v) ∈ pushes
  | .pushFlag t c => m.value c (offset t) ≠ none
  | .popRead h c => m.value c (offset h) ≠ none
  | .popFlag h _ v | .destroyLoad h _ v _ | .destroyFlag h _ v _ | .dealloc h _ v =>
    (position h, v) ∈ pushes
  | .undefined => False
  | _ => True

theorem Sound.mono (h : Sound m pushes pc) (hp : pushes ⊆ pushes')
    (hv : ∀ c o, m.value c o ≠ none → m'.value c o ≠ none) : Sound m' pushes' pc := by
  cases pc <;> simp only [Sound] at h ⊢
  all_goals first | exact hp h | exact hv _ _ h

structure Valued (s : State V) : Prop where
  sound : ∀ i, Sound s.mem s.hist.pushes (s.pc i)
  value : ∀ k c o v, s.hist.chain[k]? = some c → s.mem.value c o = some v →
    (k * lap + o, v) ∈ s.hist.pushes
  blank : ∀ c, c ∉ s.hist.chain → ∀ o, s.mem.value c o = none ∧ s.mem.state c o = 0
  written : ∀ c o, s.mem.state c o &&& writeBit ≠ 0 → s.mem.value c o ≠ none
  popped : ∀ e ∈ s.hist.popped, e ∈ s.hist.pushes

theorem popped_push (h : Hist V) (i : Tid) (p : Nat) : (h.log i (.returned (.push p))).popped = h.popped := by
  simp [Hist.log, Hist.popped]

theorem popped_pop (h : Hist V) (i : Tid) (r : Option (Nat × V)) :
    (h.log i (.returned (.pop r))).popped = h.popped ++ r.toList := by
  cases r <;> simp [Hist.log, Hist.popped]

theorem Valued.keep (hv : Valued s) (hval : m'.value = s.mem.value)
    (hst : ∀ c o, m'.state c o &&& writeBit ≠ 0 → s.mem.value c o ≠ none)
    (hblank : ∀ c, c ∉ s.hist.chain → ∀ o, m'.state c o = 0)
    (hchain : (s.hist.log i ev).chain = s.hist.chain)
    (hpush : s.hist.pushes ⊆ (s.hist.log i ev).pushes) (hsound : Sound m' (s.hist.log i ev).pushes pc')
    (hpopped : ∀ e ∈ (s.hist.log i ev).popped, e ∈ s.hist.popped ∨ e ∈ s.hist.pushes) :
    Valued (s.put i (m', pc', ev)) where
  sound := (Function.forall_update_iff s.pc fun _ pc => Sound m' (s.hist.log i ev).pushes pc).2
    ⟨hsound, fun j _ => (hv.sound j).mono hpush fun c o h => by rwa [hval]⟩
  value k c o v hk h := by
    simp only [State.put, hchain, hval] at hk h
    exact hpush (hv.value k c o v hk h)
  blank c hc o := by
    simp only [State.put, hchain, hval] at hc ⊢
    exact ⟨(hv.blank c hc o).1, hblank c hc o⟩
  written c o h := by
    simp only [State.put, hval] at h ⊢
    exact hst c o h
  popped e he := hpush ((hpopped e he).elim (hv.popped e) id)

theorem Valued.quiet (hv : Valued s) (hval : m'.value = s.mem.value) (hst : m'.state = s.mem.state)
    (hchain : (s.hist.log i ev).chain = s.hist.chain)
    (hpush : s.hist.pushes ⊆ (s.hist.log i ev).pushes) (hsound : Sound m' (s.hist.log i ev).pushes pc')
    (hpopped : ∀ e ∈ (s.hist.log i ev).popped, e ∈ s.hist.popped ∨ e ∈ s.hist.pushes) :
    Valued (s.put i (m', pc', ev)) := by
  refine hv.keep hval (fun c o h => ?_) (fun c hc o => ?_) hchain hpush hsound hpopped
  · rw [hst] at h; exact hv.written c o h
  · rw [hst]; exact (hv.blank c hc o).2

/-- A step that sets a bit of a slot; `WRITE` is set behind the write only. -/
theorem Valued.setBit {c : ChunkId} {o b : Nat} (hv : Valued s) (hc : c ∈ s.hist.chain)
    (hb : b &&& writeBit = 0 ∨ s.mem.value c o ≠ none)
    (hchain : (s.hist.log i ev).chain = s.hist.chain) (hpush : (s.hist.log i ev).pushes = s.hist.pushes)
    (hsound : Sound s.mem s.hist.pushes pc')
    (hpopped : ∀ e ∈ (s.hist.log i ev).popped, e ∈ s.hist.popped ∨ e ∈ s.hist.pushes) :
    Valued (s.put i (s.mem.setState c o (s.mem.state c o ||| b), pc', ev)) := by
  refine hv.keep rfl (fun d q h => ?_) (fun d hd q => ?_) hchain (by rw [hpush]; exact fun _ => id) ?_ hpopped
  · rw [setState_state] at h
    split at h
    · rename_i heq
      obtain ⟨rfl, rfl⟩ := heq
      rcases hb with hb | hb
      · rw [or_and_of_disjoint hb] at h; exact hv.written d q h
      · exact hb
    · exact hv.written d q h
  · rw [setState_state, if_neg fun h : d = c ∧ q = o => hd (h.1 ▸ hc)]
    exact (hv.blank d hd q).2
  · rw [hpush]; exact hsound.mono (fun _ => id) fun _ _ => id

theorem Valued.installed {c : ChunkId} (hv : Valued s) (hc : c ∉ s.hist.chain)
    (hval : m'.value = s.mem.value) (hst : m'.state = s.mem.state)
    (hsound : Sound s.mem s.hist.pushes pc') : Valued (s.put i (m', pc', .installed c)) where
  sound := (Function.forall_update_iff s.pc fun _ pc => Sound m' s.hist.pushes pc).2
    ⟨hsound.mono (fun _ => id) fun d o h => by rwa [hval],
      fun j _ => (hv.sound j).mono (fun _ => id) fun d o h => by rwa [hval]⟩
  value k d o v hk h := by
    simp only [State.put, Hist.log, hval] at hk h
    rw [List.getElem?_append] at hk
    split at hk
    · exact hv.value k d o v hk h
    · -- the new chunk is blank
      rw [List.mem_singleton.1 (List.mem_of_getElem? hk), (hv.blank c hc o).1] at h
      cases h
  blank d hd o := by
    simp only [State.put, hval, hst]
    exact hv.blank d (fun h => hd (List.mem_append_left _ h)) o
  written d o h := by
    simp only [State.put, hval, hst] at h ⊢
    exact hv.written d o h
  popped := hv.popped

theorem Valued.pushWrite {v : V} {t : Nat} {c : ChunkId} (hp : Placed s) (hv : Valued s)
    (hpc : s.pc i = .pushWrite v t c) :
    Valued (s.put i (s.mem.setValue c (offset t) v, .pushFlag t c, .silent)) := by
  obtain ⟨-, -, -, hat⟩ : Ok s.mem s.hist.chain (.pushWrite v t c) := hpc ▸ hp.ok i
  have hlog : (position t, v) ∈ s.hist.pushes := by
    have := hv.sound i; rwa [hpc] at this
  have hmono : ∀ d q, s.mem.value d q ≠ none → (s.mem.setValue c (offset t) v).value d q ≠ none := by
    intro d q h
    rw [setValue_value]
    split
    · nofun
    · exact h
  refine ⟨(Function.forall_update_iff s.pc fun _ pc => Sound _ s.hist.pushes pc).2
    ⟨?_, fun j _ => (hv.sound j).mono (fun _ => id) hmono⟩, ?_, ?_, ?_, hv.popped⟩
  · simp [Sound, State.put]
  · intro k d q w hk h
    simp only [State.put, setValue_value] at h
    split at h
    · rename_i heq
      obtain ⟨rfl, rfl⟩ := heq
      cases h
      rw [hp.core.index_eq hk hat, offset, Nat.div_add_mod']
      exact hlog
    · exact hv.value k d q w hk h
  · intro d hd q
    have hne : ¬(d = c ∧ q = offset t) := fun h => hd (h.1 ▸ hat.mem)
    simp only [State.put, setValue_value, if_neg hne]
    exact hv.blank d hd q
  · exact fun d q h => hmono d q (hv.written d q h)

theorem Valued.popReturn {e : Nat × V} (he : e ∈ s.hist.pushes) :
    ∀ e' ∈ (s.hist.log i (.returned (.pop (some e)))).popped, e' ∈ s.hist.popped ∨ e' ∈ s.hist.pushes := by
  intro e' h
  rw [popped_pop] at h
  rcases List.mem_append.1 h with h | h
  · exact .inl h
  · exact .inr (List.mem_singleton.1 h ▸ he)

theorem sound_destroyLoop {h : Nat} {c : ChunkId} {v : V} {k : Nat} (hs : (position h, v) ∈ pushes) :
    Sound m pushes (destroyLoop h c v k) := by
  unfold destroyLoop
  split <;> exact hs

theorem sound_popTry {h h' : Nat} (o : Option ChunkId) : Sound m pushes (popTry h h' o) := by
  cases o <;> trivial

theorem Valued.move (hp : Placed s) (hv : Valued s) (hpc : s.pc i = pc)
    (hm : Move s.mem pc m' pc' ev) : Valued (s.put i (m', pc', ev)) := by
  have hok := hp.ok i
  have hsound := hv.sound i
  rw [hpc] at hok hsound
  cases hm with
  | pushFirst v n t c hc =>
    exact hv.installed (hp.mine i c (by rw [hpc]; exact List.mem_cons_self)).2 rfl rfl trivial
  | pushTailChunk v t c n =>
    exact hv.installed (hp.mine i n (by rw [hpc]; exact List.mem_singleton_self n)).2 rfl rfl hsound
  | pushClaimLast v t c n ht ho =>
    exact hv.quiet rfl rfl rfl (List.subset_append_left _ _)
      (List.mem_append_right _ (List.mem_singleton_self _)) fun _ => .inl
  | pushClaimNone v t c ht ho => exact absurd rfl (hok.2.2.2.1 ho)
  | pushClaim v n t c ht ho =>
    exact hv.quiet rfl rfl rfl (List.subset_append_left _ _)
      (List.mem_append_right _ (List.mem_singleton_self _)) fun _ => .inl
  | pushWrite v t c => exact hv.pushWrite hp hpc
  | pushFlag t c =>
    refine hv.setBit hok.2.2.2.mem (.inr hsound) rfl rfl trivial fun e he => .inl ?_
    rwa [popped_push] at he
  | popEmpty h c ht =>
    refine hv.quiet rfl rfl rfl (fun _ => id) trivial fun e he => .inl ?_
    rwa [popped_pop, Option.toList_none, List.append_nil] at he
  | popWritten h c hw => exact hv.quiet rfl rfl rfl (fun _ => id) (hv.written _ _ hw) fun _ => .inl
  | popReadLast h c v hval ho | popRead h c v hval ho =>
    have hlog := hv.value _ _ _ _ hok.2.1 hval
    rw [offset, Nat.div_add_mod'] at hlog
    exact hv.quiet rfl rfl rfl (fun _ => id) hlog fun _ => .inl
  | popUndefined h c hval => exact absurd hval hsound
  | popFlagDestroy h c v hd =>
    exact hv.setBit hok.2.1.mem (.inl rfl) rfl rfl (sound_destroyLoop hsound) fun _ => .inl
  | popFlag h c v hd => exact hv.setBit hok.2.1.mem (.inl rfl) rfl rfl trivial (Valued.popReturn hsound)
  | destroySkip h c v k hr =>
    exact hv.quiet rfl rfl rfl (fun _ => id) (sound_destroyLoop hsound) fun _ => .inl
  | destroyFlag h c v k hr =>
    exact hv.setBit hok.2.1.mem (.inl rfl) rfl rfl trivial (Valued.popReturn hsound)
  | destroyNext h c v k hr =>
    exact hv.setBit hok.2.1.mem (.inl rfl) rfl rfl (sound_destroyLoop hsound) fun _ => .inl
  | dealloc h c v => exact hv.quiet rfl rfl rfl (fun _ => id) trivial (Valued.popReturn hsound)
  | popFlagged h ho hf => exact hv.quiet rfl rfl rfl (fun _ => id) (sound_popTry _) fun _ => .inl
  | popAhead h c ht hl => exact hv.quiet rfl rfl rfl (fun _ => id) (sound_popTry _) fun _ => .inl
  | popSame h c ht hl => exact hv.quiet rfl rfl rfl (fun _ => id) (sound_popTry _) fun _ => .inl
  | _ => exact hv.quiet rfl rfl rfl (fun _ => id) (by trivial) fun _ => .inl

theorem valued_init : Valued (.init : State V) :=
  ⟨fun _ => trivial, nofun, fun _ _ _ => ⟨rfl, rfl⟩, fun _ _ h => absurd (Nat.zero_and _) h, nofun⟩

/-! ### Who takes a slot -/

/-- The position that a pop has claimed and not returned yet. -/
def Pc.takes : Pc V → Option Nat
  | .popWaitNext h _ _ | .popNextNext h _ _ _ | .popHeadChunk h _ _ _ | .popHeadIndex h _ _
  | .popWaitWrite h _ | .popRead h _ | .popFlag h _ _ | .destroyLoad h _ _ _ | .destroyFlag h _ _ _
  | .dealloc h _ _ => some (position h)
  | _ => none

/-- The position has been claimed at `head`, and no pop has returned with it. -/
def Hist.pending (h : Hist V) (p : Nat) : Prop := p ∈ h.pops ∧ p ∉ h.popped.map Prod.fst

instance (h : Hist V) (p : Nat) : Decidable (h.pending p) := inferInstanceAs (Decidable (_ ∧ _))

def Pc.takesPos (p : Nat) (pc : Pc V) : Nat := if pc.takes = some p then 1 else 0

theorem takes_idle : (.idle : Pc V).takes = none := rfl

structure Taken (s : State V) : Prop where
  held : ∀ p, Held (decide (s.hist.pending p)) fun i => (s.pc i).takesPos p
  once : (s.hist.popped.map Prod.fst).Nodup
  claimed : ∀ p ∈ s.hist.popped.map Prod.fst, p ∈ s.hist.pops

theorem taken_iff : Taken s ↔
    Custody s.hist.pops (s.hist.popped.map Prod.fst) fun i => (s.pc i).takes :=
  ⟨fun h => ⟨h.held, h.once, h.claimed⟩, fun h => ⟨h.held, h.once, h.sub⟩⟩

theorem Taken.keep (ht : Taken s) (hpc : s.pc i = pc) (htakes : pc'.takes = pc.takes)
    (hpops : (s.hist.log i ev).pops = s.hist.pops)
    (hpopped : (s.hist.log i ev).popped = s.hist.popped) : Taken (s.put i (m', pc', ev)) := by
  refine taken_iff.2 ?_
  show Custody (s.hist.log i ev).pops ((s.hist.log i ev).popped.map Prod.fst) _
  rw [hpops, hpopped]
  exact (taken_iff.1 ht).keep_update (F := Pc.takes) (by rw [hpc, htakes])

theorem Taken.claim {h : Nat} (ht : Taken s) (hl : Counted s) (hpc : s.pc i = pc)
    (hnone : pc.takes = none) (hh : s.mem.headIndex = h) (hsome : pc'.takes = some (position h)) :
    Taken (s.put i (m', pc', .claimed (position h))) := by
  have hnew : position h ∉ s.hist.pops := by
    rw [hl.pops, hh, mem_slots]; omega
  exact taken_iff.2 ((taken_iff.1 ht).take_update (F := Pc.takes) (by rw [hpc, hnone]) hsome hnew)

theorem Taken.return {h : Nat} {v : V} (ht : Taken s) (hpc : s.pc i = pc)
    (hsome : pc.takes = some (position h)) :
    Taken (s.put i (m', .idle, .returned (.pop (some (position h, v))))) := by
  refine taken_iff.2 ?_
  show Custody s.hist.pops (((s.hist.log i _).popped).map Prod.fst) _
  rw [popped_pop, List.map_append]
  exact (taken_iff.1 ht).give_update (F := Pc.takes) (by rw [hpc, hsome]) takes_idle

theorem takes_destroyLoop {h : Nat} {c : ChunkId} {v : V} {k : Nat} :
    (destroyLoop h c v k).takes = some (position h) := by
  unfold destroyLoop
  split <;> rfl

theorem takes_popTry {h h' : Nat} (o : Option ChunkId) : (popTry h h' o : Pc V).takes = none := by
  cases o <;> rfl

theorem Taken.move (hl : Counted s) (hv : Valued s) (ht : Taken s) (hpc : s.pc i = pc)
    (hm : Move s.mem pc m' pc' ev) : Taken (s.put i (m', pc', ev)) := by
  cases hm with
  | popClaimLast h c h' hh ho | popClaim h c h' hh ho => exact ht.claim hl hpc rfl hh rfl
  | popFlag h c v hd | destroyFlag h c v k hr | dealloc h c v => exact ht.return hpc rfl
  | pushFlag t c => exact ht.keep hpc rfl rfl (popped_push _ _ _)
  | popEmpty h c hp =>
    exact ht.keep hpc rfl rfl (by rw [popped_pop, Option.toList_none, List.append_nil])
  | popFlagged h ho hf | popAhead h c hp hl | popSame h c hp hl =>
    exact ht.keep hpc (takes_popTry _) rfl rfl
  | popFlagDestroy h c v hd | destroySkip h c v k hr | destroyNext h c v k hr =>
    exact ht.keep hpc takes_destroyLoop rfl rfl
  | popUndefined h c hval =>
    have hsound := hv.sound i
    rw [hpc] at hsound
    exact absurd hval hsound
  | _ => exact ht.keep hpc rfl rfl rfl

theorem taken_init : Taken (.init : State V) :=
  ⟨fun _ => ⟨none, decide_eq_false fun h => List.not_mem_nil h.1, fun _ => rfl⟩, List.nodup_nil, nofun⟩

end CoQueue.Lockless
