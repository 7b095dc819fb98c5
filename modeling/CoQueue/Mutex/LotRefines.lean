import CoQueue.Mutex.LotQueues

/-!
# The code of the parking lot refines its specification

`Inv s Q`: the queues of `Q` are the ones in the buckets, and a thread is in a queue, or has a token to read,
exactly when its place in the code and its futex word say so. `Inv.step`: every step of the code is a step of
`Spec` with the same event, or it has no event and changes nothing there.
-/

namespace CoQueue.Mutex.Lot

open Bucket Linked Schedule

variable {s s' : State} {Q : Spec} {i j : Tid} {pc : Pc} {t : Addr} {b : Entry} {e : Option Event} {key : Key}

def Caller.todo : Caller → Option Work
  | .grow _ => none
  | .lock _ work => some work
  | .relock => some .expire

/-- What a call still has to do under the lock of a bucket; one that sleeps may have to take itself out. -/
def Pc.todo : Pc → Option Work
  | .get caller | .create caller _ => caller.todo
  | .lock _ work _ | .check _ work _ | .back _ work _ | .inside _ work _ => some work
  | .leave _ (some _) | .asleep _ => some .expire
  | _ => none

def Caller.expires : Caller → Option Key
  | .lock key .expire => some key
  | _ => none

/-- The key that a thread behind its timeout has read. -/
def Pc.expires : Pc → Option Key
  | .get caller | .create caller _ => caller.expires
  | .lock key .expire _ | .check key .expire _ | .back key .expire _ | .inside key .expire _ => some key
  | _ => none

structure Inv (s : State) (Q : Spec) : Prop where
  locks : Locks s
  kept : Kept s Q.queue
  made : s.hashtable = none → ∀ key, Q.queue key = []
  queued : ∀ i key, i ∈ Q.queue key ↔
    (s.pc i).todo = some .expire ∧ (s.mem.info i).futex ≠ 0 ∧ (s.mem.info i).key = key
  token : ∀ i k, Q.token i = some k ↔
    (s.pc i).todo = some .expire ∧ (s.mem.info i).futex = 0 ∧ (s.mem.info i).unparkToken = k
  own : ∀ i key, (s.pc i).expires = some key → (s.mem.info i).key = key
  data : ∀ i work, (s.pc i).todo = some work → work ≠ .unpark → s.data i = true

theorem Pc.todo_of_expires (h : pc.expires = some key) : pc.todo = some .expire := by
  cases pc with
  | get caller | create caller =>
    cases caller with
    | lock _ work => cases work <;> first | rfl | cases h
    | grow | relock => cases h
  | lock _ work | check _ work | back _ work | inside _ work => cases work <;> first | rfl | cases h
  | _ => cases h

/-! ### Steps without an event -/

theorem Inv.keep (h : Inv s Q) (hl : Locks s') (hpc : s'.pc = Function.update s.pc i pc)
    (hinfo : ∀ j, j ≠ i → s'.mem.info j = s.mem.info j)
    (hi : pc.todo = some .expire → s'.mem.info i = s.mem.info i) (hkept : Kept s' Q.queue)
    (hmade : s'.hashtable = none → s.hashtable = none)
    (htodo : pc.todo = some .expire ↔ (s.pc i).todo = some .expire)
    (hown : ∀ key, pc.expires = some key → (s.mem.info i).key = key)
    (hother : ∀ j, j ≠ i → s'.data j = s.data j)
    (hdata : ∀ work, pc.todo = some work → work ≠ .unpark → s'.data i = true) : Inv s' Q where
  locks := hl
  kept := hkept
  made ht := h.made (hmade ht)
  queued j key := by
    rw [h.queued, hpc]
    by_cases hji : j = i
    · subst hji
      rw [Function.update_self, htodo]
      exact and_congr_right fun ht => by rw [hi (htodo.2 ht)]
    · rw [Function.update_of_ne hji, hinfo j hji]
  token j k := by
    rw [h.token, hpc]
    by_cases hji : j = i
    · subst hji
      rw [Function.update_self, htodo]
      exact and_congr_right fun ht => by rw [hi (htodo.2 ht)]
    · rw [Function.update_of_ne hji, hinfo j hji]
  own j key hj := by
    rw [hpc] at hj
    by_cases hji : j = i
    · subst hji
      rw [Function.update_self] at hj
      rw [hi (Pc.todo_of_expires hj)]
      exact hown key hj
    · rw [Function.update_of_ne hji] at hj
      rw [hinfo j hji]
      exact h.own j key hj
  data j work hj hw := by
    rw [hpc] at hj
    by_cases hji : j = i
    · subst hji
      rw [Function.update_self] at hj
      exact hdata work hj hw
    · rw [Function.update_of_ne hji] at hj
      rw [hother j hji]
      exact h.data j work hj hw

theorem got_todo {caller : Caller} (h : s.got i t caller = some pc) :
    pc.todo = caller.todo ∧ ∀ key, pc.expires = some key → caller.expires = some key ∨ (s.mem.info i).key = key := by
  cases caller with
  | grow numThreads =>
    obtain ⟨bits, -, rfl⟩ := Option.map_eq_some_iff.1 h
    split
    · exact ⟨rfl, by rintro key ⟨⟩⟩
    · exact ⟨rfl, by rintro key ⟨⟩⟩
  | lock key work =>
    cases h
    refine ⟨rfl, fun key' hk => .inl ?_⟩
    cases work <;> exact hk
  | relock =>
    cases h
    refine ⟨rfl, fun key' hk => .inr ?_⟩
    cases hk
    rfl

/-- A move keeps what there is to do, and a thread that has just read its key has read it right. -/
theorem Moves.todo {pc₀ : Pc} (h : Moves s i pc₀ pc) :
    (pc.todo = some .expire ↔ pc₀.todo = some .expire) ∧
      (∀ key, pc.expires = some key → pc₀.expires = some key ∨ (s.mem.info i).key = key) ∧
      (∀ work, pc.todo = some work → work ≠ .unpark → pc₀.todo = some work ∨ s.data i = true) ∧
      pc.new = none ∧ pc₀.new = none := by
  cases h with
  | start hd => exact ⟨Iff.rfl, by rintro key ⟨⟩, by rintro work ⟨⟩, rfl, rfl⟩
  | park key parkToken timeout hd =>
    exact ⟨⟨by rintro ⟨⟩, by rintro ⟨⟩⟩, by rintro key ⟨⟩, fun _ _ _ => .inr hd, rfl, rfl⟩
  | unparkOne key =>
    refine ⟨⟨by rintro ⟨⟩, by rintro ⟨⟩⟩, by rintro key ⟨⟩, ?_, rfl, rfl⟩
    rintro work ⟨⟩ hw
    exact absurd rfl hw
  | get ht hg =>
    obtain ⟨htodo, hexp⟩ := got_todo hg
    refine ⟨by rw [htodo]; exact Iff.rfl, hexp, fun work hw _ => .inl ?_, (got_spec hg).1, rfl⟩
    rw [htodo] at hw
    exact hw
  | stale | again | grown => exact ⟨Iff.rfl, by rintro key ⟨⟩, by rintro work ⟨⟩, rfl, rfl⟩
  | @enter key work b ht hk | @wrong key work b hne =>
    refine ⟨Iff.rfl, fun key' hexp => .inl ?_, fun _ hw _ => .inl hw, rfl, rfl⟩
    cases work <;> exact hexp
  | expired hf => exact ⟨Iff.rfl, by rintro key ⟨⟩, fun _ hw _ => .inl hw, rfl, rfl⟩

theorem Acquires.todo {pc₀ : Pc} (h : Acquires s pc₀ b pc) :
    pc.todo = pc₀.todo ∧ pc.expires = pc₀.expires ∧ pc.new = none ∧ pc₀.new = none := by
  cases h with
  | growLock => exact ⟨rfl, rfl, rfl, rfl⟩
  | @lock key work => cases work <;> exact ⟨rfl, rfl, rfl, rfl⟩

theorem Releases.todo {pc₀ : Pc} (h : Releases s pc₀ b pc) :
    pc.todo = pc₀.todo ∧ pc.expires = none ∧ pc.new = none ∧ pc₀.new = none := by
  cases h with
  | back key work b => cases work <;> exact ⟨rfl, rfl, rfl, rfl⟩
  | _ => exact ⟨rfl, rfl, rfl, rfl⟩

theorem Kept.same {F : Key → List Tid} (h : Kept s F) (hpc : s'.pc = Function.update s.pc i pc)
    (htab : s'.table = s.table) (hht : s'.hashtable = s.hashtable) (hmem : s'.mem = s.mem)
    (hi : (s.pc i).new = none) (hnew : pc.new = none) : Kept s' F := by
  obtain ⟨loc, live, hp, hF⟩ := h
  refine ⟨loc, live, hp.same hpc htab hht hi hnew, ?_⟩
  rw [hmem]
  exact hF

theorem Inv.not_queued (h : Inv s Q) (hi : (s.pc i).todo ≠ some .expire) (k : Key) : i ∉ Q.queue k :=
  fun hq => hi ((h.queued i k).1 hq).1

theorem Inv.silent (h : Inv s Q) (hs : Step s i none s') : Inv s' Q := by
  have hl := h.locks.step hs
  generalize he : (none : Option Event) = e at hs
  cases hs with
  | inside | woken => cases he
  | move hm =>
    obtain ⟨htodo, hexp, hdata, hnew, hold⟩ := hm.todo
    refine h.keep hl rfl (fun _ _ => rfl) (fun _ => rfl) (h.kept.same rfl rfl rfl rfl hold hnew) id htodo ?_
      (fun _ _ => rfl) fun work hw hne => (hdata work hw hne).elim (h.data i work · hne) id
    exact fun key hk => (hexp key hk).elim (h.own i key) id
  | exit hpc hd =>
    have hpc' : s.pc = Function.update s.pc i .idle := by rw [← hpc, Function.update_eq_self]
    refine h.keep (i := i) hl hpc' (fun _ _ => rfl) (fun _ => rfl)
      (h.kept.same hpc' rfl rfl rfl (by rw [hpc]; rfl) rfl) id (by rw [hpc]) (by rintro key ⟨⟩)
      (fun j hj => Function.update_of_ne hj _ _) (by rintro work ⟨⟩)
  | count hpc =>
    have hi := h.not_queued (i := i) (by rw [hpc]; rintro ⟨⟩)
    obtain ⟨loc, live, hp, hF⟩ := h.kept
    refine h.keep hl rfl (fun j hj => ?_) (by rintro ⟨⟩)
      ⟨loc, live, hp.same rfl rfl rfl (by rw [hpc]; rfl) rfl, hF.setNode hi⟩ id (by rw [hpc]; exact Iff.rfl)
      (by rintro key ⟨⟩) (fun j hj => Function.update_of_ne hj _ _) (by rintro work ⟨⟩)
    simp only [State.goto, Mem.setNode_info, Function.update_of_ne hj]
  | alloc hpc ht ha =>
    refine h.keep hl rfl (fun _ _ => rfl) (fun _ => rfl) (h.kept.alloc h.locks hpc ha _ _) id
      (by rw [hpc]; exact Iff.rfl) (fun key hk => h.own i key (by rw [hpc]; exact hk)) (fun _ _ => rfl)
      fun work hw => h.data i work (by rw [hpc]; exact hw)
  | won hpc ht hg =>
    obtain ⟨htodo, hexp⟩ := got_todo hg
    refine h.keep hl rfl (fun _ _ => rfl) (fun _ => rfl) (h.kept.won h.locks hpc ht (h.made ht) (got_spec hg).1)
      (by rintro ⟨⟩) (by rw [hpc, htodo]; exact Iff.rfl) ?_ (fun _ _ => rfl)
      fun work hw => h.data i work (by rw [hpc]; rw [htodo] at hw; exact hw)
    exact fun key hk => (hexp key hk).elim (fun hc => h.own i key (by rw [hpc]; exact hc)) id
  | lost hpc ht hg =>
    obtain ⟨htodo, hexp⟩ := got_todo hg
    refine h.keep hl rfl (fun _ _ => rfl) (fun _ => rfl) (h.kept.lost h.locks hpc ht (got_spec hg).1)
      id (by rw [hpc, htodo]; exact Iff.rfl) ?_ (fun _ _ => rfl)
      fun work hw => h.data i work (by rw [hpc]; rw [htodo] at hw; exact hw)
    exact fun key hk => (hexp key hk).elim (fun hc => h.own i key (by rw [hpc]; exact hc)) id
  | acquire ha hb =>
    obtain ⟨htodo, hexp, hnew, hold⟩ := ha.todo
    exact h.keep hl rfl (fun _ _ => rfl) (fun _ => rfl) (h.kept.same rfl rfl rfl rfl hold hnew) id (by rw [htodo])
      (fun key hk => h.own i key (by rw [← hexp]; exact hk)) (fun _ _ => rfl)
      fun work hw => h.data i work (by rw [← htodo]; exact hw)
  | release hr =>
    obtain ⟨htodo, hexp, hnew, hold⟩ := hr.todo
    exact h.keep hl rfl (fun _ _ => rfl) (fun _ => rfl) (h.kept.same rfl rfl rfl rfl hold hnew) id (by rw [htodo])
      (fun key hk => by rw [hexp] at hk; cases hk) (fun _ _ => rfl)
      fun work hw => h.data i work (by rw [← htodo]; exact hw)
  | growAlloc hpc hb hle ht ha =>
    exact h.keep hl rfl (fun _ _ => rfl) (fun _ => rfl) (h.kept.growAlloc h.locks hpc hb hle ht ha _) id
      (by rw [hpc]; exact Iff.rfl) (by rintro key ⟨⟩) (fun _ _ => rfl) (by rintro work ⟨⟩)
  | rehash hpc hb hb' hlt hm =>
    obtain ⟨hkept, hinfo⟩ := h.kept.rehash h.locks hpc hb hb' hm
    exact h.keep hl rfl (fun j _ => congrFun hinfo j) (fun _ => congrFun hinfo i) hkept id
      (by rw [hpc]; exact Iff.rfl) (by rintro key ⟨⟩) (fun _ _ => rfl) (by rintro work ⟨⟩)
  | publish hpc hb hb' hle =>
    exact h.keep hl rfl (fun _ _ => rfl) (fun _ => rfl) (h.kept.publish h.locks hpc hb hb' hle) (by rintro ⟨⟩)
      (by rw [hpc]; exact Iff.rfl) (by rintro key ⟨⟩) (fun _ _ => rfl) (by rintro work ⟨⟩)

/-! ### Events -/

/-- The bucket of a thread that works on a queue is where the queue of the key is. -/
theorem Placed.inside {loc : Key → Entry} {live : Entry → Prop} {work : Work} (hp : Placed s loc live)
    (hl : Locks s) (hpc : s.pc i = .inside key work b) : b = loc key ∧ live (loc key) := by
  have hfits := hl.fits i
  rw [hpc] at hfits
  obtain ⟨bits, hb, hhash⟩ := hfits
  obtain ⟨hloc, hlive⟩ := hp.at hl (i := i) (t := b.1) (by rw [hpc]; rfl)
    (fun t new c hm => by cases hpc.symm.trans hm) hb
  have hbl : b = loc key := by
    rw [hloc key, ← hhash]
  rw [← hbl]
  exact ⟨rfl, hlive b.2⟩

theorem Inv.woken (h : Inv s Q) (hl : Locks s') (hpc : s'.pc = Function.update s.pc i pc) (hmem : s'.mem = s.mem)
    (htab : s'.table = s.table) (hht : s'.hashtable = s.hashtable) (hdata : s'.data = s.data)
    (hi : (s.pc i).new = none) (hnew : pc.new = none) (hexp : (s.pc i).todo = some .expire)
    (htodo : pc.todo = none) (hf : (s.mem.info i).futex = 0) :
    Spec.Step Q (.woken i (s.mem.info i).unparkToken) { Q with token := Function.update Q.token i none } ∧
      Inv s' { Q with token := Function.update Q.token i none } := by
  have hpi : s'.pc i = pc := by rw [hpc, Function.update_self]
  refine ⟨.woken ((h.token i _).2 ⟨hexp, hf, rfl⟩), hl, h.kept.same hpc htab hht hmem hi hnew, ?_, ?_, ?_, ?_, ?_⟩
  · rw [hht]
    exact h.made
  · intro j key
    rw [hmem]
    refine (h.queued j key).trans ?_
    by_cases hji : j = i
    · subst hji
      rw [hpi, htodo]
      exact ⟨fun hq => absurd hf hq.2.1, by rintro ⟨⟨⟩, -⟩⟩
    · rw [hpc, Function.update_of_ne hji]
  · intro j k
    show Function.update Q.token i none j = some k ↔ _
    rw [hmem]
    by_cases hji : j = i
    · subst hji
      rw [hpi, htodo, Function.update_self]
      exact ⟨by rintro ⟨⟩, by rintro ⟨⟨⟩, -⟩⟩
    · rw [Function.update_of_ne hji, h.token, hpc, Function.update_of_ne hji]
  · intro j key hj
    rw [hmem]
    by_cases hji : j = i
    · subst hji
      cases htodo.symm.trans (hpi ▸ Pc.todo_of_expires hj)
    · rw [hpc, Function.update_of_ne hji] at hj
      exact h.own j key hj
  · intro j work hj
    by_cases hji : j = i
    · subst hji
      cases htodo.symm.trans (hpi ▸ hj)
    · rw [hpc, Function.update_of_ne hji] at hj
      rw [hdata]
      exact h.data j work hj

theorem Inv.park {parkToken : Nat} {timeout : Bool} {mem : Mem Entry} (h : Inv s Q)
    (hpc : s.pc i = .inside key (.park parkToken timeout) b)
    (hl : Locks ({ s with mem }.goto i (.leave b (some timeout))))
    (hm : s.mem.park b i key parkToken timeout = some mem) :
    ∃ Q', Spec.Step Q (.queued i key) Q' ∧ Inv ({ s with mem }.goto i (.leave b (some timeout))) Q' := by
  obtain ⟨loc, live, hp, hF⟩ := h.kept
  obtain ⟨rfl, hlive⟩ := hp.inside h.locks hpc
  have hiQ := h.not_queued (i := i) (by rw [hpc]; rintro ⟨⟩)
  obtain ⟨m', hm', hF', hinfo⟩ := hF.park hlive hiQ parkToken timeout
  cases hm.symm.trans hm'
  have hpi : ({ s with mem }.goto i (.leave (loc key) (some timeout))).pc i = .leave (loc key) (some timeout) :=
    Function.update_self ..
  have hpj : ∀ j, j ≠ i → ({ s with mem }.goto i (.leave (loc key) (some timeout))).pc j = s.pc j :=
    fun j hj => Function.update_of_ne hj _ _
  have hii : mem.info i = { s.mem.info i with parkedWithTimeout := timeout, key, parkToken, futex := 1 } := by
    rw [hinfo, Function.update_self]
  have hij : ∀ j, j ≠ i → mem.info j = s.mem.info j := fun j hj => by rw [hinfo, Function.update_of_ne hj]
  have htok : Q.token i = none := by
    cases hk : Q.token i with
    | none => rfl
    | some k =>
      have hw := ((h.token i k).1 hk).1
      rw [hpc] at hw
      cases hw
  refine ⟨_, .queued hiQ htok, hl, ⟨loc, live, hp.same rfl rfl rfl (by rw [hpc]; rfl) rfl, hF'⟩, ?_, ?_, ?_, ?_, ?_⟩
  · intro ht
    cases ht.symm.trans (h.locks.current i (loc key).1 (by rw [hpc]; rfl))
  · intro j k
    have hmem : j ∈ Function.update Q.queue key (Q.queue key ++ [i]) k ↔ j ∈ Q.queue k ∨ (j = i ∧ key = k) := by
      by_cases hk : k = key
      · subst hk
        rw [Function.update_self, List.mem_append, List.mem_singleton, and_iff_left rfl]
      · rw [Function.update_of_ne hk]
        exact (or_iff_left fun hj => hk hj.2.symm).symm
    rw [hmem]
    show _ ↔ _ ∧ (mem.info j).futex ≠ 0 ∧ (mem.info j).key = k
    by_cases hji : j = i
    · subst hji
      rw [hpi, hii]
      exact ⟨fun hj => ⟨rfl, Nat.one_ne_zero, (hj.resolve_left (hiQ k)).2⟩, fun hj => .inr ⟨rfl, hj.2.2⟩⟩
    · rw [hpj j hji, hij j hji, ← h.queued]
      exact or_iff_left fun hj => hji hj.1
  · intro j k
    show Q.token j = some k ↔ _ ∧ (mem.info j).futex = 0 ∧ (mem.info j).unparkToken = k
    by_cases hji : j = i
    · subst hji
      rw [htok, hii]
      exact ⟨by rintro ⟨⟩, fun hj => absurd hj.2.1 Nat.one_ne_zero⟩
    · rw [hpj j hji, hij j hji, h.token]
  · intro j k hj
    by_cases hji : j = i
    · subst hji
      rw [hpi] at hj
      cases hj
    · rw [hpj j hji] at hj
      exact (congrArg Node.key (hij j hji)).trans (h.own j k hj)
  · intro j work hj
    by_cases hji : j = i
    · subst hji
      intro _
      exact h.data j (.park parkToken timeout) (by rw [hpc]; rfl) (by rintro ⟨⟩)
    · rw [hpj j hji] at hj
      exact h.data j work hj

theorem Inv.unpark {n now : Nat} {callback : UnparkResult → UnparkToken} {r : Mem Entry × Option Tid × UnparkResult}
    (h : Inv s Q) (hpc : s.pc i = .inside key .unpark b) (hl : Locks ({ s with mem := r.1 }.goto i (.leave b none)))
    (hm : s.mem.unparkOne b n now key callback = some r) :
    ∃ Q', Spec.Step Q (.unparked key (r.2.1.map fun j => (j, callback r.2.2)) r.2.2) Q' ∧
      Inv ({ s with mem := r.1 }.goto i (.leave b none)) Q' := by
  obtain ⟨loc, live, hp, hF⟩ := h.kept
  obtain ⟨rfl, hlive⟩ := hp.inside h.locks hpc
  obtain ⟨N, r', hrun, hpost⟩ := hF.unparkOne hlive now callback
  obtain rfl := fuel_unique (fun _ _ _ hn => Mem.unparkOne_mono hn) hrun hm
  have hpi : ∀ m, ({ s with mem := m }.goto i (.leave (loc key) none)).pc i = .leave (loc key) none :=
    fun m => Function.update_self ..
  have hpj : ∀ m j, j ≠ i → ({ s with mem := m }.goto i (.leave (loc key) none)).pc j = s.pc j :=
    fun m j hj => Function.update_of_ne hj _ _
  rcases hpost with ⟨hnil, rfl⟩ | ⟨k, l, fair, hcons, hr, hF', hinfo⟩
  · refine ⟨Q, .nobody hnil, h.keep hl rfl (fun _ _ => rfl) (fun _ => rfl)
      ⟨loc, live, hp.same rfl rfl rfl (by rw [hpc]; rfl) rfl, hF⟩ id ?_ (by rintro key ⟨⟩) (fun _ _ => rfl)
      (by rintro work ⟨⟩)⟩
    rw [hpc]
    exact ⟨by rintro ⟨⟩, by rintro ⟨⟩⟩
  · obtain ⟨mem, k', result⟩ := r
    obtain ⟨rfl, rfl⟩ := Prod.mk.inj hr
    have hkQ : k ∈ Q.queue key := by rw [hcons]; exact List.mem_cons_self
    obtain ⟨hktodo, -, hkkey⟩ := (h.queued k key).1 hkQ
    have hki : k ≠ i := by
      rintro rfl
      rw [hpc] at hktodo
      cases hktodo
    have hnd : k ∉ l := (List.nodup_cons.1 (hcons ▸ hF.nodup key)).1
    have hik : mem.info k =
        { s.mem.info k with unparkToken := callback ⟨1, !l.isEmpty, fair⟩, futex := 0 } := by
      rw [show mem.info = _ from hinfo, Function.update_self]
    have hij : ∀ j, j ≠ k → mem.info j = s.mem.info j := fun j hj => by
      rw [show mem.info = _ from hinfo, Function.update_of_ne hj]
    have hkeys : ∀ j, (mem.info j).key = (s.mem.info j).key := by
      intro j
      by_cases hjk : j = k
      · rw [hjk, hik]
      · rw [hij j hjk]
    refine ⟨_, .unparked _ fair hcons, hl, ⟨loc, live, hp.same rfl rfl rfl (by rw [hpc]; rfl) rfl, hF'⟩, ?_, ?_, ?_,
      ?_, ?_⟩
    · intro ht
      cases ht.symm.trans (h.locks.current i (loc key).1 (by rw [hpc]; rfl))
    · intro j key'
      have hmem : j ∈ Function.update Q.queue key l key' ↔ j ∈ Q.queue key' ∧ j ≠ k := by
        by_cases hk : key' = key
        · subst hk
          rw [Function.update_self, hcons, List.mem_cons]
          constructor
          · intro hj
            exact ⟨.inr hj, by rintro rfl; exact hnd hj⟩
          · rintro ⟨hj, hjk⟩
            exact hj.resolve_left hjk
        · rw [Function.update_of_ne hk]
          refine (and_iff_left_of_imp fun hj => ?_).symm
          rintro rfl
          exact hk (((h.queued j key').1 hj).2.2.symm.trans hkkey)
      rw [hmem]
      show _ ↔ _ ∧ (mem.info j).futex ≠ 0 ∧ (mem.info j).key = key'
      by_cases hji : j = i
      · subst hji
        rw [hpi]
        refine ⟨fun hj => absurd hj.1 (h.not_queued (by rw [hpc]; rintro ⟨⟩) key'), by rintro ⟨⟨⟩, -⟩⟩
      · rw [hpj _ j hji, hkeys]
        by_cases hjk : j = k
        · subst hjk
          rw [hik]
          exact ⟨fun hj => absurd rfl hj.2, fun hj => absurd rfl hj.2.1⟩
        · rw [hij j hjk, ← h.queued]
          exact and_iff_left hjk
    · intro j tok
      show Function.update Q.token k (some (callback ⟨1, !l.isEmpty, fair⟩)) j = some tok ↔
        _ ∧ (mem.info j).futex = 0 ∧ (mem.info j).unparkToken = tok
      by_cases hjk : j = k
      · subst hjk
        rw [Function.update_self, hpj _ j hki, hik, Option.some_inj]
        exact ⟨fun htok => ⟨hktodo, rfl, htok⟩, fun hj => hj.2.2⟩
      · rw [Function.update_of_ne hjk, hij j hjk, h.token]
        by_cases hji : j = i
        · subst hji
          rw [hpi, hpc]
          exact ⟨by rintro ⟨⟨⟩, -⟩, by rintro ⟨⟨⟩, -⟩⟩
        · rw [hpj _ j hji]
    · intro j key' hj
      refine (hkeys j).trans ?_
      by_cases hji : j = i
      · subst hji
        rw [hpi] at hj
        cases hj
      · rw [hpj _ j hji] at hj
        exact h.own j key' hj
    · intro j work hj
      by_cases hji : j = i
      · subst hji
        rw [hpi] at hj
        cases hj
      · rw [hpj _ j hji] at hj
        exact h.data j work hj

theorem Inv.timedOut {n : Nat} {r : Mem Entry × Bool} (h : Inv s Q) (hpc : s.pc i = .inside key .expire b)
    (hf : (s.mem.info i).futex ≠ 0) (hl : Locks ({ s with mem := r.1 }.goto i (.leave b none)))
    (hm : s.mem.timedOut b n i key = some r) :
    ∃ Q', Spec.Step Q (.timedOut i key r.2) Q' ∧ Inv ({ s with mem := r.1 }.goto i (.leave b none)) Q' := by
  obtain ⟨loc, live, hp, hF⟩ := h.kept
  obtain ⟨rfl, hlive⟩ := hp.inside h.locks hpc
  have hkey : (s.mem.info i).key = key := h.own i key (by rw [hpc]; rfl)
  have hiQ : i ∈ Q.queue key := (h.queued i key).2 ⟨by rw [hpc]; rfl, hf, hkey⟩
  obtain ⟨N, r', hrun, hlast, hF', hinfo⟩ := hF.timedOut hiQ
  obtain rfl := fuel_unique (fun _ _ _ hn => Mem.timeoutLoop_mono hn) hrun hm
  have hpi : ({ s with mem := r.1 }.goto i (.leave (loc key) none)).pc i = .leave (loc key) none :=
    Function.update_self ..
  have hpj : ∀ j, j ≠ i → ({ s with mem := r.1 }.goto i (.leave (loc key) none)).pc j = s.pc j :=
    fun j hj => Function.update_of_ne hj _ _
  have hstep : Q.Step (.timedOut i key r.2)
      { Q with queue := Function.update Q.queue key ((Q.queue key).erase i) } := by
    rw [hlast]
    exact .timedOut hiQ
  refine ⟨_, hstep, hl, ⟨loc, live, hp.same rfl rfl rfl (by rw [hpc]; rfl) rfl, hF'⟩, ?_, ?_, ?_, ?_, ?_⟩
  · intro ht
    cases ht.symm.trans (h.locks.current i (loc key).1 (by rw [hpc]; rfl))
  · intro j key'
    have hmem : j ∈ Function.update Q.queue key ((Q.queue key).erase i) key' ↔ j ∈ Q.queue key' ∧ j ≠ i := by
      by_cases hk : key' = key
      · subst hk
        rw [Function.update_self, (hF.nodup key').mem_erase_iff, and_comm]
      · rw [Function.update_of_ne hk]
        refine (and_iff_left_of_imp fun hj => ?_).symm
        rintro rfl
        exact hk (((h.queued j key').1 hj).2.2.symm.trans hkey)
    rw [hmem, h.queued]
    show _ ↔ _ ∧ (r.1.info j).futex ≠ 0 ∧ (r.1.info j).key = key'
    rw [hinfo]
    by_cases hji : j = i
    · subst hji
      rw [hpi]
      exact ⟨fun hj => absurd rfl hj.2, by rintro ⟨⟨⟩, -⟩⟩
    · rw [hpj j hji]
      exact and_iff_left hji
  · intro j k
    show Q.token j = some k ↔ _ ∧ (r.1.info j).futex = 0 ∧ (r.1.info j).unparkToken = k
    rw [h.token, hinfo]
    by_cases hji : j = i
    · subst hji
      rw [hpi]
      exact ⟨fun hj => absurd hj.2.1 hf, by rintro ⟨⟨⟩, -⟩⟩
    · rw [hpj j hji]
  · intro j key' hj
    show (r.1.info j).key = key'
    rw [hinfo]
    by_cases hji : j = i
    · subst hji
      rw [hpi] at hj
      cases hj
    · rw [hpj j hji] at hj
      exact h.own j key' hj
  · intro j work hj
    by_cases hji : j = i
    · subst hji
      rw [hpi] at hj
      cases hj
    · rw [hpj j hji] at hj
      exact h.data j work hj

/-- Every step is one of `Spec` with the same event, or none. -/
theorem Inv.step (h : Inv s Q) (hs : Step s i e s') : ∃ Q', Inv s' Q' ∧ Q.Next e Q' := by
  cases e with
  | none => exact ⟨Q, h.silent hs, rfl⟩
  | some e =>
    have hl := h.locks.step hs
    cases hs with
    | @woken timeout hpc hf =>
      obtain ⟨hstep, hinv⟩ := h.woken hl rfl rfl rfl rfl rfl (by rw [hpc]; rfl) rfl (by rw [hpc]; rfl) rfl hf
      exact ⟨_, hinv, hstep⟩
    | @inside key work b x mem e sleep hpc hw =>
      cases work with
      | park parkToken timeout =>
        rw [State.work] at hw
        split at hw
        · obtain ⟨m, hm, heq⟩ := Option.map_eq_some_iff.1 hw
          cases heq
          obtain ⟨Q', hstep, hinv⟩ := h.park hpc hl hm
          exact ⟨Q', hinv, hstep⟩
        · cases hw
          refine ⟨Q, h.keep hl rfl (fun _ _ => rfl) (fun _ => rfl)
            (h.kept.same rfl rfl rfl rfl (by rw [hpc]; rfl) rfl) id ?_ (by rintro key ⟨⟩) (fun _ _ => rfl)
            (by rintro work ⟨⟩), .invalid i key⟩
          rw [hpc]
          exact ⟨by rintro ⟨⟩, by rintro ⟨⟩⟩
      | unpark =>
        rw [State.work] at hw
        obtain ⟨r, hm, heq⟩ := Option.map_eq_some_iff.1 hw
        cases heq
        obtain ⟨Q', hstep, hinv⟩ := h.unpark hpc hl hm
        exact ⟨Q', hinv, hstep⟩
      | expire =>
        rw [State.work] at hw
        split at hw
        · rename_i hf
          cases hw
          obtain ⟨hstep, hinv⟩ := h.woken hl rfl rfl rfl rfl rfl (by rw [hpc]; rfl) rfl (by rw [hpc]; rfl) rfl hf
          exact ⟨_, hinv, hstep⟩
        · rename_i hf
          obtain ⟨r, hm, heq⟩ := Option.map_eq_some_iff.1 hw
          cases heq
          obtain ⟨Q', hstep, hinv⟩ := h.timedOut hpc hf hl hm
          exact ⟨Q', hinv, hstep⟩

/-- Where no queues are being moved, the queue of a key is what its bucket in the current table has for it. -/
theorem Inv.settled {bits : Nat} (h : Inv s Q) (ht : s.hashtable = some t) (hb : s.table t = some bits)
    (hno : ∀ i new c, s.pc i ≠ .growMove t new c) (key : Key) :
    ∃ q, s.mem.Queue (t, hash key bits) q ∧ (q.filter fun i => (s.mem.node i).key = key) = Q.queue key := by
  obtain ⟨loc, live, hp, L, hQ, hF⟩ := h.kept
  obtain ⟨hloc, hlive⟩ := hp.settled t bits ht hb hno
  refine ⟨L (t, hash key bits), hQ.queue (hlive _), ?_⟩
  rw [hF.queue key, hloc key]
  rfl

theorem Inv.init : Inv .init .empty where
  locks := Locks.init
  kept := by
    refine ⟨fun _ => (0, 0), fun _ => False, ⟨by rintro t bits ⟨⟩, by rintro i t new c bits bits' ⟨⟩,
      by rintro i caller a ⟨⟩, fun _ => False.elim⟩, fun _ => [], ?_, ?_⟩
    · exact ⟨fun _ => False.elim, fun _ => False.elim, by rintro a b b' ⟨⟩, by rintro a b ⟨⟩⟩
    · exact ⟨by rintro b a ⟨⟩, fun _ => rfl⟩
  made _ _ := rfl
  queued i key := ⟨by rintro ⟨⟩, by rintro ⟨⟨⟩, -⟩⟩
  token i k := ⟨by rintro ⟨⟩, by rintro ⟨⟨⟩, -⟩⟩
  own := by rintro i key ⟨⟩
  data := by rintro i work ⟨⟩

theorem inv_of_run {l : List Event} (h : Run (watch step note) Any (.init, []) (s, l)) :
    ∃ Q, Spec.Trace l Q ∧ Inv s Q := by
  refine h.invariant (P := fun w => ∃ Q, Spec.Trace w.2 Q ∧ Inv w.1 Q) ⟨.empty, .nil, .init⟩ ?_
  rintro ⟨s, l⟩ a ⟨s', l'⟩ ⟨Q, htr, hinv⟩ - hs
  obtain ⟨hs, hl⟩ := watch_eq hs
  obtain ⟨Q', hinv', hstep⟩ := hinv.step (step_cases hs)
  refine ⟨Q', ?_, hinv'⟩
  dsimp only at hl ⊢
  rw [hl, note]
  cases he : event s a with
  | none =>
    rw [show event s a = none from he] at hstep
    rw [show Q' = Q from hstep]
    simpa using htr
  | some e =>
    rw [show event s a = some e from he] at hstep
    exact .snoc htr hstep

end CoQueue.Mutex.Lot
