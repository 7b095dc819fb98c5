import CoQueue.Mutex.Exclusion

/-!
# No wake-up is lost

While a thread is queued on a mutex, `PARKED_BIT` is set, so the `unlock` of the owner goes through
`unlock_slow`; and there is an owner, or a thread on its way to becoming one: inside `lock_slow` and
not asleep, or woken up and about to notice (`onWay`). `PARKED_BIT` is cleared only by the stores of
`unlock_slow`, under the lock of the bucket, when the scan of the queue has found no other thread with
the key; and when these stores leave the mutex unlocked with threads still queued, the thread just
taken out of the queue is on its way.

All this survives `try_lock`, after which a mutex may have several owners: a thread goes to sleep only
when it finds `LOCKED_BIT` set, and then there is an owner (`Led`), who never leaves without waking
somebody up.
-/

namespace CoQueue.Mutex

open Schedule Token

variable {s s' : State} {i j : Tid} {key : Key}

def State.waits (s : State) (i : Tid) (key : Key) : Prop :=
  (∃ b, i ∈ s.table.queue b) ∧ (s.thread i).key = key

/-- The thread is inside `lock_slow` for the mutex and is up, or has been woken up. -/
def State.onWay (s : State) (i : Tid) (key : Key) : Prop :=
  (s.pc i).inSlow key = true ∨ ∃ w, s.pc i = .asleep key w ∧ (s.thread i).futex = 0

def State.hasOwner (s : State) (key : Key) : Prop := ∃ i, 0 < s.owns key i

/-- The next `unlock` looks for sleeping threads, and there is somebody to make it. -/
def State.served (s : State) (key : Key) : Prop :=
  parked (s.word key) = true ∧ (s.hasOwner key ∨ ∃ i, s.onWay i key)

def Led (s : State) : Prop := ∀ key, locked (s.word key) = true → s.hasOwner key

def Woken (s : State) : Prop := ∀ i key, s.waits i key → s.served key

/-! ### Somebody has a mutex that is locked -/

theorem hasOwner_congr (ho : ∀ j, s'.owns key j = s.owns key j) (h : s.hasOwner key) : s'.hasOwner key :=
  h.imp fun j hj => by rw [ho]; exact hj

/-- A mutex keeps an owner in every step that does not give it up. -/
theorem Deal.hasOwner (h : Deal s s') : (∀ k, s.hasOwner k → s'.hasOwner k) ∨
    ∃ i key, GivesUp s i key s' ∧ ∀ k, k ≠ key → s.hasOwner k → s'.hasOwner k := by
  cases h with
  | keep hw ho => exact .inl fun k => hasOwner_congr (ho k)
  | take i key hw hfree hset ho => exact .inl fun k ⟨j, hj⟩ => ⟨j, by rw [ho]; omega⟩
  | release i key hr hw hfree ho =>
    exact .inr ⟨i, key, hr, fun k hk => hasOwner_congr fun j => by simp [ho, hk]⟩
  | pass i j key hji hw hset ho =>
    refine .inl fun k ⟨l, hl⟩ => ?_
    by_cases hk : k = key
    · have hj := ho k j
      simp only [hk, hji, and_true, if_true, if_false] at hj
      exact ⟨j, by rw [hk]; omega⟩
    · exact hasOwner_congr (fun l => by simpa [hk] using ho k l) ⟨l, hl⟩

theorem Led.deal (hL : Led s) (h : Deal s s') : Led s' := by
  intro k hk
  cases h with
  | keep hw ho => exact hasOwner_congr (ho k) (hL k (by rw [← hw]; exact hk))
  | take i key hw hfree hset ho =>
    by_cases hkk : k = key
    · exact ⟨i, by rw [ho, if_pos ⟨rfl, hkk⟩]; omega⟩
    · exact hasOwner_congr (fun j => by simp [ho, hkk]) (hL k (by rw [← hw k hkk]; exact hk))
  | release i key hr hw hfree ho =>
    by_cases hkk : k = key
    · rw [hkk, hfree] at hk; cases hk
    · exact hasOwner_congr (fun j => by simp [ho, hkk]) (hL k (by rw [← hw k hkk]; exact hk))
  | pass i j key hji hw hset ho =>
    by_cases hkk : k = key
    · have hj := ho k j
      simp only [hkk, hji, and_true, if_true, if_false] at hj
      exact ⟨j, by rw [hkk]; omega⟩
    · exact hasOwner_congr (fun l => by simpa [hkk] using ho k l) (hL k (by rw [← hw k hkk]; exact hk))

theorem hasOwner_look {pc : Pc} (h : (s.pc i).trying = true ∨ s.pc i = .idle)
    (hpc : pc.trying = true ∨ pc = .idle) : s.hasOwner key → (s.goto i pc).hasOwner key := by
  refine hasOwner_congr fun j => ?_
  by_cases hj : j = i
  · subst j
    simp only [State.owns, State.goto, Function.update_self, owns_of_plain (Pc.plain_of_trying h).1,
      owns_of_plain (Pc.plain_of_trying hpc).1]
  · exact owns_congr rfl (Function.update_of_ne hj _ _)

theorem hasOwner_acquire {state : UInt8} {k : Key} (h : (s.pc i).plain = true) (ho : k = key ∨ s.hasOwner k) :
    ((s.setWord key state).acquire i key).hasOwner k := by
  rcases ho with rfl | ⟨j, hj⟩
  · exact ⟨i, by rw [owns_take h, if_pos ⟨rfl, rfl⟩]; omega⟩
  · exact ⟨j, by rw [owns_take h]; omega⟩

theorem Led.tryMove (hQ : Queued s) (hL : Led s) (h : TryMove s s') : Led s' := by
  cases h with
  | move h => exact hL.deal (h.deal hQ)
  | look i pc h hpc => exact fun k hk => hasOwner_look h hpc (hL k hk)
  | seize i key h hw =>
    intro k hk
    refine hasOwner_acquire (by rw [h]; rfl) ?_
    by_cases hkk : k = key
    · exact .inl hkk
    · refine .inr (hL k ?_)
      have hword : ((s.setWord key (s.word key ||| parkedBit)).acquire i key).word k = s.word k :=
        Function.update_of_ne hkk _ _
      rw [← hword]
      exact hk

/-! ### Whoever sleeps will be woken up -/

theorem not_onWay {pc : Pc} (hpc : s.pc i = pc) (hs : pc.inSlow key = false)
    (hna : ∀ k w, pc ≠ .asleep k w) : ¬ s.onWay i key := by
  rintro (h | ⟨w, h, -⟩)
  · rw [hpc, hs] at h; cases h
  · exact hna key w (hpc.symm.trans h)

theorem not_onWay_of_trying (h : (s.pc i).trying = true ∨ s.pc i = .idle) : ¬s.onWay i key := by
  rintro (hi | ⟨w, hi, -⟩)
  · rw [(Pc.plain_of_trying h).2 key] at hi; cases hi
  · have hp := (Pc.plain_of_trying h).1
    rw [hi] at hp; cases hp

/-- A step of thread `i`, seen from a mutex where nobody new waits, `PARKED_BIT` is not cleared and the
mutex is not given up: what has to be shown is that `i`, if it leaves the way, has become an owner. -/
theorem Woken.keep (hW : Woken s) (hwait : s'.waits j key → ∃ k, s.waits k key)
    (hp : parked (s.word key) = true → parked (s'.word key) = true)
    (ho : s.hasOwner key → s'.hasOwner key)
    (hpc : ∀ k, k ≠ i → s'.pc k = s.pc k)
    (hf : ∀ k, k ≠ i → (s.thread k).futex = 0 → (s'.thread k).futex = 0)
    (hi : s.onWay i key → s'.onWay i key ∨ s'.hasOwner key)
    (hj : s'.waits j key) : s'.served key := by
  obtain ⟨k, hk⟩ := hwait hj
  obtain ⟨h1, h2⟩ := hW k key hk
  refine ⟨hp h1, ?_⟩
  rcases h2 with h2 | ⟨k, hk⟩
  · exact .inl (ho h2)
  · by_cases hki : k = i
    · subst k
      exact (hi hk).symm.imp_right fun h => ⟨i, h⟩
    · refine .inr ⟨k, ?_⟩
      unfold State.onWay at hk ⊢
      rw [hpc k hki]
      exact hk.imp_right fun ⟨w, hw, h0⟩ => ⟨w, hw, hf k hki h0⟩

theorem Woken.not_waits (hW : Woken s) (hp : parked (s.word key) = false) : ¬ s.waits j key := by
  intro h
  have h1 := (hW j key h).1
  rw [hp] at h1; cases h1

theorem waits_of_update {d : ThreadData} (h : s'.waits j key) (hd : d.key = (s.thread i).key)
    (htab : s'.table = s.table) (hth : s'.thread = Function.update s.thread i d) : s.waits j key := by
  obtain ⟨hq, hkey⟩ := h
  rw [htab] at hq
  refine ⟨hq, ?_⟩
  rw [hth, Function.update_apply] at hkey
  split at hkey
  · subst j; rw [← hd]; exact hkey
  · exact hkey

theorem Woken.park {w : Nat} (hL : Led s) (hW : Woken s) (h : s.pc i = .slowPark key w)
    (hw : s.word key = lockedBit ||| parkedBit)
    (ho : ∀ k, s.hasOwner k → (s.park i key w).hasOwner k) : Woken (s.park i key w) := by
  rw [State.park, if_pos hw] at ho ⊢
  intro j k hj
  by_cases hk : k = key
  · subst k
    refine ⟨?_, .inl (ho key (hL key (by rw [hw]; decide)))⟩
    simp only [State.goto, State.setThread, hw]
    decide
  · have hji : j ≠ i := by
      rintro rfl
      simp only [State.waits, State.goto, State.setThread, Function.update_self] at hj
      exact hk hj.2.symm
    refine hW.keep (i := i) (fun hj => ⟨j, ?_⟩) id (ho k) (fun _ h => Function.update_of_ne h _ _)
      (fun k hki h0 => ?_) (fun hi => absurd hi ?_) hj
    · obtain ⟨⟨b, hb⟩, hkey⟩ := hj
      simp only [State.goto, State.setThread, Function.update_of_ne hji] at hkey
      refine ⟨?_, hkey⟩
      rcases at_update (P := fun l : List Tid => j ∈ l) hb with ⟨-, hb'⟩ | ⟨-, hb'⟩
      · exact ⟨_, (List.mem_append.1 hb').resolve_right fun h => hji (List.mem_singleton.1 h)⟩
      · exact ⟨b, hb'⟩
    · simpa [State.goto, State.setThread, Function.update_of_ne hki] using h0
    · exact not_onWay h (by simpa [Pc.inSlow] using Ne.symm hk) (by simp)

/-- `unpark_one`: if threads are left in the queue, the one it takes out is on its way, or owns the
mutex. -/
theorem Woken.unpark (hQ : Queued s) (hW : Woken s) (h : s.pc i = .unlockSlow key) (fair : Bool)
    (ho : ∀ k, k ≠ key → s.hasOwner k → ((s.unparkOne key fair).goto i .idle).hasOwner k) :
    Woken ((s.unparkOne key fair).goto i .idle) := by
  have hno : ∀ k, ¬ s.onWay i k := fun k => not_onWay h rfl (by simp)
  intro k' k hk'
  rcases hQ.unparkOne_cases key fair with ⟨hnone, heq⟩ | ⟨j, w, more, rest, hj, hjk, -, hperm, hmore, heq⟩
  · rw [heq] at hk' ho ⊢
    by_cases hk : k = key
    · subst k
      obtain ⟨⟨b, hb⟩, hkey⟩ := hk'
      exact absurd hkey (hnone b k' hb)
    · have hword : ((s.setWord key (unlockCallback (s.word key) ⟨0, false, false⟩).1).goto i .idle).word k =
          s.word k := Function.update_of_ne hk _ _
      refine hW.keep (i := i) (fun h => ⟨k', h⟩) (by rw [hword]; exact id) (ho k hk)
        (fun _ h => Function.update_of_ne h _ _) (fun _ _ => id) (fun h => absurd h (hno k)) hk'
  · have hji : j ≠ i := by rintro rfl; rw [h] at hj; cases hj
    rw [heq] at hk' ho ⊢
    -- who waits now has waited before, and is not `j`
    have hwait : k' ≠ j ∧ s.waits k' k := by
      obtain ⟨⟨b, hb⟩, hkey⟩ := hk'
      obtain ⟨hne, hb'⟩ := hQ.mem_remove hjk hperm hb
      simp only [State.goto, State.setWord, State.setThread, Function.update_of_ne hne] at hkey
      exact ⟨hne, ⟨b, hb'⟩, hkey⟩
    by_cases hk : k = key
    · subst k
      have hmore' : more = true := hmore.2 ⟨_, k', hwait.1, hwait.2.1.choose_spec, hwait.2.2⟩
      subst hmore'
      cases fair with
      | false =>
        rw [unlockCallback_unfair]
        refine ⟨?_, .inr ⟨j, .inr ⟨w, ?_, ?_⟩⟩⟩
        · simp only [State.goto, State.setWord, Function.update_self]; decide
        · simpa [State.goto, State.setWord, State.setThread, Function.update_of_ne hji] using hj
        · simp [State.goto, State.setWord, State.setThread]
      | true =>
        rw [unlockCallback_fair]
        refine ⟨?_, .inl ⟨j, owns_pos.2 (.inr ?_)⟩⟩
        · simpa [State.goto, State.setWord] using (hW k' key hwait.2).1
        · simp [State.handed, ThreadData.handed, State.goto, State.setWord, State.setThread,
            Function.update_of_ne hji, hj]
    · refine hW.keep (i := i) (fun _ => ⟨k', hwait.2⟩) ?_ (ho k hk) (fun _ h => Function.update_of_ne h _ _)
        (fun l _ h0 => ?_) (fun h => absurd h (hno k)) hk'
      · simp only [State.goto, State.setWord, State.setThread, Function.update_of_ne hk]; exact id
      · simp only [State.goto, State.setWord, State.setThread, Function.update_apply]
        split
        · rfl
        · exact h0

theorem Woken.grow (hW : Woken s) (n : Nat) :
    Woken { s with table := s.table.grow (fun i => (s.thread i).key) n } := by
  intro i k hi
  refine hW i k ⟨?_, hi.2⟩
  obtain ⟨b, hb⟩ := hi.1
  simp only [HashTable.grow] at hb
  split at hb
  · exact ⟨b, hb⟩
  · obtain ⟨b', -, hb'⟩ := List.mem_flatMap.1 (List.mem_filter.1 hb).1
    exact ⟨b', hb'⟩

theorem Woken.free (hW : Woken s) (h : s.pc i = .unlockFast key) (hw : s.word key = lockedBit)
    (ho : ∀ k, k ≠ key → s.hasOwner k → ((s.setWord key 0).goto i .idle).hasOwner k) :
    Woken ((s.setWord key 0).goto i .idle) := by
  intro j k hj
  by_cases hk : k = key
  · subst k
    exact absurd hj (hW.not_waits (by rw [hw]; decide))
  · have hword : ((s.setWord key 0).goto i .idle).word k = s.word k := Function.update_of_ne hk _ _
    exact hW.keep (i := i) (fun h => ⟨j, h⟩) (by rw [hword]; exact id) (ho k hk)
      (fun _ h => Function.update_of_ne h _ _) (fun _ _ => id)
      (fun hi => absurd hi (not_onWay h rfl (by simp))) hj

theorem Woken.quiet (hQ : Queued s) (hL : Led s) (hW : Woken s) (h : Move s s')
    (ho : ∀ k, s.hasOwner k → s'.hasOwner k) : Woken s' := by
  cases h with
  | go i pc h hpc hs ht hslow =>
    intro j k hj
    refine hW.keep (i := i) (fun h => ⟨j, h⟩) id (ho k) (fun _ h => Function.update_of_ne h _ _)
      (fun _ _ => id) (fun hi => .inl (.inl ?_)) hj
    simp only [State.goto, Function.update_self]
    rcases hi with hi | ⟨w, hi, -⟩
    · exact hslow k hi
    · rw [hi] at h; cases h
  | mark i key w h =>
    intro j k hj
    refine hW.keep (i := i) (fun h => ⟨j, h⟩) (fun hp => ?_) (ho k)
      (fun _ h => Function.update_of_ne h _ _) (fun _ _ => id) (fun hi => .inl (.inl ?_)) hj
    · simp only [State.goto, State.setWord, Function.update_apply]
      split
      · exact parked_or_parkedBit _
      · exact hp
    · simp only [State.goto, Function.update_self]
      rcases hi with hi | ⟨w, hi, -⟩
      · rw [h] at hi; exact hi
      · rw [h] at hi; cases hi
  | take i key st h hw hs hp hslow =>
    intro j k hj
    have hwait : s.waits j k := waits_of_update hj (d := (s.thread i).acquireResource key) rfl rfl rfl
    refine hW.keep (i := i) (fun _ => ⟨j, hwait⟩) (fun hp' => ?_) (ho k)
      (fun _ h => Function.update_of_ne h _ _) (fun l hli h0 => ?_) (fun hi => .inr ?_) hj
    · simp only [State.acquire, State.setThread, State.goto, State.setWord, Function.update_apply]
      split
      · subst k; rw [hp]; exact hp'
      · exact hp'
    · simpa [State.acquire, State.setThread, State.goto, State.setWord, Function.update_of_ne hli] using h0
    · rcases hi with hi | ⟨w, hi, -⟩
      · exact hasOwner_acquire h (.inl (hslow k hi))
      · rw [hi] at h; cases h
  | park i key w h hw => exact hW.park hL h hw ho
  | wake i key w h hf =>
    intro j k hj
    refine hW.keep (i := i) (fun h => ⟨j, h⟩) id (ho k) (fun _ h => Function.update_of_ne h _ _)
      (fun _ _ => id) (fun hi => .inl (.inl ?_)) hj
    simp only [State.goto, Function.update_self]
    rcases hi with hi | ⟨w', hi, -⟩
    · rw [h] at hi; cases hi
    · obtain ⟨rfl, -⟩ : key = k ∧ w = w' := by simpa using h.symm.trans hi
      exact beq_self_eq_true key
  | receive i key w h hf ht =>
    intro j k hj
    have hwait : s.waits j k := waits_of_update hj (d := (s.thread i).acquireResource key) rfl rfl rfl
    refine hW.keep (i := i) (fun _ => ⟨j, hwait⟩) id (ho k)
      (fun _ h => Function.update_of_ne h _ _) (fun l hli h0 => ?_) (fun hi => .inr ?_) hj
    · simpa [State.acquire, State.setThread, State.goto, Function.update_of_ne hli] using h0
    · -- it owns the mutex since it was handed it
      rcases hi with hi | ⟨w', hi, -⟩
      · rw [h] at hi; cases hi
      · have hown : s.handed i k := by simp [State.handed, ThreadData.handed, hi, hf, ht]
        exact ho k ⟨i, owns_pos.2 (.inr hown)⟩
  | unlock i key h hk =>
    intro j k hj
    have hwait : s.waits j k := waits_of_update hj (d := (s.thread i).releaseResource key) rfl rfl rfl
    refine hW.keep (i := i) (fun _ => ⟨j, hwait⟩) id (ho k)
      (fun _ h => Function.update_of_ne h _ _) (fun l hli h0 => ?_)
      (fun hi => absurd hi (not_onWay h rfl (by simp))) hj
    · simpa [State.setThread, State.goto, Function.update_of_ne hli] using h0
  | free i key h hw => exact hW.free h hw fun k _ => ho k
  | slow i key h =>
    intro j k hj
    exact hW.keep (i := i) (fun h => ⟨j, h⟩) id (ho k) (fun _ h => Function.update_of_ne h _ _)
      (fun _ _ => id) (fun hi => absurd hi (not_onWay h rfl (by simp))) hj
  | unpark i key fair h => exact hW.unpark hQ h fair fun k _ => ho k
  | grow n => exact hW.grow n

theorem Woken.tryMove (hQ : Queued s) (hL : Led s) (hW : Woken s) (h : TryMove s s') : Woken s' := by
  cases h with
  | move h =>
    rcases (h.deal hQ).hasOwner with ho | ⟨i, key, ⟨hpc, hw, rfl⟩ | ⟨fair, hpc, rfl⟩, ho⟩
    · exact hW.quiet hQ hL h ho
    · exact hW.free hpc hw ho
    · exact hW.unpark hQ hpc fair ho
  | look i pc h hpc =>
    intro j k hj
    exact hW.keep (i := i) (fun h => ⟨j, h⟩) id (hasOwner_look h hpc) (fun _ h => Function.update_of_ne h _ _)
      (fun _ _ => id) (fun hi => absurd hi (not_onWay_of_trying h)) hj
  | seize i key h hw =>
    intro j k hj
    have hwait : s.waits j k := waits_of_update hj (d := (s.thread i).acquireResource key) rfl rfl rfl
    refine hW.keep (i := i) (fun _ => ⟨j, hwait⟩) (fun hp => ?_)
      (fun ho => hasOwner_acquire (by rw [h]; rfl) (.inr ho)) (fun _ h => Function.update_of_ne h _ _)
      (fun l hli h0 => ?_) (fun hi => absurd hi (not_onWay_of_trying (.inl (by rw [h]; rfl)))) hj
    · simp only [State.acquire, State.setThread, State.goto, State.setWord, Function.update_apply]
      split
      · exact parked_or_parkedBit _
      · exact hp
    · simpa [State.acquire, State.setThread, State.goto, State.setWord, Function.update_of_ne hli] using h0

theorem woken_init : Woken .init := fun _ _ h => nomatch h.1.choose_spec

theorem led_init : Led .init := fun key hk => absurd hk (show locked 0 ≠ true by decide)

theorem woken_of_run (h : Run step holderUnlocks .init s) : Queued s ∧ Led s ∧ Woken s := by
  refine h.invariant (P := fun s => Queued s ∧ Led s ∧ Woken s) ⟨queued_init, led_init, woken_init⟩ ?_
  intro t a u ⟨hQ, hL, hW⟩ hu hs
  have hm := tryMove_of_step hu hQ.sound hs
  exact ⟨hQ.tryMove hm, hL.tryMove hQ hm, hW.tryMove hQ hL hm⟩

structure Wakeful (s : State) : Prop where
  /-- Who sleeps, and has not been woken up, is queued on the mutex. -/
  queued : ∀ i key w, s.pc i = .asleep key w → (s.thread i).futex ≠ 0 → s.waits i key
  parked : ∀ i key, s.waits i key → parked (s.word key) = true
  /-- Somebody has still to unlock, or is inside `lock_slow` and not queued. -/
  progress : ∀ i key, s.waits i key →
    (locked (s.word key) = true ∧ ∃ j, s.holds j key ∨ s.handed j key) ∨
      ∃ j, s.onWay j key ∧ ∀ b, j ∉ s.table.queue b

/-- No wake-up is lost, on any number of mutexes sharing the buckets of the parking lot. -/
theorem wakeful_of_run (h : Run step (fun s a => holderUnlocks s a ∧ noTry a) .init s) : Wakeful s := by
  obtain ⟨hQ, hO⟩ := owned_of_run h
  obtain ⟨-, -, hW⟩ := woken_of_run (h.mono fun _ _ ha => ha.1)
  refine ⟨fun i key w hpc hf => ?_, fun i key hi => (hW i key hi).1, fun i key hi => ?_⟩
  · obtain ⟨hk, hmem⟩ := hQ.asleep i key w hpc
    exact ⟨⟨_, hmem hf⟩, hk⟩
  · rcases (hW i key hi).2 with ⟨j, hj⟩ | ⟨j, hj⟩
    · exact .inl ⟨(hO.held key).set_of_pos hj, j, owns_pos.1 hj⟩
    · refine .inr ⟨j, hj, hQ.notMem ?_⟩
      rcases hj with hj | ⟨w, -, hf⟩
      · refine .inl fun k w hpc => ?_
        rw [hpc] at hj; cases hj
      · exact .inr hf

/-- Threads 1 and 2 sleep on the mutex at address 8, and thread 0 has woken thread 1 up. -/
def wakeSchedule : List Act :=
  [Act.lock 0 8, Act.run 0 false false, Act.lock 1 8] ++ List.replicate 14 (Act.run 1 false false) ++
    Act.lock 2 8 :: List.replicate 3 (Act.run 2 false false) ++
    [Act.unlock 0 8, Act.run 0 false false, Act.run 0 false false]

theorem wake_wakeful :
    ∃ s, Run step (fun s a => holderUnlocks s a ∧ noTry a) .init s ∧ s.waits 2 8 ∧
      locked (s.word 8) = false ∧ s.onWay 1 8 ∧ Wakeful s := by
  have hexec : (exec step (fun s a => holderUnlocks s a ∧ noTry a) .init wakeSchedule).map
      (fun s => (decide (2 ∈ s.table.queue (s.table.bucket 8)), (s.thread 2).key, locked (s.word 8),
        s.pc 1, (s.thread 1).futex)) = some (true, 8, false, .asleep 8 10, 0) := by
    decide +kernel
  obtain ⟨s, hrun, hs⟩ := Run.of_exec_map hexec
  simp only [Prod.mk.injEq, decide_eq_true_eq] at hs
  obtain ⟨hq, hkey, hl, hpc, hf⟩ := hs
  exact ⟨s, hrun, ⟨⟨_, hq⟩, hkey⟩, hl, .inr ⟨10, hpc, hf⟩, wakeful_of_run hrun⟩

end CoQueue.Mutex
