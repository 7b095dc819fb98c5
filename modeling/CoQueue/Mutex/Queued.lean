import CoQueue.Mutex.RawMutex

/-!
# What a step of `lock`, `try_lock` and `unlock` can do, and the queues

`Move s s'` lists the kinds of steps there are when nobody calls `try_lock` and threads unlock only what
they hold, and `TryMove s s'` those with `try_lock`. The invariants of the mutex are proved case by case
from these lists and never look at the step function again.

The first of them, `Queued`, is about the parking lot alone: a thread is in at most one queue, that of
the bucket of its key, exactly while it sleeps on that key with its futex word set. It survives the
growing of the hash table, which moves every thread to the bucket its key has in the new table.
-/

namespace CoQueue.Mutex

open Schedule

variable {s s' : State} {i j : Tid} {key : Key}

/-! ### Program points -/

/-- Neither inside `unlock` nor asleep. -/
def Pc.plain : Pc → Bool
  | .unlockFast _ | .unlockSlow _ | .asleep _ _ => false
  | _ => true

/-- Inside `lock_slow` for this mutex, outside `park`. -/
def Pc.inSlow : Pc → Key → Bool
  | .slowLoad k _, key | .slowBarge k _ _, key | .slowMark k _ _, key | .slowPark k _, key => k == key
  | _, _ => false

/-- Inside `try_lock`. -/
def Pc.trying : Pc → Bool
  | .tryLoad _ | .tryMark _ _ => true
  | _ => false

/-- A thread about to barge in, or to mark the word in `try_lock`, has seen the mutex unlocked. -/
def Pc.sound : Pc → Bool
  | .slowBarge _ _ st | .tryMark _ st => !locked st
  | _ => true

theorem slowLoop_cases (k : Key) (w : Nat) (st : UInt8) :
    (slowLoop k w st).plain = true ∧ (slowLoop k w st).sound = true ∧
      (slowLoop k w st).inSlow k = true := by
  unfold slowLoop
  split
  · rename_i h
    exact ⟨rfl, h, beq_self_eq_true k⟩
  · split
    · exact ⟨rfl, rfl, beq_self_eq_true k⟩
    · split <;> exact ⟨rfl, rfl, beq_self_eq_true k⟩

theorem slowLoop_trying (k : Key) (w : Nat) (st : UInt8) : (slowLoop k w st).trying = false := by
  unfold slowLoop
  split
  · rfl
  · split
    · rfl
    · split <;> rfl

theorem tryLoop_cases (k : Key) (st : UInt8) :
    ((tryLoop k st).trying = true ∨ tryLoop k st = .idle) ∧ (tryLoop k st).sound = true := by
  unfold tryLoop
  split
  · exact ⟨.inr rfl, rfl⟩
  · rename_i h
    exact ⟨.inl rfl, by simpa [Pc.sound] using h⟩

theorem Pc.plain_of_trying {pc : Pc} (h : pc.trying = true ∨ pc = .idle) :
    pc.plain = true ∧ ∀ key, pc.inSlow key = false := by
  cases pc <;> simp [Pc.trying] at h <;> exact ⟨rfl, fun _ => rfl⟩

/-! ### The kinds of steps -/

inductive Move (s : State) : State → Prop
  | go (i : Tid) (pc : Pc) (h : (s.pc i).plain = true) (hpc : pc.plain = true) (hs : pc.sound = true)
      (ht : pc.trying = false) (hslow : ∀ key, (s.pc i).inSlow key = true → pc.inSlow key = true) :
      Move s (s.goto i pc)
  /-- The `compare_exchange` of `lock_slow` that sets `PARKED_BIT`. -/
  | mark (i : Tid) (key : Key) (wait : Nat) (h : s.pc i = .slowMark key wait (s.word key)) :
      Move s ((s.setWord key (s.word key ||| parkedBit)).goto i (.slowPark key wait))
  /-- A `compare_exchange` that sets `LOCKED_BIT`. -/
  | take (i : Tid) (key : Key) (state : UInt8) (h : (s.pc i).plain = true)
      (hw : locked (s.word key) = false) (hs : locked state = true)
      (hp : parked state = parked (s.word key)) (hslow : ∀ k, (s.pc i).inSlow k = true → k = key) :
      Move s ((s.setWord key state).acquire i key)
  /-- `park` behind a successful `validate`. -/
  | park (i : Tid) (key : Key) (wait : Nat) (h : s.pc i = .slowPark key wait)
      (hw : s.word key = lockedBit ||| parkedBit) : Move s (s.park i key wait)
  /-- `park` returns with `TOKEN_NORMAL`. -/
  | wake (i : Tid) (key : Key) (wait : Nat) (h : s.pc i = .asleep key wait)
      (hf : (s.thread i).futex = 0) (ht : (s.thread i).unparkToken ≠ tokenHandoff) :
      Move s (s.goto i (.slowLoad key (spin wait).1))
  /-- `park` returns with `TOKEN_HANDOFF`. -/
  | receive (i : Tid) (key : Key) (wait : Nat) (h : s.pc i = .asleep key wait)
      (hf : (s.thread i).futex = 0) (ht : (s.thread i).unparkToken = tokenHandoff) :
      Move s (s.acquire i key)
  | unlock (i : Tid) (key : Key) (h : s.pc i = .idle) (hk : key ∈ (s.thread i).resources) :
      Move s ((s.goto i (.unlockFast key)).setThread i ((s.thread i).releaseResource key))
  /-- The `compare_exchange` of `unlock`. -/
  | free (i : Tid) (key : Key) (h : s.pc i = .unlockFast key) (hw : s.word key = lockedBit) :
      Move s ((s.setWord key 0).goto i .idle)
  | slow (i : Tid) (key : Key) (h : s.pc i = .unlockFast key) : Move s (s.goto i (.unlockSlow key))
  | unpark (i : Tid) (key : Key) (fair : Bool) (h : s.pc i = .unlockSlow key) :
      Move s ((s.unparkOne key fair).goto i .idle)
  | grow (numThreads : Nat) :
      Move s { s with table := s.table.grow (fun i => (s.thread i).key) numThreads }

inductive TryMove (s : State) : State → Prop
  | move {s' : State} (h : Move s s') : TryMove s s'
  /-- A call of `try_lock`, its loads of the word, and the return of `false`. -/
  | look (i : Tid) (pc : Pc) (h : (s.pc i).trying = true ∨ s.pc i = .idle)
      (hpc : pc.trying = true ∨ pc = .idle) (hs : pc.sound = true) : TryMove s (s.goto i pc)
  /-- The `compare_exchange` of `try_lock`, which leaves `LOCKED_BIT` clear. -/
  | seize (i : Tid) (key : Key) (h : s.pc i = .tryMark key (s.word key)) (hw : locked (s.word key) = false) :
      TryMove s ((s.setWord key (s.word key ||| parkedBit)).acquire i key)

theorem enter_eq {pc : Pc} (hs : s.enter i pc = some s') : s.pc i = .idle ∧ s' = s.goto i pc := by
  unfold State.enter at hs
  split at hs
  · cases hs; exact ⟨‹_›, rfl⟩
  · cases hs

theorem Move.loop {wait : Nat} (h : (s.pc i).plain = true)
    (hslow : ∀ k, (s.pc i).inSlow k = true → k = key) :
    Move s (s.goto i (slowLoop key wait (s.word key))) := by
  obtain ⟨h1, h2, h3⟩ := slowLoop_cases key wait (s.word key)
  exact .go i _ h h1 h2 (slowLoop_trying _ _ _) fun k hk => by rw [hslow k hk]; exact h3

theorem move_of_stepPc {spurious fair : Bool} (hsound : (s.pc i).sound = true)
    (htry : (s.pc i).trying = false) (hs : stepPc s i spurious fair (s.pc i) = some s') : Move s s' := by
  cases hpc : s.pc i <;> rw [hpc] at hs hsound htry <;> simp only [stepPc] at hs
  case idle => cases hs
  case lockFast k =>
    split at hs <;> cases hs
    · rename_i h
      refine .take i k lockedBit (by rw [hpc]; rfl) (by rw [h.1]; rfl) rfl (by rw [h.1]; rfl) ?_
      intro k' hk'
      rw [hpc] at hk'; cases hk'
    · refine .go i _ (by rw [hpc]; rfl) rfl rfl rfl fun k' hk' => ?_
      rw [hpc] at hk'; cases hk'
  case slowLoad k w =>
    cases hs
    exact .loop (by rw [hpc]; rfl) fun k' hk' => by rw [hpc] at hk'; exact (beq_iff_eq.1 hk').symm
  case slowBarge k w st =>
    split at hs <;> cases hs
    · rename_i h
      obtain ⟨rfl, -⟩ := h
      refine .take i k _ (by rw [hpc]; rfl) (by simpa [Pc.sound] using hsound) (locked_or_lockedBit _)
        (parked_or_lockedBit _) fun k' hk' => ?_
      rw [hpc] at hk'; exact (beq_iff_eq.1 hk').symm
    · exact .loop (by rw [hpc]; rfl) fun k' hk' => by rw [hpc] at hk'; exact (beq_iff_eq.1 hk').symm
  case slowMark k w st =>
    split at hs <;> cases hs
    · rename_i h
      obtain ⟨rfl, -⟩ := h
      exact .mark i k w hpc
    · exact .loop (by rw [hpc]; rfl) fun k' hk' => by rw [hpc] at hk'; exact (beq_iff_eq.1 hk').symm
  case slowPark k w =>
    cases hs
    by_cases hw : s.word k = lockedBit ||| parkedBit
    · exact .park i k w hpc hw
    · rw [State.park, if_neg hw]
      refine .go i _ (by rw [hpc]; rfl) rfl rfl rfl fun k' hk' => ?_
      rw [hpc] at hk'; exact hk'
  case asleep k w =>
    split at hs
    · cases hs
    · rename_i hf
      split at hs <;> cases hs
      · exact .receive i k w hpc (not_not.1 hf) ‹_›
      · exact .wake i k w hpc (not_not.1 hf) ‹_›
  case unlockFast k =>
    split at hs <;> cases hs
    · exact .free i k hpc ‹_›
    · exact .slow i k hpc
  case unlockSlow k => cases hs; exact .unpark i k fair hpc
  case tryLoad | tryMark => cases htry

theorem move_of_step {a : Act} (hu : holderUnlocks s a) (ha : noTry a)
    (hsound : ∀ i, (s.pc i).sound = true)
    (htry : ∀ i spurious fair, a = .run i spurious fair → (s.pc i).trying = false)
    (hs : step s a = some s') : Move s s' := by
  cases a with
  | lock i k =>
    obtain ⟨hpc, rfl⟩ := enter_eq hs
    refine .go i _ (by rw [hpc]; rfl) rfl rfl rfl fun k' hk' => ?_
    rw [hpc] at hk'; cases hk'
  | tryLock i k => cases ha
  | unlock i k =>
    obtain ⟨t, ht, rfl⟩ := Option.map_eq_some_iff.1 hs
    obtain ⟨hpc, rfl⟩ := enter_eq ht
    exact .unlock i k hpc hu
  | run i spurious fair => exact move_of_stepPc (hsound i) (htry i spurious fair rfl) hs
  | grow n => cases hs; exact .grow n

theorem tryMove_of_stepPc {spurious fair : Bool} (hsound : (s.pc i).sound = true)
    (hs : stepPc s i spurious fair (s.pc i) = some s') : TryMove s s' := by
  by_cases htry : (s.pc i).trying = true
  · cases hpc : s.pc i <;> rw [hpc] at hs hsound htry <;> simp only [stepPc] at hs
    case tryLoad k =>
      cases hs
      obtain ⟨h1, h2⟩ := tryLoop_cases k (s.word k)
      exact .look i _ (.inl (by rw [hpc]; rfl)) h1 h2
    case tryMark k st =>
      split at hs <;> cases hs
      · rename_i h
        obtain ⟨rfl, -⟩ := h
        exact .seize i k hpc (by simpa [Pc.sound] using hsound)
      · obtain ⟨h1, h2⟩ := tryLoop_cases k (s.word k)
        exact .look i _ (.inl (by rw [hpc]; rfl)) h1 h2
    all_goals cases htry
  · exact .move (move_of_stepPc hsound (by simpa using htry) hs)

theorem tryMove_of_step {a : Act} (hu : holderUnlocks s a) (hsound : ∀ i, (s.pc i).sound = true)
    (hs : step s a = some s') : TryMove s s' := by
  cases a with
  | tryLock i k =>
    obtain ⟨hpc, rfl⟩ := enter_eq hs
    exact .look i _ (.inr hpc) (.inl rfl) rfl
  | run i spurious fair => exact tryMove_of_stepPc (hsound i) hs
  | lock | unlock | grow => exact .move (move_of_step hu trivial hsound nofun hs)

theorem pc_unparkOne (key : Key) (fair : Bool) : (s.unparkOne key fair).pc = s.pc := by
  unfold State.unparkOne
  dsimp only
  split <;> rfl

theorem Move.pc_eq (h : Move s s') : ∃ i pc, s'.pc = Function.update s.pc i pc ∧
    ((s.pc i).trying = false → pc.trying = false) := by
  cases h with
  | go i pc _ _ _ ht => exact ⟨i, pc, rfl, fun _ => ht⟩
  | mark | take | wake | receive | unlock | free | slow => exact ⟨_, _, rfl, fun _ => rfl⟩
  | park i key wait _ hw => rw [State.park, if_pos hw]; exact ⟨i, _, rfl, fun _ => rfl⟩
  | unpark i key fair => rw [State.goto, pc_unparkOne]; exact ⟨i, _, rfl, fun _ => rfl⟩
  | grow => exact ⟨0, s.pc 0, (Function.update_eq_self 0 s.pc).symm, id⟩

theorem TryMove.pc_eq (h : TryMove s s') : ∃ i pc, s'.pc = Function.update s.pc i pc := by
  cases h with
  | move h =>
    obtain ⟨i, pc, hpc, -⟩ := h.pc_eq
    exact ⟨i, pc, hpc⟩
  | look i pc => exact ⟨i, pc, rfl⟩
  | seize i => exact ⟨i, _, rfl⟩

theorem Move.trying (h : Move s s') (htry : ∀ i, (s.pc i).trying = false) (j : Tid) :
    (s'.pc j).trying = false := by
  obtain ⟨i, pc, hpc, hi⟩ := h.pc_eq
  rw [hpc, Function.update_apply]
  split
  · exact hi (htry i)
  · exact htry j

/-! ### The queues -/

structure Queued (s : State) : Prop where
  sound : ∀ i, (s.pc i).sound = true
  mem : ∀ b i, i ∈ s.table.queue b → b = s.table.bucket (s.thread i).key ∧
    (s.thread i).futex ≠ 0 ∧ ∃ w, s.pc i = .asleep (s.thread i).key w
  nodup : ∀ b, (s.table.queue b).Nodup
  asleep : ∀ i k w, s.pc i = .asleep k w →
    (s.thread i).key = k ∧ ((s.thread i).futex ≠ 0 → i ∈ s.table.queue (s.table.bucket k))

theorem queued_init : Queued .init where
  sound _ := rfl
  mem _ _ h := nomatch h
  nodup _ := List.nodup_nil
  asleep _ _ _ h := nomatch h

theorem Queued.notMem (hQ : Queued s) (h : (∀ k w, s.pc i ≠ .asleep k w) ∨ (s.thread i).futex = 0)
    (b : Nat) : i ∉ s.table.queue b := by
  intro hi
  obtain ⟨-, hf, w, hw⟩ := hQ.mem b i hi
  rcases h with h | h
  · exact h _ w hw
  · exact hf h

theorem Queued.leave (hQ : Queued s) (hi : ∀ b, i ∉ s.table.queue b) (htab : s'.table = s.table)
    (hth : ∀ j, j ≠ i → s'.thread j = s.thread j) (hpc : ∀ j, j ≠ i → s'.pc j = s.pc j)
    (hs : (s'.pc i).sound = true) (hna : ∀ k w, s'.pc i ≠ .asleep k w) : Queued s' := by
  refine ⟨fun j => ?_, fun b j hj => ?_, fun b => ?_, fun j k w hj => ?_⟩
  · by_cases hji : j = i
    · subst j; exact hs
    · rw [hpc j hji]; exact hQ.sound j
  · rw [htab] at hj
    have hji : j ≠ i := fun h => hi b (h ▸ hj)
    rw [hth j hji, hpc j hji, htab]
    exact hQ.mem b j hj
  · rw [htab]; exact hQ.nodup b
  · have hji : j ≠ i := fun h => hna k w (h ▸ hj)
    rw [hpc j hji] at hj
    rw [hth j hji, htab]
    exact hQ.asleep j k w hj

theorem Queued.park {w : Nat} (hQ : Queued s) (h : s.pc i = .slowPark key w)
    (hw : s.word key = lockedBit ||| parkedBit) : Queued (s.park i key w) := by
  have hi : ∀ b, i ∉ s.table.queue b := hQ.notMem (.inl fun k w' h' => by rw [h] at h'; cases h')
  have hmem : ∀ b j, j ∈ Function.update s.table.queue (s.table.bucket key)
      (s.table.queue (s.table.bucket key) ++ [i]) b →
      (j = i ∧ b = s.table.bucket key) ∨ (j ≠ i ∧ j ∈ s.table.queue b) := by
    intro b j hj
    rcases at_update (P := fun l : List Tid => j ∈ l) hj with ⟨rfl, hj'⟩ | ⟨-, hj'⟩
    · rcases List.mem_append.1 hj' with hj' | hj'
      · exact .inr ⟨fun h => hi _ (h ▸ hj'), hj'⟩
      · exact .inl ⟨List.mem_singleton.1 hj', rfl⟩
    · exact .inr ⟨fun h => hi _ (h ▸ hj'), hj'⟩
  rw [State.park, if_pos hw]
  simp only [State.setThread, State.goto]
  refine ⟨fun j => ?_, fun b j hj => ?_, fun b => ?_, fun j k w' hj => ?_⟩
  · by_cases hji : j = i
    · subst j; simp [Pc.sound]
    · simpa [Function.update_of_ne hji] using hQ.sound j
  · rcases hmem b j hj with ⟨rfl, rfl⟩ | ⟨hji, hj⟩
    · simp
    · simpa [Function.update_of_ne hji] using hQ.mem b j hj
  · by_cases hb : b = s.table.bucket key
    · subst b
      simpa using List.Nodup.concat (hi _) (hQ.nodup (s.table.bucket key))
    · simpa [Function.update_of_ne hb] using hQ.nodup b
  · by_cases hji : j = i
    · subst j
      simp only [Function.update_self, Pc.asleep.injEq] at hj ⊢
      obtain ⟨rfl, -⟩ := hj
      simp
    · simp only [Function.update_of_ne hji] at hj ⊢
      obtain ⟨h1, h2⟩ := hQ.asleep j k w' hj
      refine ⟨h1, fun hf => ?_⟩
      rw [HashTable.setQueue_bucket, HashTable.setQueue_queue, Function.update_apply]
      split
      · rename_i hb
        exact List.mem_append_left _ (hb ▸ h2 hf)
      · exact h2 hf

/-- What `unpark_one` does when it finds a thread: `j` sleeps on `key`, leaves its queue and is woken;
`more` says whether others are left. -/
theorem Queued.unparkOne_cases (hQ : Queued s) (key : Key) (fair : Bool) :
    ((∀ b j, j ∈ s.table.queue b → (s.thread j).key ≠ key) ∧
      s.unparkOne key fair = s.setWord key (unlockCallback (s.word key) ⟨0, false, false⟩).1) ∨
    ∃ j w more rest, s.pc j = .asleep key w ∧ (s.thread j).key = key ∧ (s.thread j).futex ≠ 0 ∧
      List.Perm (s.table.queue (s.table.bucket key)) (j :: rest) ∧
      (more = true ↔ ∃ b k, k ≠ j ∧ k ∈ s.table.queue b ∧ (s.thread k).key = key) ∧
      s.unparkOne key fair =
        ({ s with table := s.table.setQueue (s.table.bucket key) rest }.setThread j
          { s.thread j with
            unparkToken := (unlockCallback (s.word key) ⟨1, more, fair⟩).2, futex := 0 }).setWord key
          (unlockCallback (s.word key) ⟨1, more, fair⟩).1 := by
  cases hscan : scan (fun j => (s.thread j).key == key) (s.table.queue (s.table.bucket key)) with
  | none =>
    refine .inl ⟨fun b j hj hk => ?_, by simp only [State.unparkOne, hscan]⟩
    obtain rfl := hk ▸ (hQ.mem b j hj).1
    simpa [hk] using scan_eq_none hscan j hj
  | some r =>
    obtain ⟨j, more, rest⟩ := r
    obtain ⟨hj, hperm, hmore⟩ := scan_eq_some hscan
    have hjq : j ∈ s.table.queue (s.table.bucket key) := hperm.mem_iff.2 (List.mem_cons_self ..)
    have hkey : (s.thread j).key = key := by simpa using hj
    obtain ⟨-, hf, w, hpc⟩ := hQ.mem _ j hjq
    rw [hkey] at hpc
    have hnd : (j :: rest).Nodup := hperm.nodup_iff.1 (hQ.nodup _)
    refine .inr ⟨j, w, more, rest, hpc, hkey, hf, hperm, ?_, by simp only [State.unparkOne, hscan]⟩
    rw [hmore, List.any_eq_true]
    constructor
    · rintro ⟨k, hk, hkk⟩
      exact ⟨_, k, fun h => (List.nodup_cons.1 hnd).1 (h ▸ hk),
        hperm.mem_iff.2 (List.mem_cons_of_mem _ hk), by simpa using hkk⟩
    · rintro ⟨b, k, hkj, hk, hkk⟩
      obtain rfl := hkk ▸ (hQ.mem b k hk).1
      exact ⟨k, (List.mem_cons.1 (hperm.mem_iff.1 hk)).resolve_left hkj, by simpa using hkk⟩

theorem Queued.setWord (hQ : Queued s) (key : Key) (state : UInt8) : Queued (s.setWord key state) :=
  ⟨hQ.sound, hQ.mem, hQ.nodup, hQ.asleep⟩

theorem Queued.mem_remove {rest : List Tid} {b : Nat} {k : Tid} (hQ : Queued s)
    (hkey : (s.thread j).key = key)
    (hperm : List.Perm (s.table.queue (s.table.bucket key)) (j :: rest))
    (hk : k ∈ Function.update s.table.queue (s.table.bucket key) rest b) :
    k ≠ j ∧ k ∈ s.table.queue b := by
  have hnd : (j :: rest).Nodup := hperm.nodup_iff.1 (hQ.nodup _)
  rcases at_update (P := fun l : List Tid => k ∈ l) hk with ⟨rfl, hk'⟩ | ⟨hb, hk'⟩
  · exact ⟨fun h => (List.nodup_cons.1 hnd).1 (h ▸ hk'), hperm.mem_iff.2 (List.mem_cons_of_mem _ hk')⟩
  · refine ⟨fun h => hb ?_, hk'⟩
    subst k
    rw [(hQ.mem b j hk').1, hkey]

theorem Queued.remove {rest : List Tid} (hQ : Queued s) (hkey : (s.thread j).key = key)
    (hperm : List.Perm (s.table.queue (s.table.bucket key)) (j :: rest)) (token : UnparkToken) :
    Queued ({ s with table := s.table.setQueue (s.table.bucket key) rest }.setThread j
      { s.thread j with unparkToken := token, futex := 0 }) := by
  have hnd : (j :: rest).Nodup := hperm.nodup_iff.1 (hQ.nodup _)
  refine ⟨hQ.sound, fun b k hk => ?_, fun b => ?_, fun k key' w' hk => ?_⟩
  · obtain ⟨hkj, hk'⟩ := hQ.mem_remove hkey hperm hk
    simpa [State.setThread, Function.update_of_ne hkj] using
      hQ.mem b k hk'
  · show (Function.update s.table.queue (s.table.bucket key) rest b).Nodup
    rw [Function.update_apply]
    split
    · exact (List.nodup_cons.1 hnd).2
    · exact hQ.nodup b
  · by_cases hkj : k = j
    · subst k
      simp only [State.setThread, Function.update_self]
      exact ⟨(hQ.asleep j key' w' hk).1, fun h => absurd rfl h⟩
    · simp only [State.setThread, Function.update_of_ne hkj]
      obtain ⟨h1, h2⟩ := hQ.asleep k key' w' hk
      refine ⟨h1, fun hf => ?_⟩
      rw [HashTable.setQueue_bucket, HashTable.setQueue_queue, Function.update_apply]
      split
      · rename_i hb
        exact (List.mem_cons.1 (hperm.mem_iff.1 (hb ▸ h2 hf))).resolve_left hkj
      · exact h2 hf

theorem Queued.grow (hQ : Queued s) (n : Nat) :
    Queued { s with table := s.table.grow (fun i => (s.thread i).key) n } := by
  unfold HashTable.grow
  split
  · exact ⟨hQ.sound, hQ.mem, hQ.nodup, hQ.asleep⟩
  · refine ⟨hQ.sound, fun b i hi => ?_, fun b => ?_, fun i k w hi => ?_⟩
    · obtain ⟨hi, hb⟩ := List.mem_filter.1 hi
      obtain ⟨b', -, hi⟩ := List.mem_flatMap.1 hi
      exact ⟨(of_decide_eq_true hb).symm, (hQ.mem b' i hi).2⟩
    · refine List.Nodup.filter _ (List.nodup_flatMap.2 ⟨fun b' _ => hQ.nodup b', ?_⟩)
      refine List.nodup_range.imp fun {b₁ b₂} hne => ?_
      exact List.disjoint_left.2 fun i h₁ h₂ => hne ((hQ.mem b₁ i h₁).1.trans (hQ.mem b₂ i h₂).1.symm)
    · obtain ⟨rfl, h⟩ := hQ.asleep i k w hi
      refine ⟨rfl, fun hf => List.mem_filter.2 ⟨List.mem_flatMap.2 ⟨_, ?_, h hf⟩, ?_⟩⟩
      · exact List.mem_range.2 (hash_lt _ _)
      · exact decide_eq_true rfl

theorem Queued.move (hQ : Queued s) (h : Move s s') : Queued s' := by
  -- all but three kinds of steps only move a thread that is in no queue
  have leave : ∀ {i : Tid} {t : State}, ((∀ k w, s.pc i ≠ .asleep k w) ∨ (s.thread i).futex = 0) →
      t.table = s.table → (∀ j, j ≠ i → t.thread j = s.thread j) → (∀ j, j ≠ i → t.pc j = s.pc j) →
      (t.pc i).sound = true → (∀ k w, t.pc i ≠ .asleep k w) → Queued t :=
    fun hi htab hth hpc hs hna => hQ.leave (hQ.notMem hi) htab hth hpc hs hna
  cases h with
  | go i pc h hpc hs =>
    refine leave (i := i) (.inl fun k w h' => ?_) rfl (fun _ _ => rfl)
      (fun j hj => Function.update_of_ne hj _ _) ?_ fun k w => ?_
    · rw [h'] at h; cases h
    · simpa [State.goto] using hs
    · intro h'
      simp only [State.goto, Function.update_self] at h'
      rw [h'] at hpc; cases hpc
  | mark i k w h =>
    exact leave (i := i) (.inl (by simp [h])) rfl (fun _ _ => rfl)
      (fun j hj => Function.update_of_ne hj _ _) (by simp [State.goto, Pc.sound]) (by simp [State.goto])
  | take i k st h =>
    refine leave (i := i) (.inl fun k w h' => ?_) rfl (fun j hj => Function.update_of_ne hj _ _)
      (fun j hj => Function.update_of_ne hj _ _) (by simp [State.acquire, State.goto, Pc.sound])
      (by simp [State.acquire, State.goto])
    rw [h'] at h; cases h
  | park i k w h hw => exact hQ.park h hw
  | wake i k w h hf =>
    exact leave (i := i) (.inr hf) rfl (fun _ _ => rfl) (fun j hj => Function.update_of_ne hj _ _)
      (by simp [State.goto, Pc.sound]) (by simp [State.goto])
  | receive i k w h hf =>
    exact leave (i := i) (.inr hf) rfl (fun j hj => Function.update_of_ne hj _ _)
      (fun j hj => Function.update_of_ne hj _ _) (by simp [State.acquire, State.goto, Pc.sound])
      (by simp [State.acquire, State.goto])
  | unlock i k h =>
    exact leave (i := i) (.inl (by simp [h])) rfl (fun j hj => Function.update_of_ne hj _ _)
      (fun j hj => Function.update_of_ne hj _ _) (by simp [State.setThread, State.goto, Pc.sound])
      (by simp [State.setThread, State.goto])
  | free i k h | slow i k h =>
    exact leave (i := i) (.inl (by simp [h])) rfl (fun _ _ => rfl)
      (fun j hj => Function.update_of_ne hj _ _) (by simp [State.goto, Pc.sound]) (by simp [State.goto])
  | unpark i k fair h =>
    have hQ' : Queued (s.unparkOne k fair) ∧ (s.unparkOne k fair).pc = s.pc := by
      rcases hQ.unparkOne_cases k fair with ⟨-, heq⟩ | ⟨j, w, more, rest, -, hkey, -, hperm, -, heq⟩
      · rw [heq]; exact ⟨hQ.setWord _ _, rfl⟩
      · rw [heq]; exact ⟨(hQ.remove hkey hperm _).setWord _ _, rfl⟩
    refine hQ'.1.leave (i := i) (hQ'.1.notMem (.inl ?_)) rfl (fun _ _ => rfl)
      (fun j hj => Function.update_of_ne hj _ _) (by simp [State.goto, Pc.sound]) (by simp [State.goto])
    rw [hQ'.2, h]; simp
  | grow n => exact hQ.grow n

theorem Queued.tryMove (hQ : Queued s) (h : TryMove s s') : Queued s' := by
  cases h with
  | move h => exact hQ.move h
  | look i pc h hpc hs =>
    refine hQ.leave (i := i) (hQ.notMem (.inl fun k w h' => ?_)) rfl (fun _ _ => rfl)
      (fun j hj => Function.update_of_ne hj _ _) (by simpa [State.goto] using hs) fun k w h' => ?_
    · rw [h'] at h; simp [Pc.trying] at h
    · simp only [State.goto, Function.update_self] at h'
      rw [h'] at hpc; simp [Pc.trying] at hpc
  | seize i k h =>
    exact hQ.leave (i := i) (hQ.notMem (.inl (by simp [h]))) rfl (fun j hj => Function.update_of_ne hj _ _)
      (fun j hj => Function.update_of_ne hj _ _) (by simp [State.acquire, State.goto, Pc.sound])
      (by simp [State.acquire, State.goto])

theorem queued_of_run (h : Run step holderUnlocks .init s) : Queued s :=
  h.invariant queued_init fun _ _ _ hQ hu hs => hQ.tryMove (tryMove_of_step hu hQ.sound hs)

end CoQueue.Mutex
