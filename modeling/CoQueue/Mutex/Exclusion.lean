import CoQueue.Lib.Token
import CoQueue.Mutex.Queued

/-!
# Mutual exclusion

Ownership of a mutex is a token (`Token.Held`) that exists exactly while `LOCKED_BIT` is set. A thread
has it from the step that acquires the mutex (a `compare_exchange` that sets the bit, or the unparker's
`TOKEN_HANDOFF`) to the step of `unlock` that gives it up (`owns`). Every step keeps the accounts: the
bit is set by a `compare_exchange` from a word in which it is clear, the plain stores of `unlock_slow`
are made by the owner, and a hand-off moves the token to the thread it wakes up, which the queue says
is asleep on this very mutex.
-/

namespace CoQueue.Mutex

open Schedule Token

variable {s s' : State} {i j : Tid} {key : Key}

/-! ### Ownership -/

/-- The thread is inside `unlock` and has yet to change `state`. -/
def Pc.leaving : Pc → Key → Bool
  | .unlockFast k, key | .unlockSlow k, key => k == key
  | _, _ => false

/-- The thread has been handed the mutex and has yet to return from `lock_slow`. -/
def ThreadData.handed (d : ThreadData) : Pc → Key → Bool
  | .asleep k _, key => k == key && d.futex == 0 && d.unparkToken == tokenHandoff
  | _, _ => false

/-- The thread holds the mutex: it has acquired it, and its `unlock` has not given it up yet. -/
def State.holds (s : State) (i : Tid) (key : Key) : Prop :=
  key ∈ (s.thread i).resources ∨ (s.pc i).leaving key = true

def State.handed (s : State) (i : Tid) (key : Key) : Prop := (s.thread i).handed (s.pc i) key = true

def ThreadData.owns (d : ThreadData) (pc : Pc) (key : Key) : Nat :=
  d.resources.count key + (pc.leaving key).toNat + (d.handed pc key).toNat

def State.owns (s : State) (key : Key) (i : Tid) : Nat := (s.thread i).owns (s.pc i) key

theorem owns_pos : 0 < s.owns key i ↔ s.holds i key ∨ s.handed i key := by
  unfold State.owns ThreadData.owns State.holds State.handed
  cases (s.pc i).leaving key <;> cases (s.thread i).handed (s.pc i) key <;> simp

theorem owns_of_plain {d : ThreadData} {pc : Pc} (h : pc.plain = true) :
    d.owns pc key = d.resources.count key := by
  cases pc <;> first | rfl | cases h

theorem owns_asleep (d : ThreadData) (k key : Key) (w : Nat) : d.owns (.asleep k w) key =
    d.resources.count key + if k = key ∧ d.futex = 0 ∧ d.unparkToken = tokenHandoff then 1 else 0 := by
  simp only [ThreadData.owns, Pc.leaving, ThreadData.handed, Bool.toNat_false, Nat.add_zero]
  by_cases h : k = key ∧ d.futex = 0 ∧ d.unparkToken = tokenHandoff
  · simp [h]
  · rw [if_neg h, show (k == key && d.futex == 0 && d.unparkToken == tokenHandoff) = false by
      simpa [and_assoc] using h]
    rfl

theorem owns_acquire (d : ThreadData) (k key : Key) :
    (d.acquireResource k).owns .idle key = d.resources.count key + if k = key then 1 else 0 := by
  rw [owns_of_plain rfl, ThreadData.acquireResource, List.count_append, List.count_singleton]
  simp only [beq_iff_eq]

theorem owns_unlockFast {d : ThreadData} {k : Key} (hk : k ∈ d.resources) (key : Key) :
    (d.releaseResource k).owns (.unlockFast k) key = d.resources.count key := by
  rw [(d.releaseResource_perm hk).count_eq, List.count_cons]
  simp only [ThreadData.owns, Pc.leaving, ThreadData.handed]
  by_cases h : k = key <;> simp [h]

/-! ### Every step keeps the accounts -/

/-- The owner of each mutex is unique, and there is one exactly while `LOCKED_BIT` is set. -/
def Accounts (s : State) : Prop := ∀ key, Held (locked (s.word key)) (s.owns key)

theorem accounts_init : Accounts .init := by
  intro key
  have hw : locked (State.init.word key) = false := show locked 0 = false by decide
  exact ⟨none, hw, fun _ => rfl⟩

theorem owns_congr (hth : s'.thread i = s.thread i) (hpc : s'.pc i = s.pc i) :
    s'.owns key i = s.owns key i := by
  unfold State.owns; rw [hth, hpc]

/-- The thread gives the mutex up, or hands it over. -/
def GivesUp (s : State) (i : Tid) (key : Key) (s' : State) : Prop :=
  (s.pc i = .unlockFast key ∧ s.word key = lockedBit ∧ s' = (s.setWord key 0).goto i .idle) ∨
    ∃ fair, s.pc i = .unlockSlow key ∧ s' = (s.unparkOne key fair).goto i .idle

/-- What a step does to the owners of the mutexes and to `LOCKED_BIT`. -/
inductive Deal (s s' : State) : Prop
  | keep (hw : ∀ k, locked (s'.word k) = locked (s.word k)) (ho : ∀ k j, s'.owns k j = s.owns k j)
  | take (i : Tid) (key : Key) (hw : ∀ k, k ≠ key → s'.word k = s.word k)
      (hfree : locked (s.word key) = false) (hset : locked (s'.word key) = true)
      (ho : ∀ k j, s'.owns k j = s.owns k j + if j = i ∧ k = key then 1 else 0)
  | release (i : Tid) (key : Key) (hr : GivesUp s i key s') (hw : ∀ k, k ≠ key → s'.word k = s.word k)
      (hfree : locked (s'.word key) = false)
      (ho : ∀ k j, s.owns k j = s'.owns k j + if j = i ∧ k = key then 1 else 0)
  /-- Thread `i` hands the mutex to thread `j`. -/
  | pass (i j : Tid) (key : Key) (hji : j ≠ i) (hw : ∀ k, k ≠ key → s'.word k = s.word k)
      (hset : locked (s.word key) = true → locked (s'.word key) = true)
      (ho : ∀ k l, s'.owns k l + (if l = i ∧ k = key then 1 else 0) =
        s.owns k l + if l = j ∧ k = key then 1 else 0)

theorem owns_of_mover {t : State} {d : Key → Nat} (hth : ∀ j, j ≠ i → t.thread j = s.thread j)
    (hpc : ∀ j, j ≠ i → t.pc j = s.pc j) (hi : ∀ k, t.owns k i = s.owns k i + d k) (k : Key) (j : Tid) :
    t.owns k j = s.owns k j + if j = i then d k else 0 := by
  by_cases hj : j = i
  · subst j; rw [hi, if_pos rfl]
  · rw [owns_congr (hth j hj) (hpc j hj), if_neg hj]; rfl

theorem Deal.of_mover (hw : ∀ k, locked (s'.word k) = locked (s.word k))
    (hth : ∀ j, j ≠ i → s'.thread j = s.thread j) (hpc : ∀ j, j ≠ i → s'.pc j = s.pc j)
    (hi : ∀ k, s'.owns k i = s.owns k i) : Deal s s' := by
  refine .keep hw fun k j => ?_
  rw [owns_of_mover (d := fun _ => 0) hth hpc hi k j]
  split <;> rfl

theorem owns_take {state : UInt8} (hpc : (s.pc i).plain = true) (k : Key) (j : Tid) :
    ((s.setWord key state).acquire i key).owns k j = s.owns k j + if j = i ∧ k = key then 1 else 0 := by
  rw [owns_of_mover (s := s) (i := i) (d := fun k => if key = k then 1 else 0)
    (fun j hj => Function.update_of_ne hj _ _) (fun j hj => Function.update_of_ne hj _ _) ?_ k j]
  · simp only [ite_and, eq_comm (a := k)]
  · intro k
    simp only [State.owns, State.acquire, State.setThread, State.goto, Function.update_self]
    rw [owns_acquire, owns_of_plain hpc]; rfl

theorem owns_release (w : UInt8) (hpc : (s.pc i).leaving key = true) (k : Key) (j : Tid) :
    s.owns k j = ((s.setWord key w).goto i .idle).owns k j + if j = i ∧ k = key then 1 else 0 := by
  rw [owns_of_mover (s := (s.setWord key w).goto i .idle) (t := s) (i := i)
    (d := fun k => if key = k then 1 else 0) (fun _ _ => rfl)
    (fun j hj => (Function.update_of_ne hj _ _).symm) ?_ k j]
  · simp only [ite_and, eq_comm (a := k)]
  · intro k
    have hidle : (s.thread i).owns .idle k = (s.thread i).resources.count k := owns_of_plain rfl
    simp only [State.owns, State.goto, State.setWord, Function.update_self]
    rw [hidle]
    cases hpci : s.pc i <;> rw [hpci] at hpc <;> simp only [Pc.leaving, reduceCtorEq] at hpc
    case unlockFast k' | unlockSlow k' =>
      obtain rfl := beq_iff_eq.1 hpc
      simp only [ThreadData.owns, Pc.leaving, ThreadData.handed]
      by_cases hk : k' = k <;> simp [hk]

theorem owns_wake {t : State} {w : Nat} {token : UnparkToken} (hj : s.pc j = .asleep key w)
    (hf : (s.thread j).futex ≠ 0) (hpc : t.pc = s.pc)
    (hth : t.thread = Function.update s.thread j { s.thread j with unparkToken := token, futex := 0 })
    (k : Key) (l : Tid) :
    t.owns k l = s.owns k l + if l = j ∧ k = key ∧ token = tokenHandoff then 1 else 0 := by
  rw [owns_of_mover (s := s) (i := j) (d := fun k => if key = k ∧ token = tokenHandoff then 1 else 0)
    (fun l hl => by rw [hth, Function.update_of_ne hl]) (fun _ _ => by rw [hpc]) ?_ k l]
  · simp only [ite_and, eq_comm (a := k)]
  · intro k
    simp only [State.owns, hth, hpc, hj, Function.update_self, owns_asleep]
    simp [hf]

/-- `unpark_one` hands the mutex to the thread it wakes up, or the mutex is free afterwards. -/
theorem Deal.unpark (hQ : Queued s) (hpc : s.pc i = .unlockSlow key) (fair : Bool) :
    Deal s ((s.unparkOne key fair).goto i .idle) := by
  have hleave : (s.pc i).leaving key = true := by rw [hpc]; exact beq_self_eq_true key
  have hr : GivesUp s i key ((s.unparkOne key fair).goto i .idle) := .inr ⟨fair, hpc, rfl⟩
  rcases hQ.unparkOne_cases key fair with ⟨-, heq⟩ | ⟨j, w, more, rest, hj, -, hf, -, -, heq⟩
  · rw [heq] at hr ⊢
    exact .release i key hr (fun k hk => Function.update_of_ne hk _ _)
      (by simp only [State.goto, State.setWord, Function.update_self]; exact (by decide : locked 0 = false))
      (owns_release _ hleave)
  · have hji : j ≠ i := by rintro rfl; rw [hpc] at hj; cases hj
    -- first thread `i` gives the mutex up, then thread `j` is woken
    have hgive := owns_release 0 hleave
    have hmid : ((s.setWord key 0).goto i .idle).pc j = .asleep key w := (Function.update_of_ne hji _ _).trans hj
    have hwake := fun token word table => owns_wake (t := ⟨word, table,
      Function.update s.thread j { s.thread j with unparkToken := token, futex := 0 },
      Function.update s.pc i .idle⟩) hmid hf rfl rfl
    rw [heq] at hr ⊢
    cases fair with
    | false =>
      rw [unlockCallback_unfair] at hr ⊢
      refine .release i key hr (fun k hk => Function.update_of_ne hk _ _) ?_ fun k l => ?_
      · simp only [State.goto, State.setWord, State.setThread, Function.update_self]
        cases more <;> decide
      · rw [hgive k l]
        exact congrArg (· + _) ((hwake tokenNormal _ _ k l).trans (by simp [tokenNormal, tokenHandoff])).symm
    | true =>
      rw [unlockCallback_fair]
      refine .pass i j key hji (fun k hk => Function.update_of_ne hk _ _) (fun hl => ?_) fun k l => ?_
      · simp only [State.goto, State.setWord, State.setThread, Function.update_self]
        cases more
        · exact (by decide : locked lockedBit = true)
        · exact hl
      · rw [hgive k l, Nat.add_right_comm]
        exact congrArg (· + _) ((hwake tokenHandoff _ _ k l).trans (by simp))

theorem Move.deal (hQ : Queued s) (h : Move s s') : Deal s s' := by
  cases h with
  | go i pc h hpc =>
    refine .of_mover (i := i) (fun _ => rfl) (fun _ _ => rfl) (fun j hj => Function.update_of_ne hj _ _)
      fun key => ?_
    simp only [State.owns, State.goto, Function.update_self, owns_of_plain h, owns_of_plain hpc]
  | mark i k w h =>
    refine .of_mover (i := i) (fun key => ?_) (fun _ _ => rfl)
      (fun j hj => Function.update_of_ne hj _ _) fun key => ?_
    · simp only [State.goto, State.setWord, Function.update_apply]
      split
      · subst k; exact locked_or_parkedBit _
      · rfl
    · simp only [State.owns, State.goto, State.setWord, Function.update_self, h]
      rfl
  | take i k st h hw hs =>
    refine .take i k (fun k hk => Function.update_of_ne hk _ _) hw ?_ (owns_take h)
    simpa [State.acquire, State.setThread, State.goto, State.setWord] using hs
  | park i k w h hw =>
    rw [State.park, if_pos hw]
    refine .of_mover (i := i) (fun _ => rfl) (fun j hj => Function.update_of_ne hj _ _)
      (fun j hj => Function.update_of_ne hj _ _) fun key => ?_
    simp only [State.owns, State.goto, State.setThread, Function.update_self, h]
    rw [owns_asleep, owns_of_plain rfl]
    simp
  | wake i k w h hf ht =>
    refine .of_mover (i := i) (fun _ => rfl) (fun _ _ => rfl)
      (fun j hj => Function.update_of_ne hj _ _) fun key => ?_
    simp only [State.owns, State.goto, Function.update_self, h]
    rw [owns_asleep, owns_of_plain rfl]
    simp [ht]
  | receive i k w h hf ht =>
    refine .of_mover (i := i) (fun _ => rfl) (fun j hj => Function.update_of_ne hj _ _)
      (fun j hj => Function.update_of_ne hj _ _) fun key => ?_
    simp only [State.owns, State.acquire, State.goto, State.setThread, Function.update_self, h]
    rw [owns_acquire, owns_asleep]
    simp [hf, ht]
  | unlock i k h hk =>
    refine .of_mover (i := i) (fun _ => rfl) (fun j hj => Function.update_of_ne hj _ _)
      (fun j hj => Function.update_of_ne hj _ _) fun key => ?_
    simp only [State.owns, State.goto, State.setThread, Function.update_self, h]
    rw [owns_unlockFast hk, owns_of_plain rfl]
  | free i k h hw =>
    refine .release i k (.inl ⟨h, hw, rfl⟩) (fun k hk => Function.update_of_ne hk _ _) ?_
      (owns_release 0 (by rw [h]; exact beq_self_eq_true k))
    simp only [State.goto, State.setWord, Function.update_self]
    decide
  | slow i k h =>
    refine .of_mover (i := i) (fun _ => rfl) (fun _ _ => rfl)
      (fun j hj => Function.update_of_ne hj _ _) fun key => ?_
    simp only [State.owns, State.goto, Function.update_self, h]
    rfl
  | unpark i k fair h => exact .unpark hQ h fair
  | grow n => exact .keep (fun _ => rfl) fun _ _ => rfl

theorem Accounts.deal (hA : Accounts s) (h : Deal s s') : Accounts s' := by
  intro k
  cases h with
  | keep hw ho =>
    rw [hw]
    exact (hA k).congr (ho k)
  | take i key hw hfree hset ho =>
    by_cases hk : k = key
    · subst k
      have hfree : Held false (s.owns key) := hfree ▸ hA key
      rw [hset]
      exact hfree.take (i := i) (by simp [ho]) fun j hj => by simp [ho, hj]
    · rw [hw k hk]
      exact (hA k).congr fun j => by simp [ho, hk]
  | release i key _ hw hfree ho =>
    by_cases hk : k = key
    · subst k
      rw [hfree]
      exact (hA key).drop (i := i) (by simp [ho]) fun j hj => by simp [ho, hj]
    · rw [hw k hk]
      exact (hA k).congr fun j => by simp [ho, hk]
  | pass i j key hji hw hset ho =>
    by_cases hk : k = key
    · subst k
      have hi := ho key i
      have hj := ho key j
      simp only [and_true, hji, Ne.symm hji, if_true, if_false] at hi hj
      have hl : locked (s.word key) = true := (hA key).set_of_pos (i := i) (by omega)
      rw [hset hl, ← hl]
      refine (hA key).pass hji hi.symm hj fun l hli hlj => ?_
      simpa [hli, hlj] using ho key l
    · rw [hw k hk]
      exact (hA k).congr fun l => by simpa [hk] using ho k l

/-- Nobody is inside `try_lock`, and the accounts are right. -/
structure Owned (s : State) : Prop where
  calls : ∀ i, (s.pc i).trying = false
  held : Accounts s

theorem owned_init : Owned .init := ⟨fun _ => rfl, accounts_init⟩

theorem Owned.move (hQ : Queued s) (hO : Owned s) (h : Move s s') : Owned s' :=
  ⟨h.trying hO.calls, hO.held.deal (h.deal hQ)⟩

theorem Owned.move_of_step {a : Act} (hQ : Queued s) (hO : Owned s) (hu : holderUnlocks s a) (ha : noTry a)
    (hs : step s a = some s') : Move s s' :=
  Mutex.move_of_step hu ha hQ.sound (fun i _ _ _ => hO.calls i) hs

theorem owned_of_run (h : Run step (fun s a => holderUnlocks s a ∧ noTry a) .init s) :
    Queued s ∧ Owned s := by
  refine h.invariant (P := fun s => Queued s ∧ Owned s) ⟨queued_init, owned_init⟩ ?_
  intro t a u ⟨hQ, hO⟩ ⟨hu, ha⟩ hs
  have hm := hO.move_of_step hQ hu ha hs
  exact ⟨hQ.move hm, hO.move hQ hm⟩

structure Exclusive (s : State) : Prop where
  one : ∀ i j key, s.holds i key → s.holds j key → i = j
  bit : ∀ key, locked (s.word key) = true ↔ ∃ i, s.holds i key ∨ s.handed i key

/-- At most one thread holds a mutex, and `LOCKED_BIT` tells whether one does or has been handed it. -/
theorem exclusive_of_run (h : Run step (fun s a => holderUnlocks s a ∧ noTry a) .init s) :
    Exclusive s := by
  obtain ⟨-, hO⟩ := owned_of_run h
  refine ⟨fun i j key hi hj => ?_, fun key => ?_⟩
  · exact (hO.held key).unique (owns_pos.2 (.inl hi)) (owns_pos.2 (.inl hj))
  · exact (hO.held key).iff_pos.trans (exists_congr fun i => owns_pos)

/-- Thread 1 waits for the mutex at address 8, which thread 0 holds, and is handed it. -/
def handoffSchedule : List Act :=
  [Act.lock 0 8, Act.run 0 false false, Act.lock 1 8] ++ List.replicate 14 (Act.run 1 false false) ++
    [Act.unlock 0 8, Act.run 0 false false, Act.run 0 false true]

theorem handoff_exclusive :
    ∃ s, Run step (fun s a => holderUnlocks s a ∧ noTry a) .init s ∧ s.handed 1 8 ∧
      locked (s.word 8) = true ∧ Exclusive s := by
  have hexec : (exec step (fun s a => holderUnlocks s a ∧ noTry a) .init handoffSchedule).map
      (fun s => ((s.thread 1).handed (s.pc 1) 8, locked (s.word 8))) = some (true, true) := by
    decide +kernel
  obtain ⟨s, hrun, hs⟩ := Run.of_exec_map hexec
  rw [Prod.mk.injEq] at hs
  exact ⟨s, hrun, hs.1, hs.2, exclusive_of_run hrun⟩

end CoQueue.Mutex
