import CoQueue.Mutex.Queued

/-!
# `try_lock` excludes nobody

`try_lock` returns `true` after a `compare_exchange` from an unlocked word, but the bit that it sets is
`PARKED_BIT`. `LOCKED_BIT` stays clear, so every other path to the mutex is open: a thread that calls
`lock` finds a word that is not `0`, goes through `lock_slow`, sees `LOCKED_BIT` clear and barges in.
-/

namespace CoQueue.Mutex

open Schedule

variable {s t : State} {i j : Tid} {key : Key} {state : UInt8}

/-- In this step `lock` or `try_lock` of thread `i` acquires the mutex. -/
def Acquires (s : State) (i : Tid) (key : Key) (t : State) : Prop :=
  (∃ spurious fair, step s (.run i spurious fair) = some t) ∧
    t.thread i = (s.thread i).acquireResource key

/-- Until thread `i` unlocks the mutex, nobody else acquires it. -/
def Excludes (t : State) (i : Tid) (key : Key) : Prop :=
  ∀ u v j, Run step (fun s a => holderUnlocks s a ∧ a ≠ .unlock i key) t u → j ≠ i →
    ¬ Acquires u j key v

/-- A thread whose `compare_exchange_weak` on the fast path of `lock` fails barges in through `lock_slow`. -/
theorem lock_of_unlocked (hj : t.pc j = .idle) (hw : locked (t.word key) = false) :
    ∃ u v, Run step (fun _ a => a = .lock j key ∨ ∃ spurious, a = .run j spurious false) t u ∧
      u.pc j = .slowBarge key 0 (t.word key) ∧ step u (.run j false false) = some v ∧
      v.pc j = .idle ∧ v.thread j = (u.thread j).acquireResource key := by
  have h1 : step t (.lock j key) = some (t.goto j (.lockFast key)) := if_pos hj
  have h2 : step (t.goto j (.lockFast key)) (.run j true false) = some (t.goto j (.slowLoad key 0)) := by
    simp [step, State.goto, stepPc]
  have h3 : step (t.goto j (.slowLoad key 0)) (.run j false false) =
      some (t.goto j (.slowBarge key 0 (t.word key))) := by
    simp [step, State.goto, stepPc, slowLoop, hw]
  have h4 : step (t.goto j (.slowBarge key 0 (t.word key))) (.run j false false) =
      some (((t.goto j (.slowBarge key 0 (t.word key))).setWord key (t.word key ||| lockedBit)).acquire
        j key) := by
    simp [step, State.goto, stepPc]
  refine ⟨_, _, ?_, Function.update_self .., h4, Function.update_self .., Function.update_self ..⟩
  exact ((Run.single (.inl rfl) h1).tail (.inr ⟨true, rfl⟩) h2).tail (.inr ⟨false, rfl⟩) h3

theorem not_excludes (hj : t.pc j = .idle) (hji : j ≠ i) (hw : locked (t.word key) = false) :
    ¬ Excludes t i key := by
  intro h
  obtain ⟨u, v, hrun, -, hs, -, hv⟩ := lock_of_unlocked hj hw
  refine h u v j (hrun.mono fun _ a ha => ?_) hji ⟨⟨false, false, hs⟩, hv⟩
  rcases ha with rfl | ⟨spurious, rfl⟩ <;> exact ⟨trivial, by simp⟩

theorem ne_of_max_le {n i j : Nat} (h : max n (i + 1) ≤ j) : j ≠ i := by omega

theorem idle_of_run (h : Run step holderUnlocks .init s) : ∃ n, ∀ j, n ≤ j → s.pc j = .idle := by
  have hall : Queued s ∧ ∃ n, ∀ j, n ≤ j → s.pc j = .idle := by
    refine h.invariant (P := fun s => Queued s ∧ ∃ n, ∀ j, n ≤ j → s.pc j = .idle)
      ⟨queued_init, 0, fun _ _ => rfl⟩ ?_
    intro t a u ⟨hQ, n, hn⟩ hu hs
    have hm := tryMove_of_step hu hQ.sound hs
    obtain ⟨i, pc, hpc⟩ := hm.pc_eq
    refine ⟨hQ.tryMove hm, max n (i + 1), fun j hj => ?_⟩
    rw [hpc, Function.update_of_ne (ne_of_max_le hj)]
    exact hn j (Nat.le_trans (Nat.le_max_left ..) hj)
  exact hall.2

/-- A `try_lock` that returns `true` never excludes the other threads. -/
theorem try_lock_never_excludes {spurious fair : Bool} (h : Run step holderUnlocks .init s)
    (hpc : s.pc i = .tryMark key state) (hs : step s (.run i spurious fair) = some t)
    (ht : t.thread i = (s.thread i).acquireResource key) : ¬ Excludes t i key := by
  obtain ⟨n, hn⟩ := idle_of_run h
  have hstate := (queued_of_run h).sound i
  rw [hpc] at hstate
  simp only [step, hpc, stepPc] at hs
  split at hs <;> cases hs
  · refine not_excludes (j := max n (i + 1)) ?_ (ne_of_max_le (Nat.le_refl _)) ?_
    · show Function.update s.pc i .idle (max n (i + 1)) = .idle
      rw [Function.update_of_ne (ne_of_max_le (Nat.le_refl _))]
      exact hn _ (Nat.le_max_left ..)
    · simpa [State.acquire, State.setThread, State.setWord, State.goto, Pc.sound] using hstate
  · -- the `compare_exchange` failed, and nothing was acquired
    have hlen := congrArg (fun d => d.resources.length) ht
    simp [State.goto, ThreadData.acquireResource] at hlen

/-- Thread 0 is about to mark the mutex at address 8, which nobody has used yet. -/
def trySchedule : List Act := [.tryLock 0 8, .run 0 false false]

theorem fresh_try_lock_not_excludes :
    ∃ s t, Run step holderUnlocks .init s ∧ s.pc 0 = .tryMark 8 0 ∧ Acquires s 0 8 t ∧
      ¬ Excludes t 0 8 := by
  have hexec : (exec step holderUnlocks .init trySchedule).map
      (fun s => (s.pc 0, s.word 8)) = some (.tryMark 8 0, 0) := by decide
  obtain ⟨s, hrun, hobs⟩ := Run.of_exec_map hexec
  rw [Prod.mk.injEq] at hobs
  have hs : step s (.run 0 false false) = some ((s.setWord 8 (0 ||| parkedBit)).acquire 0 8) := by
    simp [step, hobs.1, stepPc, hobs.2]
  have ht : ((s.setWord 8 (0 ||| parkedBit)).acquire 0 8).thread 0 = (s.thread 0).acquireResource 8 := by
    simp [State.acquire, State.setThread, State.setWord, State.goto]
  exact ⟨s, _, hrun, hobs.1, ⟨⟨false, false, hs⟩, ht⟩, try_lock_never_excludes hrun hobs.1 hs ht⟩

theorem try_lock_lets_others_in :
    ¬ ∀ (s t : State) (i : Tid) (key : Key) (state : UInt8), Run step holderUnlocks .init s →
      s.pc i = .tryMark key state → Acquires s i key t → Excludes t i key := by
  intro h
  have hexec : (exec step holderUnlocks .init trySchedule).map
      (fun s => (s.pc 0, s.pc 1, s.word 8)) = some (.tryMark 8 0, .idle, 0) := by decide
  obtain ⟨s, hrun, hobs⟩ := Run.of_exec_map hexec
  simp only [Prod.mk.injEq] at hobs
  obtain ⟨h0, h1, hw⟩ := hobs
  have hs : step s (.run 0 false false) = some ((s.setWord 8 (0 ||| parkedBit)).acquire 0 8) := by
    simp [step, h0, stepPc, hw]
  refine not_excludes (j := 1) ?_ (by decide) ?_
    (h s _ 0 8 0 hrun h0 ⟨⟨false, false, hs⟩, by
      simp [State.acquire, State.setThread, State.setWord, State.goto]⟩)
  · simpa [State.acquire, State.setThread, State.setWord, State.goto] using h1
  · simp only [State.acquire, State.setThread, State.setWord, State.goto, Function.update_self]
    decide

end CoQueue.Mutex
