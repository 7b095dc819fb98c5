import CoQueue.Mutex.LotFair
import CoQueue.Mutex.LotSafety
import CoQueue.Mutex.Wakeup
import CoQueue.Mutex.WholeRefines

/-!
# The mutex on the parking lot

What holds of `RawMutex` in every run holds of the mutex on the code of the parking lot: mutual exclusion without
`try_lock`, and that no wake-up is lost, with it or without. With the progress of the parking lot it follows that threads wait
for a mutex only as long as somebody has to unlock it. Threads that lock the mutex again and again cannot keep it
from those that wait, since an `unlock_slow` a millisecond later hands it over.
-/

namespace CoQueue.Mutex.Whole

open Schedule Token
open Lot (Choice Spec Timely)

variable {s : State} {a : Mutex.State} {Q : Spec} {i j : Tid} {key : Key} {wait : Nat}

/-- The thread has acquired the mutex, and its `unlock` has not given it up yet. -/
def State.holds (s : State) (i : Tid) (key : Key) : Prop :=
  key ∈ s.resources i ∨ (s.pc i).leaving key = true

/-- The thread has been passed the mutex, and has yet to return from `lock_slow`. -/
def State.handed (s : State) (i : Tid) (key : Key) : Prop :=
  (∃ wait, s.pc i = .asleep key wait) ∧ (s.lot.mem.node i).futex = 0 ∧
    (s.lot.mem.node i).unparkToken = tokenHandoff

/-- The thread sleeps, or is about to, and has not been woken up. -/
def State.waits (s : State) (i : Tid) (key : Key) : Prop :=
  (∃ wait, s.pc i = .asleep key wait) ∧ (s.lot.mem.node i).futex ≠ 0

/-- The thread is inside of `lock_slow` and is up, or has been woken up. -/
def State.onWay (s : State) (i : Tid) (key : Key) : Prop :=
  (s.pc i).inSlow key = true ∨ ∃ wait, s.pc i = .asleep key wait ∧ (s.lot.mem.node i).futex = 0

/-! ### What the relation says -/

theorem Sim.futex_iff (h : Sim s a Q) (hi : s.pc i = .asleep key wait) (token : UnparkToken) :
    ((a.thread i).futex = 0 ∧ (a.thread i).unparkToken = token) ↔
      (s.lot.mem.node i).futex = 0 ∧ (s.lot.mem.node i).unparkToken = token := by
  have hs : sleeping (s.pc i) = true := by rw [hi]; rfl
  have h₁ := h.token i token
  have h₂ := h.lot.token i token
  rw [hs] at h₁
  rw [(h.fits i).sleeping_iff.1 hs] at h₂
  exact (and_iff_right rfl).symm.trans (h₁.symm.trans (h₂.trans (and_iff_right rfl)))

theorem Sim.futex_zero (h : Sim s a Q) (hi : s.pc i = .asleep key wait) :
    (a.thread i).futex = 0 ↔ (s.lot.mem.node i).futex = 0 :=
  ⟨fun hf => ((h.futex_iff hi _).1 ⟨hf, rfl⟩).1, fun hf => ((h.futex_iff hi _).2 ⟨hf, rfl⟩).1⟩

theorem Sim.holds_iff (h : Sim s a Q) : a.holds i key ↔ s.holds i key := by
  unfold State.holds Mutex.State.holds
  rw [h.resources, h.pc]

theorem Sim.handed_iff (h : Sim s a Q) : a.handed i key ↔ s.handed i key := by
  unfold State.handed Mutex.State.handed
  rw [h.pc]
  cases hi : s.pc i with
  | asleep k wait =>
    simp only [ThreadData.handed, Bool.and_eq_true, beq_iff_eq, and_assoc, Pc.asleep.injEq]
    rw [h.futex_iff hi]
    refine and_congr_left fun _ => ⟨fun hk => ⟨wait, hk, rfl⟩, ?_⟩
    rintro ⟨_, hk, -⟩
    exact hk
  | _ => exact iff_of_false (by rintro ⟨⟩) (by rintro ⟨⟨_, ⟨⟩⟩, -⟩)

theorem Sim.waits_of (h : Sim s a Q) (hQ : Queued a) (hi : s.waits i key) : a.waits i key := by
  obtain ⟨⟨wait, hpc⟩, hf⟩ := hi
  obtain ⟨hkey, hmem⟩ := hQ.asleep i key wait (by rw [h.pc]; exact hpc)
  exact ⟨⟨_, hmem ((h.futex_zero hpc).not.2 hf)⟩, hkey⟩

theorem Sim.onWay_iff (h : Sim s a Q) : a.onWay i key ↔ s.onWay i key := by
  unfold State.onWay Mutex.State.onWay
  rw [h.pc]
  exact or_congr_right (exists_congr fun wait => and_congr_right fun hpc => h.futex_zero hpc)

/-- What is the same in the mutex on the parking lot and in `RawMutex`. A thread that sleeps has the same token once
it is woken up, and the queues of the keys are the same wherever no queues are being moved. -/
structure Agrees (s : State) (a : Mutex.State) : Prop where
  word : a.word = s.word
  pc : a.pc = s.pc
  resources : ∀ i, (a.thread i).resources = s.resources i
  token : ∀ i key wait, s.pc i = .asleep key wait → ∀ token,
    ((a.thread i).futex = 0 ∧ (a.thread i).unparkToken = token) ↔
      (s.lot.mem.node i).futex = 0 ∧ (s.lot.mem.node i).unparkToken = token
  queue : ∀ t bits, s.lot.hashtable = some t → s.lot.table t = some bits →
    (∀ i new c, s.lot.pc i ≠ .growMove t new c) → ∀ key, ∃ q, s.lot.mem.Queue (t, hash key bits) q ∧
      (q.filter fun i => (s.lot.mem.node i).key = key) =
        (a.table.queue (a.table.bucket key)).filter fun i => (a.thread i).key = key

/-- `D` may ask of a step of `RawMutex` what `C` asks of the step that it stands for. -/
theorem sim_of_run {C : State → Act → Prop} {D : Mutex.State → Mutex.Act → Prop}
    (hC : ∀ s act, C s act → endsFree s act)
    (hD : ∀ s act a b, C s act → (holderUnlocks s act → Mutex.holderUnlocks a b) →
      (noTry act → Mutex.noTry b) → D a b)
    (h : Run step C .init s) : ∃ a, Run Mutex.step D .init a ∧ ∃ Q, Sim s a Q := by
  refine h.simulate (R := fun s a => ∃ Q, Sim s a Q) ⟨.empty, .init⟩ fun s act s' a ⟨Q, hsim⟩ hu hs => ?_
  rcases hsim.step (hC s act hu) hs with hsim' | ⟨b, a', Q', ⟨hb, hb'⟩, ha, hsim'⟩
  · exact .inl ⟨Q, hsim'⟩
  · exact .inr ⟨b, a', hD s act a b hu hb hb', ha, Q', hsim'⟩

/-- Every run of the mutex on the parking lot is one of `RawMutex`, as long as nobody ends with a mutex. -/
theorem whole_refines (h : Run step endsFree .init s) : ∃ a, Run Mutex.step Any .init a ∧ Agrees s a := by
  obtain ⟨a, hrun, Q, hsim⟩ := sim_of_run (D := Any) (fun _ _ => id) (fun _ _ _ _ _ _ _ => trivial) h
  refine ⟨a, hrun, hsim.word, hsim.pc, hsim.resources, fun i key wait hi => hsim.futex_iff hi, ?_⟩
  intro t bits ht hb hno key
  obtain ⟨q, hq, hfilter⟩ := hsim.lot.settled ht hb hno key
  exact ⟨q, hq, hfilter.trans (hsim.files.queue key)⟩

/-- Thread 0 locks the mutex at the address 8. Thread 1 waits for it; `k` are the steps it has made in `lock`. Then
thread 0 unlocks and makes `l` steps at the time `now`. -/
def handover (k l now : Nat) : List Act :=
  let run (i : Tid) (n now : Nat) : List Act := List.replicate n (.run i false ⟨i, now, true, fun _ => 7, false, 2⟩)
  [.lock 0 8] ++ run 0 4 1 ++ [.lock 1 8] ++ run 1 k 1 ++ [.unlock 0 8] ++ run 0 l now

/-- Thread 1 has been passed the mutex. -/
theorem whole_refines_handover : ∃ s a, Run step endsFree .init s ∧ s.word 8 = 1 ∧
    Run Mutex.step Any .init a ∧ Agrees s a := by
  obtain ⟨s, h, hw⟩ : ∃ s, Run step holderUnlocks .init s ∧ s.word 8 = 1 :=
    Run.of_exec_map (f := fun s : State => s.word 8) (l := handover 22 7 5) (by decide +kernel)
  have hends := h.mono fun _ _ => endsFree_of_holder
  obtain ⟨a, ha, hagrees⟩ := whole_refines hends
  exact ⟨s, a, hends, hw, ha, hagrees⟩

/-! ### Mutual exclusion and wake-ups -/

theorem owned_of_run (h : Run step (fun s act => holderUnlocks s act ∧ noTry act) .init s) :
    ∃ a Q, Sim s a Q ∧ Queued a ∧ Owned a := by
  obtain ⟨a, hrun, Q, hsim⟩ := sim_of_run (D := fun a b => Mutex.holderUnlocks a b ∧ Mutex.noTry b)
    (fun _ _ hC => endsFree_of_holder hC.1) (fun _ _ _ _ hC hu htry => ⟨hu hC.1, htry hC.2⟩) h
  exact ⟨a, Q, hsim, Mutex.owned_of_run hrun⟩

theorem woken_of_run (h : Run step holderUnlocks .init s) : ∃ a Q, Sim s a Q ∧ Queued a ∧ Woken a := by
  obtain ⟨a, hrun, Q, hsim⟩ := sim_of_run (D := Mutex.holderUnlocks) (fun _ _ => endsFree_of_holder)
    (fun _ _ _ _ hC hu _ => hu hC) h
  obtain ⟨hQ, -, hW⟩ := Mutex.woken_of_run hrun
  exact ⟨a, Q, hsim, hQ, hW⟩

/-- At most one thread holds a mutex, and `LOCKED_BIT` tells whether one does or has been passed it. -/
theorem whole_exclusive (h : Run step (fun s act => holderUnlocks s act ∧ noTry act) .init s) :
    (∀ i j key, s.holds i key → s.holds j key → i = j) ∧
      ∀ key, locked (s.word key) = true ↔ ∃ i, s.holds i key ∨ s.handed i key := by
  obtain ⟨a, Q, hsim, -, hO⟩ := owned_of_run h
  constructor
  · intro i j key hi hj
    rw [← hsim.holds_iff] at hi hj
    exact (hO.held key).unique (owns_pos.2 (.inl hi)) (owns_pos.2 (.inl hj))
  · intro key
    rw [← hsim.word, (hO.held key).iff_pos]
    refine exists_congr fun i => ?_
    rw [owns_pos, hsim.holds_iff, hsim.handed_iff]

theorem whole_exclusive_handover : ∃ s, Run step (fun s act => holderUnlocks s act ∧ noTry act) .init s ∧
    s.handed 1 8 ∧ locked (s.word 8) = true := by
  obtain ⟨s, h, heq⟩ : ∃ s, Run step (fun s act => holderUnlocks s act ∧ noTry act) .init s ∧
      (s.pc 1, (s.lot.mem.node 1).futex, (s.lot.mem.node 1).unparkToken) = (.asleep 8 10, 0, tokenHandoff) :=
    Run.of_exec_map (f := fun s : State => (s.pc 1, (s.lot.mem.node 1).futex, (s.lot.mem.node 1).unparkToken))
      (l := handover 22 7 5) (by decide +kernel)
  simp only [Prod.mk.injEq] at heq
  have hhanded : s.handed 1 8 := ⟨⟨10, heq.1⟩, heq.2⟩
  exact ⟨s, h, hhanded, ((whole_exclusive h).2 8).2 ⟨1, .inr hhanded⟩⟩

/-- While a thread waits for a mutex, `PARKED_BIT` is set, and somebody has still to unlock the mutex or is about to
lock it, whoever has been let in by `try_lock`. -/
theorem whole_wakeful (h : Run step holderUnlocks .init s) (hi : s.waits i key) :
    parked (s.word key) = true ∧
      ((∃ j, s.holds j key ∨ s.handed j key) ∨ ∃ j, s.onWay j key) := by
  obtain ⟨a, Q, hsim, hQ, hW⟩ := woken_of_run h
  obtain ⟨hp, hserved⟩ := hW i key (hsim.waits_of hQ hi)
  rw [hsim.word] at hp
  refine ⟨hp, hserved.imp ?_ fun ⟨j, hj⟩ => ⟨j, hsim.onWay_iff.1 hj⟩⟩
  rintro ⟨j, hj⟩
  exact ⟨j, (owns_pos.1 hj).imp hsim.holds_iff.1 hsim.handed_iff.1⟩

/-- Thread 1 sleeps while thread 0 is at the bucket to wake it up. -/
theorem whole_wakeful_handover : ∃ s, Run step holderUnlocks .init s ∧
    s.waits 1 8 ∧ s.lot.pc 0 = .inside 8 .unpark (0, 15) ∧ parked (s.word 8) = true := by
  obtain ⟨s, h, heq⟩ : ∃ s, Run step holderUnlocks .init s ∧
      (s.pc 1, (s.lot.mem.node 1).futex, s.lot.pc 0) = (.asleep 8 10, 1, .inside 8 .unpark (0, 15)) :=
    Run.of_exec_map (f := fun s : State => (s.pc 1, (s.lot.mem.node 1).futex, s.lot.pc 0))
      (l := handover 22 5 5) (by decide +kernel)
  simp only [Prod.mk.injEq] at heq
  have hwaits : s.waits 1 8 := ⟨⟨10, heq.1⟩, by rw [heq.2.1]; exact Nat.one_ne_zero⟩
  exact ⟨s, h, hwaits, heq.2.2, (whole_wakeful h hwaits).1⟩

/-! ### Progress -/

/-- With enough fuel for the loops, the thread can make a step; a new table may be anywhere where none is. -/
def CanStep (s : State) (i : Tid) : Prop :=
  ∃ N, ∀ (spurious : Bool) (x : Choice), N ≤ x.fuel → s.lot.table x.addr = none →
    ∃ s', step s (.run i spurious x) = some s'

theorem closures_fuel (x : Choice) (pc : Pc) :
    (s.closures x pc).fuel = x.fuel ∧ (s.closures x pc).addr = x.addr := by
  cases pc <;> exact ⟨rfl, rfl⟩

/-- What the clock says in a step that may look at it. -/
def Act.now : Act → Nat
  | .run _ _ x => x.now
  | _ => 0

section
variable {s' : State} {l l' : Lot.State} {pc : Pc} {now : Nat}

/-- The parking lot makes a step at the time `now`, or none, and a thread may go on to make its `ThreadData`. -/
inductive LotStep (now : Nat) (l : Lot.State) : Lot.State → Prop
  | none : LotStep now l l
  | step {a : Lot.Act} {l' : Lot.State} (h : Lot.step l a = some l') (hnow : a.now ≤ now) : LotStep now l l'
  | data {l' : Lot.State} (h : LotStep now l l') (i : Tid) : LotStep now l (l'.goto i .count)

theorem LotStep.withThreadData (h : LotStep now l s.lot) (i : Tid) :
    LotStep now l (s.withThreadData i).lot := by
  unfold State.withThreadData
  split
  · exact h
  · exact h.data i

theorem LotStep.acquire (h : LotStep now l s.lot) (i : Tid) (key : Key) :
    LotStep now l (s.acquire i key).lot :=
  LotStep.withThreadData (s := (s.setResources i (s.resources i ++ [key])).goto i .idle) h i

theorem LotStep.exchange {c : Prop} [Decidable c] {t t' : State}
    (hs : (if c then some t else some t') = some s') (ht : LotStep now l t.lot) (ht' : LotStep now l t'.lot) :
    LotStep now l s'.lot := by
  split at hs
  · cases hs
    exact ht
  · cases hs
    exact ht'

theorem LotStep.returned {e : Lot.Event} (h : LotStep now l s.lot) :
    LotStep now l (s.returned i pc e).lot := by
  unfold State.returned
  split
  · exact h
  · exact h
  · split
    · exact h.acquire i _
    · exact h
  · exact h
  · exact h

theorem lotStep_stepPc {spurious : Bool} (hs : stepPc s i spurious pc = some s') :
    LotStep now s.lot s'.lot := by
  cases pc with
  | idle | asleep => cases hs
  | lockFast key | slowBarge key | tryMark key =>
    exact .exchange hs (LotStep.acquire (s := s.setWord key _) .none i key) .none
  | slowMark | unlockFast => exact .exchange hs .none .none
  | slowLoad | tryLoad =>
    cases hs
    exact .none
  | slowPark key wait =>
    obtain ⟨l, hl, rfl⟩ := Option.map_eq_some_iff.1 hs
    split at hl
    · exact .step hl (Nat.zero_le now)
    · exact .step hl (Nat.zero_le now)
  | unlockSlow key =>
    obtain ⟨l, hl, rfl⟩ := Option.map_eq_some_iff.1 hs
    exact .step hl (Nat.zero_le now)

theorem closures_now (s : State) (x : Choice) (pc : Pc) : (s.closures x pc).now = x.now := by
  cases pc <;> rfl

theorem lotStep_of_step {act : Act} (hs : step s act = some s') : LotStep act.now s.lot s'.lot := by
  cases act with
  | lock | tryLock =>
    obtain ⟨-, -, rfl⟩ := enter_eq hs
    exact .none
  | unlock i key =>
    obtain ⟨t, ht, rfl⟩ := Option.map_eq_some_iff.1 hs
    obtain ⟨-, -, rfl⟩ := enter_eq ht
    exact LotStep.withThreadData (s := (s.goto i (.unlockFast key)).setResources i _) .none i
  | exit i =>
    simp only [step] at hs
    split at hs
    · obtain ⟨l, hl, rfl⟩ := Option.map_eq_some_iff.1 hs
      exact .step hl (Nat.zero_le _)
    · cases hs
  | run i spurious x =>
    simp only [step] at hs
    split at hs
    · exact lotStep_stepPc hs
    · obtain ⟨l, hl, rfl⟩ := Option.map_eq_some_iff.1 hs
      have hlot : LotStep x.now s.lot l := .step hl (Nat.le_of_eq (closures_now s x _))
      split
      · exact LotStep.returned (s := { s with lot := l }) hlot
      · exact hlot

theorem LotStep.timely {T : Nat} (hs : LotStep now l l') (h : Timely T l) (hnow : now ≤ T) :
    Timely T l' := by
  induction hs with
  | none => exact h
  | step hs ha => exact h.step (ha.trans hnow) hs
  | data _ i ih => exact ih

theorem LotStep.room (hs : LotStep now l l') (h : Lot.Room l) : Lot.Room l' := by
  induction hs with
  | none => exact h
  | step hs _ => exact (Lot.step_cases hs).room h
  | data _ i ih => exact ih

theorem room_of_step {act : Act} (h : Lot.Room s.lot) (hs : step s act = some s') : Lot.Room s'.lot :=
  (lotStep_of_step hs).room h

end

/-- The closures change neither the fuel nor where a table is made. -/
theorem canStep_of_lot (h : Lot.CanStep s.lot i) (hi : s.lot.pc i ≠ .idle) : CanStep s i := by
  obtain ⟨N, hN⟩ := h
  refine ⟨N, fun spurious x hx haddr => ?_⟩
  obtain ⟨hfuel, hsame⟩ := closures_fuel (s := s) x (s.pc i)
  obtain ⟨l, hl⟩ := hN (s.closures x (s.pc i)) (by rw [hfuel]; exact hx) (by rw [hsame]; exact haddr)
  rw [step, if_neg hi, State.runLot, hl]
  exact ⟨_, rfl⟩

theorem canStep_of_mutex (hl : s.lot.pc i = .idle) (hi : s.pc i ≠ .idle) (hs : sleeping (s.pc i) = false) :
    CanStep s i := by
  refine ⟨0, fun spurious x _ _ => ?_⟩
  simp only [step, if_pos hl]
  cases hpc : s.pc i with
  | idle => exact absurd hpc hi
  | asleep =>
    rw [hpc] at hs
    cases hs
  | slowPark key =>
    by_cases hd : s.lot.data i
    · refine ⟨{ s with lot := s.lot.goto i (.get (.lock key (.park 0 false))) }, ?_⟩
      rw [stepPc, if_pos hd, Lot.step, if_pos ⟨hl, hd⟩]
      rfl
    · refine ⟨{ s with lot := s.lot.goto i .count }, ?_⟩
      rw [stepPc, if_neg hd, Lot.step, if_pos ⟨hl, Bool.eq_false_iff.2 hd⟩]
      rfl
  | unlockSlow key =>
    refine ⟨{ s with lot := s.lot.goto i (.get (.lock key .unpark)) }, ?_⟩
    rw [stepPc, Lot.step, if_pos hl]
    rfl
  | slowLoad | tryLoad => exact ⟨_, rfl⟩
  | lockFast | slowBarge | slowMark | unlockFast | tryMark =>
    simp only [stepPc]
    split <;> exact ⟨_, rfl⟩

/-- As long as a thread is in a call and does not wait for a mutex, some thread can make a step. -/
theorem Sim.canStep (h : Sim s a Q) (hi : s.pc i ≠ .idle ∨ s.lot.pc i ≠ .idle) (hw : ∀ key, ¬s.waits i key) :
    ∃ j, CanStep s j := by
  have hfits := h.fits i
  by_cases hl : s.lot.pc i = .idle
  · rw [hl] at hfits
    exact ⟨i, canStep_of_mutex hl (hi.resolve_right (not_not.2 hl)) hfits⟩
  · rcases h.lot.canStep hl with hblocked | hcan
    · cases hblocked with
      | growLock hpc hb hlt hm =>
        obtain ⟨j, hj⟩ := Option.ne_none_iff_exists'.1 hm
        obtain ⟨k, hk, -, hcan⟩ := h.lot.unblocked hb hlt hj
        exact ⟨k, canStep_of_lot hcan hk⟩
      | lock hpc hb hm =>
        obtain ⟨j, hj⟩ := Option.ne_none_iff_exists'.1 hm
        obtain ⟨k, hk, -, hcan⟩ := h.lot.unblocked hb (hash_lt _ _) hj
        exact ⟨k, canStep_of_lot hcan hk⟩
      | asleep hpc hf =>
        rw [hpc] at hfits
        obtain ⟨-, hs⟩ := hfits
        cases hp : s.pc i with
        | asleep key wait => exact absurd ⟨⟨wait, hp⟩, hf⟩ (hw key)
        | _ =>
          rw [hp] at hs
          cases hs
    · exact ⟨i, canStep_of_lot hcan hl⟩

/-- If a thread waits for a mutex, some thread can make a step, or the mutex is held by a thread that is in no call
or waits for a mutex itself. -/
theorem whole_progress (h : Run step holderUnlocks .init s) (hi : s.waits i key) :
    (∃ a, s.lot.table a = none) ∧ ((∃ j, CanStep s j) ∨
      ∃ j, s.holds j key ∧ ((s.pc j = .idle ∧ s.lot.pc j = .idle) ∨ ∃ key', s.waits j key')) := by
  obtain ⟨N, hN⟩ : Lot.Room s.lot :=
    h.invariant (P := fun s => Lot.Room s.lot) ⟨0, fun _ _ => rfl⟩ fun _ _ _ hroom _ hs => room_of_step hroom hs
  refine ⟨⟨N, hN N (Nat.le_refl N)⟩, ?_⟩
  obtain ⟨a, Q, hsim, hQ, hW⟩ := woken_of_run h
  have hwoken : ∀ {j key' wait}, s.pc j = .asleep key' wait → (s.lot.mem.node j).futex = 0 → ∃ k, CanStep s k := by
    intro j key' wait hpc hf
    exact hsim.canStep (i := j) (.inl (by rw [hpc]; rintro ⟨⟩)) fun _ hw => hw.2 hf
  rcases (hW i key (hsim.waits_of hQ hi)).2 with ⟨j, hj⟩ | ⟨j, hj⟩
  · rcases owns_pos.1 hj with hj | hj
    · by_cases hidle : s.pc j = .idle ∧ s.lot.pc j = .idle
      · exact .inr ⟨j, hsim.holds_iff.1 hj, .inl hidle⟩
      · by_cases hw : ∃ key', s.waits j key'
        · exact .inr ⟨j, hsim.holds_iff.1 hj, .inr hw⟩
        · exact .inl (hsim.canStep (not_and_or.1 hidle) fun key' hk => hw ⟨key', hk⟩)
    · obtain ⟨⟨wait, hpc⟩, hf, -⟩ := hsim.handed_iff.1 hj
      exact .inl (hwoken hpc hf)
  · rcases hsim.onWay_iff.1 hj with hj | ⟨wait, hpc, hf⟩
    · refine .inl (hsim.canStep (i := j) (.inl ?_) ?_)
      · intro hidle
        rw [hidle] at hj
        cases hj
      · rintro key' ⟨⟨wait, hpc⟩, -⟩
        rw [hpc] at hj
        cases hj
    · exact .inl (hwoken hpc hf)

/-- Thread 0 has the mutex for which thread 1 waits, and has returned from `lock`. -/
theorem whole_progress_handover : ∃ s, Run step holderUnlocks .init s ∧
    s.waits 1 8 ∧ s.holds 0 8 ∧ s.pc 0 = .idle ∧ ((∃ j, CanStep s j) ∨
      ∃ j, s.holds j 8 ∧ ((s.pc j = .idle ∧ s.lot.pc j = .idle) ∨ ∃ key', s.waits j key')) := by
  obtain ⟨s, h, heq⟩ : ∃ s, Run step holderUnlocks .init s ∧
      (s.pc 1, (s.lot.mem.node 1).futex, s.resources 0, s.pc 0) = (.asleep 8 10, 1, [8], .idle) :=
    Run.of_exec_map (f := fun s : State => (s.pc 1, (s.lot.mem.node 1).futex, s.resources 0, s.pc 0))
      (l := (handover 22 0 0).dropLast) (by decide +kernel)
  simp only [Prod.mk.injEq] at heq
  have hwaits : s.waits 1 8 := ⟨⟨10, heq.1⟩, by rw [heq.2.1]; exact Nat.one_ne_zero⟩
  have hholds : s.holds 0 8 := .inl (by rw [heq.2.2.1]; exact List.mem_singleton_self 8)
  exact ⟨s, h, hwaits, hholds, heq.2.2.2, (whole_progress h hwaits).2⟩

/-! ### Handing over in time -/

section
variable {s' : State}

theorem Sim.mem_queue (h : Sim s a Q) (hQ : Queued a) : j ∈ Q.queue key ↔ s.waits j key := by
  rw [← h.filter_eq key, List.mem_filter]
  constructor
  · rintro ⟨hmem, hkey⟩
    obtain ⟨-, hf, wait, hpc⟩ := hQ.mem _ j hmem
    rw [eq_of_beq hkey, h.pc] at hpc
    exact ⟨⟨wait, hpc⟩, (h.futex_zero hpc).not.1 hf⟩
  · rintro ⟨⟨wait, hpc⟩, hf⟩
    obtain ⟨hkey, hmem⟩ := hQ.asleep j key wait (by rw [h.pc]; exact hpc)
    exact ⟨hmem ((h.futex_zero hpc).not.2 hf), beq_iff_eq.2 hkey⟩

theorem runLot_inside {x : Choice} {work : Lot.Work} {b : Lot.Entry} (hl : s.lot.pc i = .inside key work b)
    (hs : s.runLot i x = some s') :
    ∃ mem e sleep, s.lot.work i (s.closures x (s.pc i)) key b work = some (mem, e, sleep) ∧
      s' = { s with lot := { s.lot with mem }.goto i (.leave b sleep) }.returned i (s.pc i) e := by
  obtain ⟨l, hlot, rfl⟩ := Option.map_eq_some_iff.1 hs
  simp only [Lot.step, Lot.stepPc, hl] at hlot
  obtain ⟨bits, -, hlot⟩ := Option.bind_eq_some_iff.1 hlot
  obtain ⟨⟨mem, e, sleep⟩, hw, rfl⟩ := Option.map_eq_some_iff.1 hlot
  refine ⟨mem, e, sleep, hw, ?_⟩
  simp only [Lot.event, hl, hw, Option.map_some]

theorem locked_handoff {state : UInt8} (h : locked state = true) (more : Bool) :
    locked (unlockCallback state ⟨1, more, true⟩).1 = true := by
  cases more with
  | true => exact h
  | false => exact (by decide : locked lockedBit = true)

/-- Whenever a millisecond has gone by since the clock was last looked at, `unlock_slow` hands the mutex over to a
thread that waits for it, if there is one: nobody can barge in then. -/
theorem whole_fair {T : Nat} {x : Choice} {b : Lot.Entry} {k : Tid} {spurious : Bool}
    (h : Run step (fun s act => (holderUnlocks s act ∧ noTry act) ∧ act.now ≤ T) .init s)
    (hl : s.lot.pc i = .inside key .unpark b) (hnow : T + 1000000 ≤ x.now) (hk : s.waits k key)
    (hs : step s (.run i spurious x) = some s') :
    ∃ j, s.waits j key ∧ s'.handed j key ∧ locked (s'.word key) = true := by
  obtain ⟨a, Q, hsim, hQ, hO⟩ := owned_of_run (h.mono fun _ _ hC => hC.1)
  have htime : Timely T s.lot := h.invariant (P := fun s => Timely T s.lot) Lot.timely_init
    fun _ _ _ ht hC hs => (lotStep_of_step hs).timely ht hC.2
  have hfits := hsim.fits i
  rw [hl] at hfits
  have hpc : s.pc i = .unlockSlow key := hfits
  rw [step, if_neg (by rw [hl]; rintro ⟨⟩)] at hs
  obtain ⟨mem, e, sleep, hw, rfl⟩ := runLot_inside hl hs
  obtain ⟨Q', hinv, hnext⟩ := hsim.lot.step (.inside hl hw (hsim.lot.locks.old i b.1 (by rw [hl]; rfl)))
  rw [hpc] at hw ⊢
  obtain ⟨⟨m, target, result⟩, hone, heq⟩ := Option.map_eq_some_iff.1 hw
  cases heq
  cases target with
  | none =>
    -- somebody waits, so the queue is not empty
    cases hnext with
    | nobody hq =>
      have hmem := (hsim.mem_queue hQ).2 hk
      rw [hq] at hmem
      cases hmem
  | some j =>
    cases hnext with
    | @unparked _ _ q token fair hq =>
      have hfair : fair = true := by
        rcases Bucket.Mem.unparkOne_fair hone with ⟨hnone, -⟩ | ⟨hfair, -⟩
        · cases hnone
        · have hlt : (s.lot.mem.fairTimeout b).timeout < x.now := by
            have := htime b
            omega
          have hyes : ((s.lot.mem.fairTimeout b).shouldTimeout x.now).2 = true := by
            rw [Bucket.FairTimeout.shouldTimeout, if_pos hlt]
          exact hfair.trans hyes
      subst hfair
      have hj : s.waits j key := (hsim.mem_queue hQ).1 (by rw [hq]; exact List.mem_cons_self)
      obtain ⟨wait, hjpc⟩ := hj.1
      have hji : j ≠ i := by
        rintro rfl
        rw [hpc] at hjpc
        cases hjpc
      obtain ⟨-, hf, htoken⟩ := (hinv.token j _).1 (Function.update_self ..)
      have hlocked : locked (s.word key) = true := by
        rw [← hsim.word]
        refine (hO.held key).set_of_pos (i := i) (owns_pos.2 (.inl (hsim.holds_iff.2 (.inr ?_))))
        rw [hpc]
        exact beq_self_eq_true key
      refine ⟨j, hj, ⟨⟨wait, ?_⟩, hf, htoken⟩, ?_⟩
      · exact (Function.update_of_ne hji _ _).trans hjpc
      · show locked (Function.update s.word key _ key) = true
        rw [Function.update_self]
        exact locked_handoff hlocked _

end

/-- Thread 0 is about to wake thread 1 up when the clock is looked at again. -/
theorem whole_fair_handover : ∃ s s',
    Run step (fun s act => (holderUnlocks s act ∧ noTry act) ∧ act.now ≤ 1) .init s ∧ s.waits 1 8 ∧
    step s (.run 0 false ⟨0, 2000000, true, fun _ => 7, false, 2⟩) = some s' ∧
    ∃ j, s.waits j 8 ∧ s'.handed j 8 ∧ locked (s'.word 8) = true := by
  obtain ⟨s, h, heq⟩ : ∃ s, Run step (fun s act => (holderUnlocks s act ∧ noTry act) ∧ act.now ≤ 1) .init s ∧
      (s.lot.pc 0, s.pc 1, (s.lot.mem.node 1).futex,
        (step s (.run 0 false ⟨0, 2000000, true, fun _ => 7, false, 2⟩)).isSome) =
        (.inside 8 .unpark (0, 15), .asleep 8 10, 1, true) :=
    Run.of_exec_map (f := fun s : State => (s.lot.pc 0, s.pc 1, (s.lot.mem.node 1).futex,
      (step s (.run 0 false ⟨0, 2000000, true, fun _ => 7, false, 2⟩)).isSome)) (l := handover 22 5 1)
      (by decide +kernel)
  simp only [Prod.mk.injEq] at heq
  obtain ⟨s', hs⟩ := Option.isSome_iff_exists.1 heq.2.2.2
  have hwaits : s.waits 1 8 := ⟨⟨10, heq.2.1⟩, by rw [heq.2.2.1]; exact Nat.one_ne_zero⟩
  exact ⟨s, s', h, hwaits, hs, whole_fair h heq.1 (by decide) hwaits hs⟩

end CoQueue.Mutex.Whole
