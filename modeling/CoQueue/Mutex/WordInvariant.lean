import CoQueue.Lib.Lazy
import CoQueue.Lib.Token
import CoQueue.Mutex.WordSteps

/-!
# The queue of a `WordLock`

`Inv s fresh done`: the waiting threads are the nodes `fresh ++ done`, newest first, linked as a
`Linked.Lazy` queue whose front is in the word. Both bits of the word are tokens (`Token.Held`): the lock
bit is with the thread that holds the lock, the queue bit with the thread that walks the queue. A node is
in the queue from the `compare_exchange` that puts it in front to the step of `unlock_slow` that takes it
off the other end; from then until `unpark_lock` it is the `target` of the one thread that will wake its
owner. In all this time its owner is inside `park` with the futex word set, so the node is there when it
is accessed.

The steps here change the word and the places in the code; those that change a node are in `WordNodes`.
-/

namespace CoQueue.Mutex.WordLock

open Schedule Token Linked

variable {s s' : State} {i j : Tid} {fresh done : List Usize} {pc pc' : Pc}

/-! ### The invariant -/

/-- The thread holds the lock. -/
def Pc.holds : Pc → Nat
  | .holding | .unlockFast => 1
  | _ => 0

/-- The thread holds the lock of the queue. -/
def Pc.works : Pc → Nat
  | .scan .. | .link .. | .setTail .. | .settle .. | .newTail .. | .dropLast .. | .cut .. | .leave .. => 1
  | _ => 0

/-- The thread's own `ThreadData`. -/
def Pc.node : Pc → Option Usize
  | .slowPush _ _ me | .park me | .futexWait me | .asleep me | .woken me => some me
  | _ => none

/-- The thread is inside `park`. -/
def Pc.parked : Pc → Option Usize
  | .park me | .futexWait me | .asleep me => some me
  | _ => none

/-- The `ThreadData` that the thread has taken off the queue and has yet to unpark. -/
def Pc.target : Pc → Option Usize
  | .leave queueTail | .unpark queueTail => some queueTail
  | _ => none

/-- The pointers of the nodes. -/
def cells (mem : Usize → Option ThreadData) : Cells Usize :=
  ⟨fun p => (mem p).elim 0 (·.next), fun p => (mem p).elim 0 (·.prev), fun p => (mem p).elim 0 (·.queueTail)⟩

/-- What a thread knows at its place in the code. -/
def Fact (mem : Usize → Option ThreadData) (fresh done : List Usize) : Pc → Prop
  | .slowGrab _ state => isLocked state = false
  | .slowPrepare _ state => isLocked state = true
  | .slowPush _ state me => isLocked state = true ∧ mem me = some (.prepare state me) ∧ me ∉ fresh ++ done
  | .unlockTry state => isQueueLocked state = false ∧ queueHead state ≠ 0
  | .scan state current => Walk 0 (cells mem) fresh done (queueHead state) current
  | .link state current =>
    Walk 0 (cells mem) fresh done (queueHead state) current ∧ (cells mem).tail current = 0
  | .setTail state queueTail => Found 0 (cells mem) fresh done (queueHead state) queueTail
  | .settle state => isLocked state = true ∧ done ≠ []
  | .newTail state queueTail => Settled 0 (cells mem) done (queueHead state) queueTail
  | .dropLast state queueTail =>
    Settled 0 (cells mem) done (queueHead state) queueTail ∧ done = [queueTail]
  | .cut state queueTail newTail => Settled 0 (cells mem) done (queueHead state) queueTail ∧
    (cells mem).prev queueTail = newTail ∧ newTail ≠ 0
  | .crash => False
  | _ => True

structure Inv (s : State) (fresh done : List Usize) : Prop where
  lock : Held (isLocked s.word) fun j => (s.pc j).holds
  queueLock : Held (isQueueLocked s.word) fun j => (s.pc j).works
  /-- The word has the address of the newest node. -/
  head : (fresh ++ done).head?.getD 0 = queueHead s.word
  lazy : Lazy 0 (cells s.mem) fresh done
  /-- A thread's `ThreadData` is there, and it is nobody else's. -/
  node : ∀ j p, (s.pc j).node = some p → s.mem p ≠ none ∧ p ≠ 0 ∧ Aligned p
  own : ∀ j k p, (s.pc j).node = some p → (s.pc k).node = some p → j = k
  /-- The owner of a node in the queue waits, and so does the owner of one that has been taken off. -/
  queued : ∀ p ∈ fresh ++ done, ∃ j d, (s.pc j).parked = some p ∧ s.mem p = some d ∧ d.futex = 1
  taken : ∀ j p, (s.pc j).target = some p →
    p ∉ fresh ++ done ∧ ∃ k d, (s.pc k).parked = some p ∧ s.mem p = some d ∧ d.futex = 1
  /-- Nobody else will wake it. -/
  once : ∀ j k p, (s.pc j).target = some p → (s.pc k).target = some p → j = k
  /-- Who waits is in the queue or has been taken off it. -/
  waits : ∀ j p d, (s.pc j).parked = some p → s.mem p = some d → d.futex ≠ 0 →
    p ∈ fresh ++ done ∨ ∃ k, (s.pc k).target = some p
  /-- A sleeper whose futex word is clear will get its `FUTEX_WAKE`. -/
  woken : ∀ j p d, s.pc j = .asleep p → s.mem p = some d → d.futex = 0 → ∃ k, s.pc k = .wake p
  fact : ∀ j, Fact s.mem fresh done (s.pc j)

theorem inv_init : Inv .init [] [] where
  lock := ⟨none, by decide, fun _ => rfl⟩
  queueLock := ⟨none, by decide, fun _ => rfl⟩
  head := by decide
  lazy := .nil
  node _ _ h := by cases h
  own _ _ _ h := by cases h
  queued _ h := by cases h
  taken _ _ h := by cases h
  once _ _ _ h := by cases h
  waits _ _ _ h := by cases h
  woken _ _ _ h := by cases h
  fact _ := trivial

/-! ### Steps that leave the nodes as they are -/

theorem Inv.goto (h : Inv s fresh done) (word : Usize)
    (hlock : Held (isLocked word) fun j => (Function.update s.pc i pc j).holds)
    (hqueue : Held (isQueueLocked word) fun j => (Function.update s.pc i pc j).works)
    (hhead : queueHead word = queueHead s.word) (hnode : pc.node = (s.pc i).node)
    (htarget : pc.target = (s.pc i).target)
    (hparked : pc.parked = (s.pc i).parked ∨
      pc.parked = none ∧ ∃ p d, (s.pc i).parked = some p ∧ s.mem p = some d ∧ d.futex = 0)
    (hasleep : ∀ p d, pc = .asleep p → s.mem p = some d → d.futex ≠ 0)
    (hwake : ∀ p, s.pc i = .wake p → ∀ j, s.pc j ≠ .asleep p)
    (hfact : Fact s.mem fresh done pc) : Inv ((s.setWord word).goto i pc) fresh done := by
  have hnode' : ∀ j, (Function.update s.pc i pc j).node = (s.pc j).node := update_same (F := Pc.node) hnode
  have htarget' : ∀ j, (Function.update s.pc i pc j).target = (s.pc j).target :=
    update_same (F := Pc.target) htarget
  have hwaiting : ∀ p, (∃ j d, (s.pc j).parked = some p ∧ s.mem p = some d ∧ d.futex = 1) →
      ∃ j d, (Function.update s.pc i pc j).parked = some p ∧ s.mem p = some d ∧ d.futex = 1 := by
    intro p hp
    refine exists_update (P := fun y : Pc => ∃ d, y.parked = some p ∧ s.mem p = some d ∧ d.futex = 1) hp ?_
    rintro ⟨d, hpi, hd, hf⟩
    rcases hparked with hsame | ⟨-, q, e, hq, he, hf0⟩
    · exact ⟨d, hsame.trans hpi, hd, hf⟩
    · obtain rfl : p = q := Option.some.inj (hpi.symm.trans hq)
      obtain rfl : d = e := Option.some.inj (hd.symm.trans he)
      omega
  refine ⟨hlock, hqueue, h.head.trans hhead.symm, h.lazy, fun j p hj => h.node j p ((hnode' j).symm.trans hj),
    fun j k p hj hk => h.own j k p ((hnode' j).symm.trans hj) ((hnode' k).symm.trans hk),
    fun p hp => hwaiting p (h.queued p hp), fun j p hj => ?_,
    fun j k p hj hk => h.once j k p ((htarget' j).symm.trans hj) ((htarget' k).symm.trans hk),
    fun j p d hj hd hf => ?_, fun j p d hj hd hf => ?_, fun j => ?_⟩
  · obtain ⟨hmem, hwait⟩ := h.taken j p ((htarget' j).symm.trans hj)
    exact ⟨hmem, hwaiting p hwait⟩
  · have hold : (s.pc j).parked = some p := by
      rcases at_update (P := fun y : Pc => y.parked = some p) hj with ⟨rfl, hp⟩ | ⟨-, hp⟩
      · rcases hparked with hsame | ⟨hnone, -⟩
        · exact hsame.symm.trans hp
        · rw [hnone] at hp
          cases hp
      · exact hp
    refine (h.waits j p d hold hd hf).imp_right ?_
    rintro ⟨k, hk⟩
    exact ⟨k, (htarget' k).trans hk⟩
  · rcases at_update (P := fun y : Pc => y = .asleep p) hj with ⟨-, hp⟩ | ⟨-, hp⟩
    · exact absurd hf (hasleep p d hp hd)
    · exact exists_update (P := fun y : Pc => y = .wake p) (h.woken j p d hp hd hf) fun hi =>
        absurd hp (hwake p hi j)
  · by_cases hj : j = i
    · subst j
      simpa using hfact
    · simpa [hj] using h.fact j

/-- The thread has neither lock, no `ThreadData` and nobody to wake. -/
def Pc.Plain (pc : Pc) : Prop := pc.holds = 0 ∧ pc.works = 0 ∧ pc.node = none ∧ pc.target = none

theorem Pc.parked_of_node (h : pc.node = none) : pc.parked = none := by
  cases pc <;> first | rfl | cases h

theorem slowLoop_cases (wait : Nat) (state : Usize) :
    (isLocked state = false ∧ slowLoop wait state = .slowGrab wait state) ∨
    slowLoop wait state = .slowLoad (spin wait).1 ∨
    (isLocked state = true ∧ slowLoop wait state = .slowPrepare wait state) := by
  unfold slowLoop
  cases isLocked state with
  | false => exact .inl ⟨rfl, rfl⟩
  | true =>
    cases queueHead state == 0 && (spin wait).2 with
    | false => exact .inr (.inr ⟨rfl, rfl⟩)
    | true => exact .inr (.inl rfl)

theorem slowLoop_plain (wait : Nat) (state : Usize) : (slowLoop wait state).Plain := by
  rcases slowLoop_cases wait state with ⟨-, h⟩ | h | ⟨-, h⟩ <;> rw [h] <;> exact ⟨rfl, rfl, rfl, rfl⟩

theorem slowLoop_fact (mem : Usize → Option ThreadData) (fresh done : List Usize) (wait : Nat)
    (state : Usize) : Fact mem fresh done (slowLoop wait state) := by
  rcases slowLoop_cases wait state with ⟨hl, h⟩ | h | ⟨hl, h⟩ <;> rw [h]
  · exact hl
  · trivial
  · exact hl

theorem unlockLoop_cases (state : Usize) :
    ((isQueueLocked state = true ∨ queueHead state = 0) ∧ unlockLoop state = .idle) ∨
    (isQueueLocked state = false ∧ queueHead state ≠ 0 ∧ unlockLoop state = .unlockTry state) := by
  unfold unlockLoop
  cases isQueueLocked state with
  | true => exact .inl ⟨.inl rfl, rfl⟩
  | false =>
    by_cases hh : queueHead state = 0
    · exact .inl ⟨.inr hh, by rw [hh]; rfl⟩
    · exact .inr ⟨rfl, hh, by rw [beq_eq_false_iff_ne.2 hh]; rfl⟩

theorem unlockLoop_plain (state : Usize) : (unlockLoop state).Plain := by
  rcases unlockLoop_cases state with ⟨-, h⟩ | ⟨-, -, h⟩ <;> rw [h] <;> exact ⟨rfl, rfl, rfl, rfl⟩

theorem unlockLoop_fact (mem : Usize → Option ThreadData) (fresh done : List Usize) (state : Usize) :
    Fact mem fresh done (unlockLoop state) := by
  rcases unlockLoop_cases state with ⟨-, h⟩ | ⟨hl, hh, h⟩ <;> rw [h]
  · trivial
  · exact ⟨hl, hh⟩

theorem cells_of_mem {mem : Usize → Option ThreadData} {p : Usize} {d : ThreadData} (h : mem p = some d) :
    (cells mem).next p = d.next ∧ (cells mem).prev p = d.prev ∧ (cells mem).tail p = d.queueTail := by
  simp [cells, h]

theorem Inv.head_eq (h : Inv s fresh done) (hne : done ≠ []) :
    (fresh ++ done).head? = some (queueHead s.word) := by
  have hhead := h.head
  cases hq : (fresh ++ done).head? with
  | none => exact absurd (List.append_eq_nil_iff.1 (List.head?_eq_none_iff.1 hq)).2 hne
  | some p => rw [hq] at hhead; exact congrArg some hhead

theorem Inv.head_ne_zero (h : Inv s fresh done) (hne : done ≠ []) : queueHead s.word ≠ 0 :=
  h.lazy.nonnull _ (List.mem_of_mem_head? (h.head_eq hne))

theorem Inv.moves_fact (h : Inv s fresh done) (hm : Moves s (s.pc i) pc) : Fact s.mem fresh done pc := by
  have hi := h.fact i
  generalize s.pc i = x at hm hi
  cases hm with
  | call | fast | wait | up | sleep | again | interrupt | unlock => trivial
  | load | lost => exact slowLoop_fact ..
  | look | missed => exact unlockLoop_fact ..
  | found hd ht =>
    rw [← (cells_of_mem hd).2.2] at ht ⊢
    exact hi.found h.lazy ht
  | behind hd ht => exact ⟨hi, (cells_of_mem hd).2.2.trans ht⟩
  | rescan => exact Walk.start h.lazy (h.head_eq hi.2)
  | only hd hp => exact ⟨hi, hi.eq_singleton h.lazy ((cells_of_mem hd).2.1.trans hp)⟩
  | several hd hp => exact ⟨hi, (cells_of_mem hd).2.1, hp⟩
  -- the queue cannot have become empty
  | retry hw => exact absurd hw (h.head_ne_zero (by rw [hi.2]; exact List.cons_ne_nil _ _))
  | grown hw => exact Walk.start h.lazy (h.head_eq (by rw [hi.2]; exact List.cons_ne_nil _ _))

theorem Moves.same (hm : Moves s pc pc') : pc'.holds = pc.holds ∧ pc'.works = pc.works ∧
    pc'.node = pc.node ∧ pc'.target = pc.target := by
  cases hm with
  | load | lost => exact slowLoop_plain ..
  | look | missed => exact unlockLoop_plain ..
  | _ => exact ⟨rfl, rfl, rfl, rfl⟩

theorem Moves.parked (hm : Moves s pc pc') : pc'.parked = pc.parked ∨
    pc'.parked = none ∧ ∃ p d, pc.parked = some p ∧ s.mem p = some d ∧ d.futex = 0 := by
  cases hm with
  | load | lost => exact .inl (Pc.parked_of_node (slowLoop_plain ..).2.2.1)
  | look | missed => exact .inl (Pc.parked_of_node (unlockLoop_plain ..).2.2.1)
  | up hd hf => exact .inr ⟨rfl, _, _, rfl, hd, hf⟩
  | _ => exact .inl rfl

theorem Moves.asleep {p : Usize} (hm : Moves s pc pc') (hp : pc' = .asleep p) :
    ∃ d, s.mem p = some d ∧ d.futex = 1 := by
  cases hm with
  | sleep hd hf =>
    cases hp
    exact ⟨_, hd, hf⟩
  | load wait | lost wait => cases (congrArg Pc.node hp).symm.trans (slowLoop_plain wait s.word).2.2.1
  | look | missed => cases (congrArg Pc.node hp).symm.trans (unlockLoop_plain s.word).2.2.1
  | _ => cases hp

theorem Inv.move (h : Inv s fresh done) (hm : Moves s (s.pc i) pc) : Inv (s.goto i pc) fresh done := by
  obtain ⟨hholds, hworks, hnode, htarget⟩ := hm.same
  refine h.goto s.word (h.lock.keep_update (F := Pc.holds) hholds)
    (h.queueLock.keep_update (F := Pc.works) hworks) rfl hnode htarget hm.parked ?_ ?_ (h.moves_fact hm)
  · rintro p d hp hd
    obtain ⟨e, he, hf⟩ := hm.asleep hp
    obtain rfl := Option.some.inj (he.symm.trans hd)
    omega
  · intro p hp
    rw [hp] at hm
    cases hm

/-- Steps of a thread that has no `ThreadData` and nobody to wake, before and after. -/
theorem Inv.bits (h : Inv s fresh done) (word : Usize)
    (hlock : Held (isLocked word) fun j => (Function.update s.pc i pc j).holds)
    (hqueue : Held (isQueueLocked word) fun j => (Function.update s.pc i pc j).works)
    (hhead : queueHead word = queueHead s.word) (hnode : (s.pc i).node = none) (hnode' : pc.node = none)
    (htarget : pc.target = (s.pc i).target) (hwake : ∀ p, s.pc i = .wake p → ∀ j, s.pc j ≠ .asleep p)
    (hfact : Fact s.mem fresh done pc) : Inv ((s.setWord word).goto i pc) fresh done := by
  refine h.goto word hlock hqueue hhead (hnode'.trans hnode.symm) htarget
    (.inl ((Pc.parked_of_node hnode').trans (Pc.parked_of_node hnode).symm)) ?_ hwake hfact
  rintro p d rfl
  cases hnode'

theorem Inv.grab (h : Inv s fresh done) (hw : isLocked s.word = false) (hpc : (s.pc i).Plain)
    (hwake : ∀ p, s.pc i ≠ .wake p) :
    Inv ((s.setWord (s.word ||| lockedBit)).goto i .holding) fresh done := by
  have hfree : Held false fun j => (s.pc j).holds := hw ▸ h.lock
  refine h.bits _ ?_ ?_ (queueHead_or_lockedBit s.word) hpc.2.2.1 rfl hpc.2.2.2.symm
    (fun p hp => absurd hp (hwake p)) trivial
  · rw [isLocked_or_lockedBit]
    exact hfree.take_update (F := Pc.holds) (by rw [hpc.1]; rfl)
  · rw [isQueueLocked_or_lockedBit]
    exact h.queueLock.keep_update (F := Pc.works) hpc.2.1.symm

theorem Inv.unlockFast (h : Inv s fresh done) (hpc : s.pc i = .unlockFast) :
    Inv ((s.setWord (s.word - lockedBit)).goto i
      (if isQueueLocked s.word || queueHead s.word == 0 then .idle else .unlockLoad)) fresh done := by
  have hw : isLocked s.word = true := h.lock.set_of_pos (i := i) (by rw [hpc]; exact Nat.one_pos)
  generalize hx : (if isQueueLocked s.word || queueHead s.word == 0 then Pc.idle else .unlockLoad) = x
  have hplain : x.Plain ∧ Fact s.mem fresh done x := by
    subst x
    cases isQueueLocked s.word || queueHead s.word == 0 <;> exact ⟨⟨rfl, rfl, rfl, rfl⟩, trivial⟩
  refine h.bits _ ?_ ?_ (queueHead_sub_lockedBit _ hw) (by rw [hpc]; rfl) hplain.1.2.2.1
    (by rw [hplain.1.2.2.2, hpc]; rfl) (by simp [hpc]) hplain.2
  · rw [isLocked_sub_lockedBit _ hw]
    exact h.lock.drop_update (F := Pc.holds) (by rw [hpc, hplain.1.1]; rfl)
  · rw [isQueueLocked_sub_lockedBit _ hw]
    exact h.queueLock.keep_update (F := Pc.works) (by rw [hpc, hplain.1.2.1]; rfl)

theorem Inv.done_ne_nil (h : Inv s fresh done) (hw : queueHead s.word ≠ 0) : done ≠ [] := by
  cases hq : (fresh ++ done).head? with
  | none => exact absurd (h.head.symm.trans (by rw [hq]; rfl)) hw
  | some p => exact h.lazy.ne_nil (List.mem_of_mem_head? hq)

theorem Inv.unlockTry (h : Inv s fresh done) (hpc : s.pc i = .unlockTry s.word) :
    Inv ((s.setWord (s.word ||| queueLockedBit)).goto i (.scan s.word (queueHead s.word))) fresh done := by
  have hfact := h.fact i
  rw [hpc] at hfact
  have hfree : Held false fun j => (s.pc j).works := hfact.1 ▸ h.queueLock
  refine h.bits _ ?_ ?_ (queueHead_or_queueLockedBit _) (by rw [hpc]; rfl) rfl (by rw [hpc]; rfl)
    (by simp [hpc]) (Walk.start h.lazy (h.head_eq (h.done_ne_nil hfact.2)))
  · rw [isLocked_or_queueLockedBit]
    exact h.lock.keep_update (F := Pc.holds) (by rw [hpc]; rfl)
  · rw [isQueueLocked_or_queueLockedBit]
    exact hfree.take_update (F := Pc.works) (by rw [hpc]; rfl)

theorem Inv.release (h : Inv s fresh done) (hworks : (s.pc i).works = 1) (hpc : pc.works = 0)
    (hholds : pc.holds = (s.pc i).holds) (hnode : (s.pc i).node = none) (hnode' : pc.node = none)
    (htarget : pc.target = (s.pc i).target) (hfact : Fact s.mem fresh done pc) :
    Inv ((s.setWord (s.word &&& ~~~queueLockedBit)).goto i pc) fresh done := by
  refine h.bits _ ?_ ?_ (queueHead_andNot_queueLockedBit _) hnode hnode' htarget ?_ hfact
  · rw [isLocked_andNot_queueLockedBit]
    exact h.lock.keep_update (F := Pc.holds) hholds
  · rw [isQueueLocked_andNot_queueLockedBit]
    exact h.queueLock.drop_update (F := Pc.works) (by rw [hworks, hpc])
  · intro p hp
    rw [hp] at hworks
    cases hworks

theorem Inv.rouse (h : Inv s fresh done) (t : Usize) :
    Inv { s with pc := fun j => if s.pc j = .asleep t then .park t else s.pc j } fresh done := by
  have hsame : ∀ j, (if s.pc j = .asleep t then Pc.park t else s.pc j).holds = (s.pc j).holds ∧
      (if s.pc j = .asleep t then Pc.park t else s.pc j).works = (s.pc j).works ∧
      (if s.pc j = .asleep t then Pc.park t else s.pc j).node = (s.pc j).node ∧
      (if s.pc j = .asleep t then Pc.park t else s.pc j).parked = (s.pc j).parked ∧
      (if s.pc j = .asleep t then Pc.park t else s.pc j).target = (s.pc j).target := by
    intro j
    split
    · rename_i hj
      rw [hj]
      exact ⟨rfl, rfl, rfl, rfl, rfl⟩
    · exact ⟨rfl, rfl, rfl, rfl, rfl⟩
  refine ⟨h.lock.congr fun j => (hsame j).1, h.queueLock.congr fun j => (hsame j).2.1, h.head, h.lazy,
    ?_, ?_, ?_, ?_, ?_, ?_, fun j p d hj hd hf => ?_, fun j => ?_⟩
  · simpa only [hsame] using h.node
  · simpa only [hsame] using h.own
  · simpa only [hsame] using h.queued
  · simpa only [hsame] using h.taken
  · simpa only [hsame] using h.once
  · simpa only [hsame] using h.waits
  · dsimp only at hj
    split at hj
    · cases hj
    · obtain ⟨k, hk⟩ := h.woken j p d hj hd hf
      exact ⟨k, by simp [hk]⟩
  · dsimp only
    split
    · trivial
    · exact h.fact j

theorem Inv.wake (h : Inv s fresh done) {t : Usize} (hpc : s.pc i = .wake t) :
    Inv (State.goto { s with pc := fun j => if s.pc j = .asleep t then .park t else s.pc j } i .idle)
      fresh done := by
  have h' : Inv { s with pc := fun j => if s.pc j = .asleep t then .park t else s.pc j } fresh done :=
    h.rouse t
  have hi : (if s.pc i = .asleep t then Pc.park t else s.pc i) = .wake t := by simp [hpc]
  refine h'.bits s.word (h'.lock.keep_update (F := Pc.holds) ?_)
    (h'.queueLock.keep_update (F := Pc.works) ?_) rfl ?_ rfl ?_ ?_ trivial
  all_goals dsimp only
  all_goals rw [hi]
  any_goals rfl
  rintro p hp j hj
  cases hp
  split at hj
  · cases hj
  · contradiction

end CoQueue.Mutex.WordLock
