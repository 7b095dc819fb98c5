import CoQueue.Mutex.WordLock

/-!
# What a step of a `WordLock` does

`Step s i e s'` lists everything that a step of thread `i` can do, with the event `e` it is for the queue
of waiting threads, and `step_cases` says that this is all. Every invariant is proved from it.
-/

namespace CoQueue.Mutex.WordLock

variable {s s' : State} {i : Tid}

/-- The steps that change nothing but the place in the code. -/
inductive Moves (s : State) : Pc → Pc → Prop
  | call : Moves s .idle .lockFast
  | fast : Moves s .lockFast (.slowLoad 0)
  | load (wait : Nat) : Moves s (.slowLoad wait) (slowLoop wait s.word)
  | lost (wait : Nat) (state : Usize) : Moves s (.slowGrab wait state) (slowLoop wait s.word)
  | wait {me : Usize} {d : ThreadData} (hd : s.mem me = some d) (hf : d.futex ≠ 0) :
      Moves s (.park me) (.futexWait me)
  | up {me : Usize} {d : ThreadData} (hd : s.mem me = some d) (hf : d.futex = 0) :
      Moves s (.park me) (.woken me)
  | sleep {me : Usize} {d : ThreadData} (hd : s.mem me = some d) (hf : d.futex = 1) :
      Moves s (.futexWait me) (.asleep me)
  | again (me : Usize) : Moves s (.futexWait me) (.park me)
  | interrupt (me : Usize) : Moves s (.asleep me) (.park me)
  | unlock : Moves s .holding .unlockFast
  | look : Moves s .unlockLoad (unlockLoop s.word)
  | missed (state : Usize) : Moves s (.unlockTry state) (unlockLoop s.word)
  | found {state current : Usize} {d : ThreadData} (hd : s.mem current = some d) (ht : d.queueTail ≠ 0) :
      Moves s (.scan state current) (.setTail state d.queueTail)
  | behind {state current : Usize} {d : ThreadData} (hd : s.mem current = some d) (ht : d.queueTail = 0) :
      Moves s (.scan state current) (.link state current)
  | rescan (state : Usize) : Moves s (.settle state) (.scan s.word (queueHead s.word))
  | only {state queueTail : Usize} {d : ThreadData} (hd : s.mem queueTail = some d) (hp : d.prev = 0) :
      Moves s (.newTail state queueTail) (.dropLast state queueTail)
  | several {state queueTail : Usize} {d : ThreadData} (hd : s.mem queueTail = some d) (hp : d.prev ≠ 0) :
      Moves s (.newTail state queueTail) (.cut state queueTail d.prev)
  | retry {state queueTail : Usize} (hw : queueHead s.word = 0) :
      Moves s (.dropLast state queueTail) (.dropLast s.word queueTail)
  | grown {state queueTail : Usize} (hw : queueHead s.word ≠ 0) :
      Moves s (.dropLast state queueTail) (.scan s.word (queueHead s.word))

/-- The access of a step, if it is to a `ThreadData`. -/
inductive Access (s : State) : Pc → Usize → Prop
  | park (me : Usize) : Access s (.park me) me
  | futexWait (me : Usize) : Access s (.futexWait me) me
  | scan (state current : Usize) : Access s (.scan state current) current
  | link (state current : Usize) : Access s (.link state current) current
  | linkNext {state current : Usize} {d : ThreadData} (hd : s.mem current = some d) :
      Access s (.link state current) d.next
  | setTail (state queueTail : Usize) : Access s (.setTail state queueTail) (queueHead state)
  | newTail (state queueTail : Usize) : Access s (.newTail state queueTail) queueTail
  | cut (state queueTail newTail : Usize) : Access s (.cut state queueTail newTail) (queueHead state)
  | unpark (queueTail : Usize) : Access s (.unpark queueTail) queueTail

/-- The queue gets a node in front, or loses the one at its end. -/
inductive Event
  | joins (i : Tid) (me : Usize)
  | taken (queueTail : Usize)
deriving DecidableEq

/-- What the queue gets or loses in a step: the `compare_exchange` of `lock_slow` that succeeds, and the
removal of the last thread in `unlock_slow`. -/
def event (s : State) : Act → Option Event
  | .lock _ | .unlock _ => none
  | .run i spurious _ =>
    match s.pc i with
    | .slowPush _ state me => if s.word = state ∧ spurious = false then some (.joins i me) else none
    | .dropLast state queueTail => if s.word = state ∧ spurious = false then some (.taken queueTail) else none
    | .cut _ queueTail _ => some (.taken queueTail)
    | _ => none

/-- Everything a step of thread `i` can do. -/
inductive Step (s : State) (i : Tid) : Option Event → State → Prop
  | move {pc : Pc} (h : Moves s (s.pc i) pc) : Step s i none (s.goto i pc)
  | grabFast (hpc : s.pc i = .lockFast) (hw : s.word = 0) : Step s i none ((s.setWord lockedBit).goto i .holding)
  | grab {wait : Nat} (hpc : s.pc i = .slowGrab wait s.word) :
      Step s i none ((s.setWord (s.word ||| lockedBit)).goto i .holding)
  | prepare {wait : Nat} {state addr : Usize} (hpc : s.pc i = .slowPrepare wait state) (h0 : addr ≠ 0)
      (ha : Aligned addr) (hm : s.mem addr = none) :
      Step s i none ((s.setMem addr (some (.prepare state addr))).goto i (.slowPush wait state addr))
  | push {wait : Nat} {me : Usize} (hpc : s.pc i = .slowPush wait s.word me) :
      Step s i (some (.joins i me)) ((s.setWord (withQueueHead s.word me)).goto i (.park me))
  | back {wait : Nat} {state me : Usize} (hpc : s.pc i = .slowPush wait state me) :
      Step s i none ((s.setMem me none).goto i (slowLoop wait s.word))
  | woken {me : Usize} (hpc : s.pc i = .woken me) :
      Step s i none ((s.setMem me none).goto i (slowLoop 0 s.word))
  | unlockFast (hpc : s.pc i = .unlockFast) :
      Step s i none ((s.setWord (s.word - lockedBit)).goto i
        (if isQueueLocked s.word || queueHead s.word == 0 then .idle else .unlockLoad))
  | unlockTry (hpc : s.pc i = .unlockTry s.word) :
      Step s i none ((s.setWord (s.word ||| queueLockedBit)).goto i (.scan s.word (queueHead s.word)))
  | link {state current : Usize} {d e : ThreadData} (hpc : s.pc i = .link state current)
      (hd : s.mem current = some d) (he : s.mem d.next = some e) :
      Step s i none ((s.setMem d.next (some { e with prev := current })).goto i (.scan state d.next))
  | setTail {state queueTail : Usize} {d : ThreadData} (hpc : s.pc i = .setTail state queueTail)
      (hd : s.mem (queueHead state) = some d) :
      Step s i none ((s.setMem (queueHead state) (some { d with queueTail })).goto i
        (if isLocked state then .settle state else .newTail state queueTail))
  | settle (hpc : s.pc i = .settle s.word) :
      Step s i none ((s.setWord (s.word &&& ~~~queueLockedBit)).goto i .idle)
  | dropLast {queueTail : Usize} (hpc : s.pc i = .dropLast s.word queueTail) :
      Step s i (some (.taken queueTail)) ((s.setWord (s.word &&& lockedBit)).goto i (.unpark queueTail))
  | cut {state queueTail newTail : Usize} {d : ThreadData} (hpc : s.pc i = .cut state queueTail newTail)
      (hd : s.mem (queueHead state) = some d) :
      Step s i (some (.taken queueTail)) ((s.setMem (queueHead state) (some { d with queueTail := newTail })).goto i
        (.leave queueTail))
  | leave {queueTail : Usize} (hpc : s.pc i = .leave queueTail) :
      Step s i none ((s.setWord (s.word &&& ~~~queueLockedBit)).goto i (.unpark queueTail))
  | unpark {queueTail : Usize} {d : ThreadData} (hpc : s.pc i = .unpark queueTail)
      (hd : s.mem queueTail = some d) :
      Step s i none ((s.setMem queueTail (some { d with futex := 0 })).goto i (.wake queueTail))
  | wake {queueTail : Usize} (hpc : s.pc i = .wake queueTail) :
      Step s i none (State.goto
        { s with pc := fun j => if s.pc j = .asleep queueTail then .park queueTail else s.pc j } i .idle)
  | crash {p : Usize} {e : Option Event} (hacc : Access s (s.pc i) p) (hm : s.mem p = none) :
      Step s i e (s.goto i .crash)

theorem State.deref_cases {p : Usize} {f : ThreadData → State} (h : s.deref i p f = s') :
    (∃ d, s.mem p = some d ∧ s' = f d) ∨ (s.mem p = none ∧ s' = s.goto i .crash) := by
  unfold State.deref at h
  split at h
  · exact .inl ⟨_, ‹_›, h.symm⟩
  · exact .inr ⟨‹_›, h.symm⟩

theorem stepPc_cases {spurious : Bool} {addr : Usize} (h : stepPc s i spurious addr (s.pc i) = some s') :
    Step s i (event s (.run i spurious addr)) s' := by
  cases hpc : s.pc i <;> rw [hpc] at h <;> simp only [stepPc] at h <;> simp only [event, hpc]
  case idle | holding | crash => cases h
  case lockFast =>
    split at h <;> cases h
    · exact .grabFast hpc (‹_ ∧ _›).1
    · exact .move (hpc ▸ .fast)
  case slowLoad wait =>
    cases h
    exact .move (hpc ▸ .load wait)
  case slowGrab wait state =>
    split at h <;> cases h
    · obtain ⟨rfl, -⟩ := ‹_ ∧ _›
      exact .grab hpc
    · exact .move (hpc ▸ .lost wait state)
  case slowPrepare wait state =>
    split at h <;> cases h
    obtain ⟨h0, ha, hm⟩ := ‹_ ∧ _›
    exact .prepare hpc h0 ha hm
  case slowPush wait state me =>
    split at h <;> cases h
    · rw [if_pos ‹_›]
      obtain ⟨rfl, -⟩ := ‹_ ∧ _›
      exact .push hpc
    · rw [if_neg ‹_›]
      exact .back hpc
  case park me =>
    obtain ⟨d, hd, rfl⟩ | ⟨hm, rfl⟩ := State.deref_cases (Option.some.inj h)
    · split
      · exact .move (hpc ▸ .wait hd ‹_›)
      · exact .move (hpc ▸ .up hd (not_not.1 ‹_›))
    · exact .crash (hpc ▸ .park me) hm
  case futexWait me =>
    obtain ⟨d, hd, rfl⟩ | ⟨hm, rfl⟩ := State.deref_cases (Option.some.inj h)
    · split
      · exact .move (hpc ▸ .sleep hd ‹_›)
      · exact .move (hpc ▸ .again me)
    · exact .crash (hpc ▸ .futexWait me) hm
  case asleep me =>
    split at h <;> cases h
    exact .move (hpc ▸ .interrupt me)
  case woken me =>
    cases h
    exact .woken hpc
  case unlockFast =>
    cases h
    exact .unlockFast hpc
  case unlockLoad =>
    cases h
    exact .move (hpc ▸ .look)
  case unlockTry state =>
    split at h <;> cases h
    · obtain ⟨rfl, -⟩ := ‹_ ∧ _›
      exact .unlockTry hpc
    · exact .move (hpc ▸ .missed state)
  case scan state current =>
    obtain ⟨d, hd, rfl⟩ | ⟨hm, rfl⟩ := State.deref_cases (Option.some.inj h)
    · split
      · exact .move (hpc ▸ .found hd ‹_›)
      · exact .move (hpc ▸ .behind hd (not_not.1 ‹_›))
    · exact .crash (hpc ▸ .scan state current) hm
  case link state current =>
    obtain ⟨d, hd, h⟩ | ⟨hm, rfl⟩ := State.deref_cases (Option.some.inj h)
    · obtain ⟨e, he, rfl⟩ | ⟨hm, rfl⟩ := State.deref_cases h.symm
      · exact .link hpc hd he
      · exact .crash (hpc ▸ .linkNext hd) hm
    · exact .crash (hpc ▸ .link state current) hm
  case setTail state queueTail =>
    obtain ⟨d, hd, rfl⟩ | ⟨hm, rfl⟩ := State.deref_cases (Option.some.inj h)
    · exact .setTail hpc hd
    · exact .crash (hpc ▸ .setTail state queueTail) hm
  case settle state =>
    split at h <;> cases h
    · obtain ⟨rfl, -⟩ := ‹_ ∧ _›
      exact .settle hpc
    · exact .move (hpc ▸ .rescan state)
  case newTail state queueTail =>
    obtain ⟨d, hd, rfl⟩ | ⟨hm, rfl⟩ := State.deref_cases (Option.some.inj h)
    · split
      · exact .move (hpc ▸ .only hd ‹_›)
      · exact .move (hpc ▸ .several hd ‹_›)
    · exact .crash (hpc ▸ .newTail state queueTail) hm
  case dropLast state queueTail =>
    split at h
    · cases h
      rw [if_pos ‹_›]
      obtain ⟨rfl, -⟩ := ‹_ ∧ _›
      exact .dropLast hpc
    · rw [if_neg ‹_›]
      split at h <;> cases h
      · exact .move (hpc ▸ .retry ‹_›)
      · exact .move (hpc ▸ .grown ‹_›)
  case cut state queueTail newTail =>
    obtain ⟨d, hd, rfl⟩ | ⟨hm, rfl⟩ := State.deref_cases (Option.some.inj h)
    · exact .cut hpc hd
    · exact .crash (hpc ▸ .cut state queueTail newTail) hm
  case leave queueTail =>
    cases h
    exact .leave hpc
  case unpark queueTail =>
    obtain ⟨d, hd, rfl⟩ | ⟨hm, rfl⟩ := State.deref_cases (Option.some.inj h)
    · exact .unpark hpc hd
    · exact .crash (hpc ▸ .unpark queueTail) hm
  case wake queueTail =>
    cases h
    exact .wake hpc

/-- The one inversion of `step` that every invariant is proved from. -/
theorem step_cases {a : Act} (h : step s a = some s') : ∃ i, Step s i (event s a) s' := by
  cases a with
  | lock i =>
    simp only [step] at h
    split at h <;> cases h
    exact ⟨i, .move (‹s.pc i = _› ▸ .call)⟩
  | unlock i =>
    simp only [step] at h
    split at h <;> cases h
    exact ⟨i, .move (‹s.pc i = _› ▸ .unlock)⟩
  | run i spurious addr => exact ⟨i, stepPc_cases h⟩

end CoQueue.Mutex.WordLock
