import CoQueue.Mutex.LotSteps

/-!
# When `unpark_one` is fair

A bucket's `FairTimeout` makes `unpark_one` fair once its time has come, and then sets a new time that is less
than a millisecond ahead. The loops over the queues leave it alone, and a new table starts with the time at
which it was made. So the next fair unlock of a bucket is due less than a millisecond after the clock was last
looked at, by whichever thread and for whichever bucket.
-/

namespace CoQueue.Mutex.Bucket

variable {β : Type*} [DecidableEq β] {m m' : Mem β} {b : β} {key : Key} {i : Tid} {n : Nat}

theorem Mem.setLink_fair (m : Mem β) (b : β) (p : Option Tid) (link : Link) :
    (m.setLink b p link).fairTimeout = m.fairTimeout := by
  cases link <;> rfl

theorem Mem.remove_fair {link : Link} {current : Tid} {previous : Option Tid} {r : Mem β × Bool}
    (h : m.remove b key n link current previous = some r) : r.1.fairTimeout = m.fairTimeout := by
  simp only [Mem.remove] at h
  split at h
  · cases h
    exact m.setLink_fair b _ link
  · obtain ⟨more, -, rfl⟩ := Option.map_eq_some_iff.1 h
    exact m.setLink_fair b _ link

theorem Mem.unparkLoop_fair {link : Link} {current previous : Option Tid} {r : Mem β × Option (Tid × Bool)}
    (h : m.unparkLoop b key n link current previous = some r) : r.1.fairTimeout = m.fairTimeout := by
  induction n generalizing link current previous with
  | zero => cases h
  | succ n ih =>
    cases current with
    | none =>
      cases h
      rfl
    | some current =>
      simp only [Mem.unparkLoop] at h
      split at h
      · obtain ⟨r', hr, rfl⟩ := Option.map_eq_some_iff.1 h
        exact Mem.remove_fair hr
      · exact ih h

theorem Mem.timeoutLoop_fair {link : Link} {current previous : Option Tid} {wasLast : Bool} {r : Mem β × Bool}
    (h : m.timeoutLoop b i key n link current previous wasLast = some r) : r.1.fairTimeout = m.fairTimeout := by
  induction n generalizing link current previous wasLast with
  | zero => cases h
  | succ n ih =>
    cases current with
    | none => cases h
    | some current =>
      simp only [Mem.timeoutLoop] at h
      split at h
      · obtain ⟨r', hr, rfl⟩ := Option.map_eq_some_iff.1 h
        have hfair := Mem.remove_fair hr
        exact hfair
      · exact ih h

theorem Mem.rehash_fair (m : Mem β) (b : β) (i : Tid) : (m.rehash b i).fairTimeout = m.fairTimeout := by
  simp only [Mem.rehash]
  cases m.queueTail b <;> rfl

theorem Mem.rehashLoop_fair {entry : Nat → β} {bits : Nat} {p : Option Tid}
    (h : m.rehashLoop entry bits n p = some m') : m'.fairTimeout = m.fairTimeout := by
  induction n generalizing m p with
  | zero => cases h
  | succ n ih =>
    cases p with
    | none =>
      cases h
      rfl
    | some i => exact (ih h).trans (m.rehash_fair _ i)

theorem Mem.park_fair {parkToken : Nat} {timeout : Bool} (h : m.park b i key parkToken timeout = some m') :
    m'.fairTimeout = m.fairTimeout := by
  simp only [Mem.park] at h
  split at h
  · cases h
    rfl
  · cases h
  · cases h
    rfl

theorem FairTimeout.shouldTimeout_le (f : FairTimeout) {now T : Nat} (hf : f.timeout ≤ T + 999999)
    (hnow : now ≤ T) : (f.shouldTimeout now).1.timeout ≤ T + 999999 := by
  unfold FairTimeout.shouldTimeout
  split
  · have hlt : (f.genU32.seed % 1000000).toNat < 1000000 := by
      rw [UInt32.toNat_mod]
      exact Nat.mod_lt _ (by decide)
    show now + (f.genU32.seed % 1000000).toNat ≤ T + 999999
    omega
  · exact hf

theorem Mem.unparkOne_fair {now : Nat} {callback : UnparkResult → UnparkToken}
    {r : Mem β × Option Tid × UnparkResult} (h : m.unparkOne b n now key callback = some r) :
    (r.2.1 = none ∧ r.1.fairTimeout = m.fairTimeout) ∨
      (r.2.2.beFair = ((m.fairTimeout b).shouldTimeout now).2 ∧
        r.1.fairTimeout = Function.update m.fairTimeout b ((m.fairTimeout b).shouldTimeout now).1) := by
  obtain ⟨⟨m₁, target⟩, hloop, heq⟩ := Option.map_eq_some_iff.1 h
  have hfair := Mem.unparkLoop_fair hloop
  dsimp only at hfair
  cases target with
  | none =>
    subst heq
    exact .inl ⟨rfl, hfair⟩
  | some t =>
    subst heq
    rw [← hfair]
    exact .inr ⟨rfl, rfl⟩

end CoQueue.Mutex.Bucket

namespace CoQueue.Mutex.Lot

open Bucket

variable {s s' : State} {T : Nat}

/-- What the clock says in a step that may look at it. -/
def Act.now : Act → Nat
  | .run _ x => x.now
  | _ => 0

/-- In every bucket a fair unlock is due a millisecond after `T`. -/
def Timely (T : Nat) (s : State) : Prop := ∀ b, (s.mem.fairTimeout b).timeout ≤ T + 999999

theorem Timely.congr (h : Timely T s) (hm : s'.mem.fairTimeout = s.mem.fairTimeout) : Timely T s' := by
  intro b
  rw [hm]
  exact h b

theorem Timely.alloc {now : Nat} (h : Timely T s) (hnow : now ≤ T) (a : Addr) (numThreads : Nat) :
    Timely T (s.alloc a numThreads now) := by
  intro b
  simp only [State.alloc]
  split
  · exact Nat.le_add_right_of_le hnow
  · exact h b

theorem Timely.work {i : Tid} {x : Choice} {key : Key} {b : Entry} {work : Work}
    {r : Mem Entry × Event × Option Bool} (h : Timely T s) (hnow : x.now ≤ T)
    (hw : s.work i x key b work = some r) : Timely T { s with mem := r.1 } := by
  cases work with
  | park parkToken timeout =>
    simp only [State.work] at hw
    split at hw
    · obtain ⟨m, hm, rfl⟩ := Option.map_eq_some_iff.1 hw
      exact h.congr (Mem.park_fair hm)
    · cases hw
      exact h
  | unpark =>
    obtain ⟨r', hr, rfl⟩ := Option.map_eq_some_iff.1 hw
    rcases Mem.unparkOne_fair hr with ⟨-, hf⟩ | ⟨-, hf⟩
    · exact h.congr hf
    · intro c
      show (r'.1.fairTimeout c).timeout ≤ _
      rw [hf, Function.update_apply]
      split
      · exact FairTimeout.shouldTimeout_le _ (h b) hnow
      · exact h c
  | expire =>
    simp only [State.work] at hw
    split at hw
    · cases hw
      exact h
    · obtain ⟨r', hr, rfl⟩ := Option.map_eq_some_iff.1 hw
      exact h.congr (Mem.timeoutLoop_fair hr)

theorem Timely.stepPc {i : Tid} {x : Choice} {pc : Pc} (h : Timely T s) (hnow : x.now ≤ T)
    (hs : stepPc s i x pc = some s') : Timely T s' := by
  cases pc with
  | idle => cases hs
  | count =>
    cases hs
    exact h
  | back | leave =>
    obtain ⟨bits, -, hs⟩ := Option.bind_eq_some_iff.1 hs
    cases hs
    exact h
  | get caller =>
    simp only [Lot.stepPc] at hs
    split at hs
    · obtain ⟨pc, -, rfl⟩ := Option.map_eq_some_iff.1 hs
      exact h
    · split at hs
      · cases hs
        exact h.alloc hnow x.addr loadFactor
      · cases hs
  | create caller new =>
    simp only [Lot.stepPc] at hs
    split at hs
    · obtain ⟨u, hu, hs⟩ := Option.bind_eq_some_iff.1 hs
      obtain ⟨bits, -, rfl⟩ := Option.map_eq_some_iff.1 hu
      obtain ⟨pc, -, rfl⟩ := Option.map_eq_some_iff.1 hs
      exact h
    · obtain ⟨pc, -, rfl⟩ := Option.map_eq_some_iff.1 hs
      exact h
  | growLock numThreads t b =>
    obtain ⟨bits, -, hs⟩ := Option.bind_eq_some_iff.1 hs
    split at hs
    · split at hs
      · cases hs
        exact h
      · cases hs
    · split at hs
      · split at hs
        · cases hs
          exact h.alloc hnow x.addr numThreads
        · cases hs
      · cases hs
        exact h
  | growBack | growUnlock =>
    obtain ⟨bits, -, hs⟩ := Option.bind_eq_some_iff.1 hs
    split at hs <;> (cases hs; exact h)
  | growMove t new b =>
    obtain ⟨bits, -, hs⟩ := Option.bind_eq_some_iff.1 hs
    obtain ⟨bits', -, hs⟩ := Option.bind_eq_some_iff.1 hs
    split at hs
    · obtain ⟨mem, hm, rfl⟩ := Option.map_eq_some_iff.1 hs
      exact h.congr (Mem.rehashLoop_fair hm)
    · cases hs
      exact h
  | lock key work t =>
    obtain ⟨bits, -, hs⟩ := Option.bind_eq_some_iff.1 hs
    split at hs
    · cases hs
      exact h
    · cases hs
  | check key work b =>
    simp only [Lot.stepPc] at hs
    split at hs <;> (cases hs; exact h)
  | inside key work b =>
    obtain ⟨bits, -, hs⟩ := Option.bind_eq_some_iff.1 hs
    obtain ⟨r, hw, rfl⟩ := Option.map_eq_some_iff.1 hs
    exact h.work hnow hw
  | asleep timeout =>
    simp only [Lot.stepPc] at hs
    split at hs
    · cases hs
      exact h
    · split at hs
      · cases hs
        exact h
      · cases hs

theorem Timely.step {a : Act} (h : Timely T s) (hnow : a.now ≤ T) (hs : step s a = some s') : Timely T s' := by
  cases a with
  | run i x => exact h.stepPc hnow hs
  | start | exit | park | unparkOne =>
    simp only [Lot.step] at hs
    split at hs
    · cases hs
      exact h
    · cases hs

theorem timely_init : Timely T .init := fun _ => Nat.zero_le _

end CoQueue.Mutex.Lot
