import CoQueue.Mutex.LotLoad
import CoQueue.Mutex.WordSafety

/-!
# The parking lot on its `WordLock`s

In `Lot` a thread waits until the lock of a bucket is free, and takes or releases it in one step. Here the lock of
a bucket is its `WordLock`. A thread calls `lock` or `unlock` and goes through the code of `WordLock` access by
access, and nobody asks `lot.mutex` whether the bucket is free. The parking lot goes on in the step in which `lock`
returns, and in the `fetch_sub` of `unlock`, behind which the thread has yet to leave `unlock_slow`.

The `ThreadData` of the threads that wait for a lock are in a memory of that lock: no thread waits for two.
-/

namespace CoQueue.Mutex.LotWords

open Schedule Token
open Lot (Entry Choice)

structure State where
  lot : Lot.State
  word : Entry → WordLock.State
  /-- The bucket whose `lock` or `unlock` the thread is in. -/
  call : Tid → Option Entry

def State.init : State := ⟨.init, fun _ => .init, fun _ => none⟩

/-- The bucket whose `lock` a thread calls next. -/
def takes (l : Lot.State) : Lot.Pc → Option Entry
  | .growLock _ t b => (l.table t).bind fun bits => if b < 2 ^ bits then some (t, b) else none
  | .lock key _ t => (l.table t).map fun bits => (t, hash key bits)
  | _ => none

/-- The bucket whose `unlock` a thread calls next. -/
def gives (l : Lot.State) : Lot.Pc → Option Entry
  | .growBack _ t b | .growUnlock t b =>
    (l.table t).bind fun bits => if b < 2 ^ bits then some (t, b) else none
  | .back _ _ b | .leave b _ => (l.table b.1).map fun _ => b
  | _ => none

/-- The thread has made an access inside of `lock` or `unlock`, which may return. -/
def State.put (s : State) (i : Tid) (b : Entry) (w : WordLock.State) : State :=
  { s with
    word := Function.update s.word b w
    call := Function.update s.call i (if w.pc i = .idle ∨ w.pc i = .holding then none else some b) }

/-- `Bucket::new` makes a lock for every bucket of a new table. -/
def State.setLot (s : State) (lot : Lot.State) : State :=
  { s with
    lot
    word := fun b => if s.lot.table b.1 = none ∧ lot.table b.1 ≠ none then .init else s.word b }

inductive Act
  | lot (a : Lot.Act)
  | call (i : Tid)
  | run (i : Tid) (spurious : Bool) (addr : WordLock.Usize) (x : Choice)

def step (s : State) : Act → Option State
  | .lot a =>
    if s.call a.thread = none ∧ takes s.lot (s.lot.pc a.thread) = none ∧ gives s.lot (s.lot.pc a.thread) = none then
      (Lot.step s.lot a).map s.setLot
    else none
  | .call i =>
    if s.call i = none then
      match takes s.lot (s.lot.pc i), gives s.lot (s.lot.pc i) with
      | some b, _ => (WordLock.step (s.word b) (.lock i)).map (s.put i b)
      | none, some b => (WordLock.step (s.word b) (.unlock i)).map (s.put i b)
      | none, none => none
    else none
  | .run i spurious addr x => (s.call i).bind fun b => (s.lot.table b.1).bind fun _ =>
    (WordLock.step (s.word b) (.run i spurious addr)).bind fun w =>
      -- `lock` returns, whoever the parking lot takes to be at the bucket
      if w.pc i = .holding then
        (Lot.step { s.lot with mutex := Function.update s.lot.mutex b none } (.run i x)).map fun lot =>
          { s.put i b w with lot }
      -- `fetch_sub`
      else if (s.word b).pc i = .unlockFast then
        (Lot.step s.lot (.run i x)).map fun lot => { s.put i b w with lot }
      else some (s.put i b w)

variable {s s' : State} {i j : Tid} {b : Entry}

/-! ### Where a thread is in the code of a lock -/

inductive Stage
  | out
  | taking
  | has
  | giving
  | leaving
deriving DecidableEq

def stage : WordLock.Pc → Stage
  | .idle => .out
  | .lockFast | .slowLoad _ | .slowGrab _ _ | .slowPrepare _ _ | .slowPush _ _ _ | .park _ | .futexWait _
  | .asleep _ | .woken _ => .taking
  | .holding => .has
  | .unlockFast => .giving
  | _ => .leaving

/-- The stages in which a thread is in a call. -/
def Stage.calls : Stage → Bool
  | .out | .has => false
  | _ => true

theorem calls_iff (pc : WordLock.Pc) : (stage pc).calls = true ↔ ¬(pc = .idle ∨ pc = .holding) := by
  cases pc with
  | idle => exact iff_of_false Bool.false_ne_true (not_not.2 (.inl rfl))
  | holding => exact iff_of_false Bool.false_ne_true (not_not.2 (.inr rfl))
  | _ => exact iff_of_true rfl (by rintro (h | h) <;> cases h)

theorem holds_iff (pc : WordLock.Pc) : 0 < pc.holds ↔ stage pc = .has ∨ stage pc = .giving := by
  cases pc with
  | holding => exact iff_of_true Nat.one_pos (.inl rfl)
  | unlockFast => exact iff_of_true Nat.one_pos (.inr rfl)
  | _ => exact iff_of_false (Nat.lt_irrefl 0) (by rintro (h | h) <;> cases h)

section
variable {w w' : WordLock.State} {e : Option WordLock.Event}

theorem stage_slowLoop (wait : Nat) (state : WordLock.Usize) : stage (WordLock.slowLoop wait state) = .taking := by
  rcases WordLock.slowLoop_cases wait state with ⟨-, h⟩ | h | ⟨-, h⟩ <;> exact congrArg stage h

theorem stage_unlockLoop (state : WordLock.Usize) :
    stage (WordLock.unlockLoop state) = .leaving ∨ stage (WordLock.unlockLoop state) = .out := by
  rcases WordLock.unlockLoop_cases state with ⟨-, h⟩ | ⟨-, -, h⟩
  · exact .inr (congrArg stage h)
  · exact .inl (congrArg stage h)

/-- What an access of thread `i` makes of its stage. -/
inductive Next : Stage → Stage → Prop
  | stay (stage : Stage) (h : stage = .taking ∨ stage = .leaving) : Next stage stage
  | got : Next .taking .has
  | gave {stage : Stage} (h : stage = .leaving ∨ stage = .out) : Next .giving stage
  | left : Next .leaving .out

theorem next_of_move {pc pc' : WordLock.Pc} (hm : WordLock.Moves w pc pc') (hc : (stage pc).calls = true) :
    Next (stage pc) (stage pc') := by
  cases hm with
  | call | unlock => cases hc
  | load | lost =>
    rw [stage_slowLoop]
    exact .stay _ (.inl rfl)
  | fast | wait | up | sleep | again | interrupt => exact .stay _ (.inl rfl)
  | look | missed =>
    rcases stage_unlockLoop w.word with h | h <;> rw [h]
    · exact .stay _ (.inr rfl)
    · exact .left
  | found | behind | rescan | only | several | retry | grown => exact .stay _ (.inr rfl)

theorem next_of_step (hs : WordLock.Step w i e w') (hc : (stage (w.pc i)).calls = true)
    (hcrash : w'.pc i ≠ .crash) : Next (stage (w.pc i)) (stage (w'.pc i)) := by
  have hgoto : ∀ (w : WordLock.State) (pc : WordLock.Pc), (w.goto i pc).pc i = pc :=
    fun _ _ => Function.update_self ..
  cases hs with
  | move hm =>
    rw [hgoto]
    exact next_of_move hm hc
  | grabFast hpc | grab hpc =>
    rw [hgoto, hpc]
    exact .got
  | prepare hpc | push hpc =>
    rw [hgoto, hpc]
    exact .stay _ (.inl rfl)
  | back hpc | woken hpc =>
    rw [hgoto, hpc, stage_slowLoop]
    exact .stay _ (.inl rfl)
  | unlockFast hpc =>
    rw [hgoto, hpc]
    split
    · exact .gave (.inr rfl)
    · exact .gave (.inl rfl)
  | unlockTry hpc | link hpc | dropLast hpc | cut hpc | leave hpc | unpark hpc =>
    rw [hgoto, hpc]
    exact .stay _ (.inr rfl)
  | setTail hpc =>
    rw [hgoto, hpc]
    split <;> exact .stay _ (.inr rfl)
  | settle hpc | wake hpc =>
    rw [hgoto, hpc]
    exact .left
  | crash => exact absurd (hgoto _ _) hcrash

/-- Another thread at most wakes up. -/
theorem stage_other (hs : WordLock.Step w i e w') (hji : j ≠ i) : stage (w'.pc j) = stage (w.pc j) := by
  have hgoto : ∀ (w : WordLock.State) (pc : WordLock.Pc), stage ((w.goto i pc).pc j) = stage (w.pc j) :=
    fun _ _ => by rw [WordLock.State.goto_pc, Function.update_of_ne hji]
  cases hs with
  | wake =>
    rw [hgoto]
    dsimp only
    split
    · rename_i h
      rw [h]
      rfl
    · rfl
  | _ => exact hgoto _ _

theorem holds_unique (h : Run WordLock.step Any .init w) (hi : 0 < (w.pc i).holds) (hj : 0 < (w.pc j).holds) :
    i = j := by
  obtain ⟨fresh, done, hinv⟩ := WordLock.inv_of_run h
  exact hinv.lock.unique hi hj

theorem ne_crash (h : Run WordLock.step Any .init w) (i : Tid) : w.pc i ≠ .crash := by
  obtain ⟨fresh, done, hinv⟩ := WordLock.inv_of_run h
  intro hpc
  have hfact := hinv.fact i
  rwa [hpc] at hfact

end

/-! ### Taking and giving in the parking lot -/

section
variable {l l' : Lot.State} {e : Option Lot.Event} {pc : Lot.Pc}

theorem table_of_takes (h : takes l pc = some b) : pc.old = some b.1 := by
  cases pc with
  | growLock n t c =>
    obtain ⟨bits, -, h⟩ := Option.bind_eq_some_iff.1 h
    split at h <;> cases h
    rfl
  | lock key work t =>
    obtain ⟨bits, -, rfl⟩ := Option.map_eq_some_iff.1 h
    rfl
  | _ => cases h

theorem table_of_gives (h : gives l pc = some b) : pc.old = some b.1 := by
  cases pc with
  | growBack n t c | growUnlock t c =>
    obtain ⟨bits, -, h⟩ := Option.bind_eq_some_iff.1 h
    split at h <;> cases h
    rfl
  | back key work c | leave c sleep =>
    obtain ⟨bits, -, rfl⟩ := Option.map_eq_some_iff.1 h
    rfl
  | _ => cases h

theorem takes_congr (h : takes l pc = some b) (ht : l'.table b.1 = l.table b.1) : takes l' pc = some b := by
  have hold := table_of_takes h
  cases pc with
  | growLock n t c | lock key work t =>
    cases hold
    rw [← h, takes, takes, ht]
  | _ => cases h

theorem gives_congr (h : gives l pc = some b) (ht : l'.table b.1 = l.table b.1) : gives l' pc = some b := by
  have hold := table_of_gives h
  cases pc with
  | growBack n t c | growUnlock t c =>
    cases hold
    rw [← h, gives, gives, ht]
  | back key work c | leave c sleep =>
    have hc : c.1 = b.1 := Option.some.inj hold
    rw [← h, gives, gives, hc, ht]
  | _ => cases h

/-- The parking lot goes on when the lock has been taken. -/
theorem take_eq (h : takes l (l.pc i) = some b) (hm : l.mutex b = none) (x : Choice) :
    ∃ pc, Lot.step l (.run i x) = some ((l.lockBucket i b).goto i pc) ∧ pc.new = none := by
  show ∃ pc, Lot.stepPc l i x (l.pc i) = _ ∧ _
  cases hpc : l.pc i <;> rw [hpc] at h <;> try cases h
  case growLock n t c =>
    obtain ⟨bits, hb, h⟩ := Option.bind_eq_some_iff.1 h
    split at h <;> cases h
    refine ⟨.growLock n t (c + 1), ?_, rfl⟩
    rw [Lot.stepPc, hb, Option.bind_some, if_pos ‹_›, if_pos hm]
  case lock key work t =>
    obtain ⟨bits, hb, rfl⟩ := Option.map_eq_some_iff.1 h
    refine ⟨.check key work (t, hash key bits), ?_, rfl⟩
    rw [Lot.stepPc, hb, Option.bind_some, if_pos hm]

theorem give_eq (h : gives l (l.pc i) = some b) (x : Choice) :
    ∃ pc, Lot.step l (.run i x) = some ((l.unlockBucket b).goto i pc) ∧ pc.new = none := by
  show ∃ pc, Lot.stepPc l i x (l.pc i) = _ ∧ _
  cases hpc : l.pc i <;> rw [hpc] at h <;> try cases h
  case growBack n t c =>
    obtain ⟨bits, hb, h⟩ := Option.bind_eq_some_iff.1 h
    split at h <;> cases h
    refine ⟨.growBack n t (c + 1), ?_, rfl⟩
    rw [Lot.stepPc, hb, Option.bind_some, if_pos ‹_›]
  case growUnlock t c =>
    obtain ⟨bits, hb, h⟩ := Option.bind_eq_some_iff.1 h
    split at h <;> cases h
    refine ⟨.growUnlock t (c + 1), ?_, rfl⟩
    rw [Lot.stepPc, hb, Option.bind_some, if_pos ‹_›]
  case back key work c =>
    obtain ⟨bits, hb, rfl⟩ := Option.map_eq_some_iff.1 h
    refine ⟨.get (work.caller key), ?_, rfl⟩
    rw [Lot.stepPc, hb, Option.bind_some]
  case leave c sleep =>
    obtain ⟨bits, hb, rfl⟩ := Option.map_eq_some_iff.1 h
    cases sleep with
    | none => exact ⟨.idle, by simp only [Lot.stepPc, hb, Option.bind_some], rfl⟩
    | some timeout => exact ⟨.asleep timeout, by simp only [Lot.stepPc, hb, Option.bind_some], rfl⟩

/-- Any other step leaves the locks alone, but for those of a table that it makes. -/
theorem mutex_quiet (hs : Lot.Step l i e l') (ht : takes l (l.pc i) = none) (hg : gives l (l.pc i) = none)
    (b : Entry) : l'.mutex b = if l.table b.1 = none ∧ l'.table b.1 ≠ none then none else l.mutex b := by
  have hsame : ∀ {m}, l'.table = l.table → m = l.mutex b →
      m = if l.table b.1 = none ∧ l'.table b.1 ≠ none then none else l.mutex b := by
    intro m htable hm
    rw [htable, if_neg fun h => h.2 h.1]
    exact hm
  have hmade : ∀ {a n now pc}, l.table a = none → l' = (l.alloc a n now).goto i pc →
      l'.mutex b = if l.table b.1 = none ∧ l'.table b.1 ≠ none then none else l.mutex b := by
    rintro a n now pc ha rfl
    show (if b.1 = a then none else l.mutex b) =
      if l.table b.1 = none ∧ Function.update l.table a (some (hashBits n)) b.1 ≠ none then none else l.mutex b
    by_cases hb : b.1 = a
    · rw [if_pos hb, if_pos]
      rw [hb, Function.update_self]
      exact ⟨ha, Option.some_ne_none _⟩
    · rw [if_neg hb, Function.update_of_ne hb, if_neg fun h => h.2 h.1]
  cases hs with
  | alloc hpc hh ha => exact hmade ha rfl
  | growAlloc hpc hb hle hh ha => exact hmade ha rfl
  | @lost caller t new pc hpc =>
    refine (if_neg ?_).symm
    rintro ⟨hnone, hne⟩
    refine hne ?_
    show Function.update l.table new none b.1 = none
    by_cases hb : b.1 = new
    · rw [hb, Function.update_self]
    · rw [Function.update_of_ne hb]
      exact hnone
  | acquire ha =>
    generalize l.pc i = pc at ha ht
    cases ha with
    | growLock hb hlt =>
      rw [takes, hb, Option.bind_some, if_pos hlt] at ht
      cases ht
    | lock hb =>
      rw [takes, hb] at ht
      cases ht
  | release hr =>
    generalize l.pc i = pc at hr hg
    cases hr with
    | growBack hb hlt | growUnlock hb hlt =>
      rw [gives, hb, Option.bind_some, if_pos hlt] at hg
      cases hg
    | back _ _ hb | sleep _ hb | leave hb =>
      obtain ⟨bits, hb⟩ := Option.ne_none_iff_exists'.1 hb
      rw [gives, hb] at hg
      cases hg
  | _ => exact hsame rfl rfl

end

end CoQueue.Mutex.LotWords
