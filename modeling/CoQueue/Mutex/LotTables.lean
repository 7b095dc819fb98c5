import CoQueue.Mutex.LotSteps

/-!
# Tables and locks of the parking lot

`Locks s`: every table that a thread still refers to exists, a table that has not been published is known to
one thread only, and the lock of a bucket is held by the thread whose place in the code says so. A thread that
works on a queue or moves the queues has found its table in `HASHTABLE` after it had locked; `HASHTABLE` has not
changed since, for a thread that publishes a new table holds all locks of the old one.
-/

namespace CoQueue.Mutex.Lot

open Bucket Schedule

variable {s s' : State} {i j : Tid} {pc : Pc} {t a : Addr} {b : Entry} {e : Option Event}

/-- The table a thread has got from `get_hashtable`. -/
def Pc.old : Pc → Option Addr
  | .growLock _ t _ | .growBack _ t _ | .growMove t _ _ | .growUnlock t _ | .lock _ _ t => some t
  | .check _ _ b | .back _ _ b | .inside _ _ b | .leave b _ => some b.1
  | .idle | .count | .get _ | .create _ _ | .asleep _ => none

/-- The table a thread has not published yet. -/
def Pc.new : Pc → Option Addr
  | .create _ new | .growMove _ new _ => some new
  | _ => none

/-- The bucket a thread has locked for a key. -/
def Pc.entry : Pc → Option Entry
  | .check _ _ b | .back _ _ b | .inside _ _ b | .leave b _ => some b
  | _ => none

/-- The table a thread relies on to be the current one. -/
def Pc.current : Pc → Option Addr
  | .inside _ _ b | .leave b _ => some b.1
  | .growMove t _ _ => some t
  | _ => none

def Pc.Holds (table : Addr → Option Nat) : Pc → Entry → Prop
  | .growLock _ t b, e => e.1 = t ∧ e.2 < b
  | .growBack _ t b, e | .growUnlock t b, e => e.1 = t ∧ b ≤ e.2 ∧ ∃ bits, table t = some bits ∧ e.2 < 2 ^ bits
  | .growMove t _ _, e => e.1 = t ∧ ∃ bits, table t = some bits ∧ e.2 < 2 ^ bits
  | .check _ _ b, e | .back _ _ b, e | .inside _ _ b, e | .leave b _, e => e = b
  | .idle, _ | .count, _ | .get _, _ | .create _ _, _ | .lock _ _ _, _ | .asleep _, _ => False

/-- What a place in the code says about the size of the table. -/
def Pc.Fits (table : Addr → Option Nat) : Pc → Prop
  | .growLock _ t b => ∀ bits, table t = some bits → b ≤ 2 ^ bits
  | .check key _ b | .inside key _ b => ∃ bits, table b.1 = some bits ∧ b.2 = hash key bits
  | .back _ _ b | .leave b _ => ∃ bits, table b.1 = some bits ∧ b.2 < 2 ^ bits
  | _ => True

structure Locks (s : State) : Prop where
  cur : ∀ t, s.hashtable = some t → s.table t ≠ none
  old : ∀ i t, (s.pc i).old = some t → s.table t ≠ none
  new : ∀ i a, (s.pc i).new = some a → s.table a ≠ none ∧ s.hashtable ≠ some a
  fresh : ∀ i j a, (s.pc i).new = some a → (s.pc j).old ≠ some a
  newInj : ∀ a i j, (s.pc i).new = some a → (s.pc j).new = some a → i = j
  mutex : ∀ i b, s.mutex b = some i ↔ (s.pc i).Holds s.table b
  fits : ∀ i, (s.pc i).Fits s.table
  current : ∀ i t, (s.pc i).current = some t → s.hashtable = some t

theorem Pc.old_of_holds {table : Addr → Option Nat} (h : pc.Holds table b) : pc.old = some b.1 := by
  cases pc <;> first
    | exact congrArg some h.1.symm
    | exact congrArg (fun e : Entry => some e.1) (Eq.symm h)
    | exact h.elim

theorem Pc.Holds.congr {table table' : Addr → Option Nat} (h : ∀ t, pc.old = some t → table' t = table t) :
    pc.Holds table' b ↔ pc.Holds table b := by
  cases pc <;> first
    | exact Iff.rfl
    | simp only [Pc.Holds, h _ rfl]

theorem Pc.Fits.congr {table table' : Addr → Option Nat} (h : ∀ t, pc.old = some t → table' t = table t) :
    pc.Fits table' ↔ pc.Fits table := by
  cases pc <;> first
    | exact Iff.rfl
    | simp only [Pc.Fits, h _ rfl]

theorem Locks.entry_lt (h : Locks s) (hb : (s.pc i).entry = some b) :
    ∃ bits, s.table b.1 = some bits ∧ b.2 < 2 ^ bits := by
  have hfits := h.fits i
  cases hpc : s.pc i <;> rw [hpc] at hb hfits <;> cases hb
  case check =>
    obtain ⟨bits, ht, heq⟩ := hfits
    exact ⟨bits, ht, heq ▸ hash_lt _ _⟩
  case inside =>
    obtain ⟨bits, ht, heq⟩ := hfits
    exact ⟨bits, ht, heq ▸ hash_lt _ _⟩
  case back => exact hfits
  case leave => exact hfits

theorem Locks.holds_inj (h : Locks s) (hi : (s.pc i).Holds s.table b) (hj : (s.pc j).Holds s.table b) : i = j :=
  Option.some.inj (((h.mutex i b).2 hi).symm.trans ((h.mutex j b).2 hj))

/-- While a thread moves the queues of a table, no other thread relies on the table. -/
theorem Locks.mover (h : Locks s) {new : Addr} {c : Nat} (hi : s.pc i = .growMove t new c)
    (hj : (s.pc j).current ≠ none) : j = i := by
  obtain ⟨t', ht'⟩ := Option.ne_none_iff_exists'.1 hj
  have htt : some t' = some t :=
    (h.current j t' ht').symm.trans (h.current i t (by rw [hi]; rfl))
  cases htt
  obtain ⟨bits, hbits⟩ := Option.ne_none_iff_exists'.1 (h.old i t (by rw [hi]; rfl))
  -- both hold the lock of a bucket of the table
  obtain ⟨c, hc, hholds⟩ : ∃ c, c < 2 ^ bits ∧ (s.pc j).Holds s.table (t, c) := by
    cases hpc : s.pc j <;> rw [hpc] at ht' <;> cases ht'
    case growMove => exact ⟨0, Nat.two_pow_pos _, rfl, bits, hbits, Nat.two_pow_pos _⟩
    case inside b =>
      obtain ⟨bits', ht, hlt⟩ := h.entry_lt (i := j) (b := b) (by rw [hpc]; rfl)
      exact ⟨b.2, by rwa [Option.some.inj (ht.symm.trans hbits)] at hlt, rfl⟩
    case leave b _ =>
      obtain ⟨bits', ht, hlt⟩ := h.entry_lt (i := j) (b := b) (by rw [hpc]; rfl)
      exact ⟨b.2, by rwa [Option.some.inj (ht.symm.trans hbits)] at hlt, rfl⟩
  exact h.holds_inj hholds (by rw [hi]; exact ⟨rfl, bits, hbits, hc⟩)

/-! ### One thread moves -/

/-- A table that exists and is no unpublished one of another thread. -/
def Known (s : State) (i : Tid) (t : Addr) : Prop := s.table t ≠ none ∧ ∀ j, j ≠ i → (s.pc j).new ≠ some t

/-- No other thread refers to the table. -/
def Own (s : State) (i : Tid) (a : Addr) : Prop :=
  s.hashtable ≠ some a ∧ ∀ j, j ≠ i → (s.pc j).old ≠ some a ∧ (s.pc j).new ≠ some a

theorem Locks.known_cur (h : Locks s) (ht : s.hashtable = some t) (i : Tid) : Known s i t :=
  ⟨h.cur t ht, fun j _ hj => (h.new j t hj).2 ht⟩

theorem Locks.known_old (h : Locks s) (ht : (s.pc i).old = some t) : Known s i t :=
  ⟨h.old i t ht, fun j _ hj => h.fresh j i t hj ht⟩

theorem Locks.known_new (h : Locks s) (ht : (s.pc i).new = some t) : Known s i t :=
  ⟨(h.new i t ht).1, fun j hj hj' => hj (h.newInj t j i hj' ht)⟩

theorem Locks.own_new (h : Locks s) (ha : (s.pc i).new = some a) : Own s i a :=
  ⟨(h.new i a ha).2, fun j hj => ⟨h.fresh i j a ha, fun hj' => hj (h.newInj a j i hj' ha)⟩⟩

/-- Thread `i` moves to `pc`; it may free or publish its own table. -/
theorem Locks.update (h : Locks s) (hpc : s'.pc = Function.update s.pc i pc)
    (hkeep : ∀ t, s.table t ≠ none → (s.pc i).new ≠ some t → s'.table t = s.table t)
    (hht : ∀ t, s'.hashtable = some t → Known s i t ∧ s'.table t ≠ none)
    (hold : ∀ t, pc.old = some t → Known s i t ∧ s'.table t ≠ none)
    (hnew : ∀ a, pc.new = some a → Own s i a ∧ s'.table a ≠ none ∧ s'.hashtable ≠ some a ∧ pc.old ≠ some a)
    (hmutex : ∀ j b, s'.mutex b = some j ↔ (Function.update s.pc i pc j).Holds s'.table b)
    (hfits : pc.Fits s'.table) (hcur : ∀ t, pc.current = some t → s'.hashtable = some t)
    (hothers : ∀ j, j ≠ i → ∀ t, (s.pc j).current = some t → s'.hashtable = some t) : Locks s' := by
  -- the tables of the other threads stay as they are
  have hkold : ∀ j, j ≠ i → ∀ t, (s.pc j).old = some t → s'.table t = s.table t :=
    fun j _ t hj => hkeep t (h.old j t hj) fun hi => h.fresh i j t hi hj
  have hknew : ∀ j, j ≠ i → ∀ a, (s.pc j).new = some a → s'.table a = s.table a :=
    fun j hji a hj => hkeep a (h.new j a hj).1 fun hi => hji (h.newInj a j i hj hi)
  constructor
  · exact fun t ht => (hht t ht).2
  · intro j t hj
    rw [hpc] at hj
    rcases at_update (P := fun pc : Pc => pc.old = some t) hj with ⟨-, hj⟩ | ⟨hji, hj⟩
    · exact (hold t hj).2
    · rw [hkold j hji t hj]
      exact h.old j t hj
  · intro j a hj
    rw [hpc] at hj
    rcases at_update (P := fun pc : Pc => pc.new = some a) hj with ⟨-, hj⟩ | ⟨hji, hj⟩
    · exact ⟨(hnew a hj).2.1, (hnew a hj).2.2.1⟩
    · rw [hknew j hji a hj]
      exact ⟨(h.new j a hj).1, fun ht => (hht a ht).1.2 j hji hj⟩
  · intro j k a hj hk
    rw [hpc] at hj hk
    rcases at_update (P := fun pc : Pc => pc.new = some a) hj with ⟨-, hj⟩ | ⟨hji, hj⟩ <;>
      rcases at_update (P := fun pc : Pc => pc.old = some a) hk with ⟨-, hk⟩ | ⟨hki, hk⟩
    · exact (hnew a hj).2.2.2 hk
    · exact ((hnew a hj).1.2 k hki).1 hk
    · exact (hold a hk).1.2 j hji hj
    · exact h.fresh j k a hj hk
  · intro a j k hj hk
    rw [hpc] at hj hk
    rcases at_update (P := fun pc : Pc => pc.new = some a) hj with ⟨hji, hj⟩ | ⟨hji, hj⟩ <;>
      rcases at_update (P := fun pc : Pc => pc.new = some a) hk with ⟨hki, hk⟩ | ⟨hki, hk⟩
    · exact hji.trans hki.symm
    · exact absurd hk ((hnew a hj).1.2 k hki).2
    · exact absurd hj ((hnew a hk).1.2 j hji).2
    · exact h.newInj a j k hj hk
  · intro j b
    rw [hpc]
    exact hmutex j b
  · intro j
    rw [hpc]
    by_cases hji : j = i
    · subst hji
      rw [Function.update_self]
      exact hfits
    · rw [Function.update_of_ne hji]
      exact (Pc.Fits.congr (hkold j hji)).2 (h.fits j)
  · intro j t hj
    rw [hpc] at hj
    rcases at_update (P := fun pc : Pc => pc.current = some t) hj with ⟨-, hj⟩ | ⟨hji, hj⟩
    · exact hcur t hj
    · exact hothers j hji t hj

theorem Locks.same (h : Locks s) (hpc : s'.pc = Function.update s.pc i pc) (htab : s'.table = s.table)
    (hht : s'.hashtable = s.hashtable) (hold : ∀ t, pc.old = some t → Known s i t)
    (hnew : ∀ a, pc.new = some a → (s.pc i).new = some a ∧ pc.old ≠ some a)
    (hmutex : ∀ j b, s'.mutex b = some j ↔ (Function.update s.pc i pc j).Holds s.table b)
    (hfits : pc.Fits s.table) (hcur : ∀ t, pc.current = some t → s.hashtable = some t) : Locks s' := by
  refine h.update hpc ?_ ?_ ?_ ?_ ?_ ?_ ?_ ?_
  · exact fun t _ _ => by rw [htab]
  · intro t ht
    rw [hht] at ht
    rw [htab]
    exact ⟨h.known_cur ht i, h.cur t ht⟩
  · intro t ht
    rw [htab]
    exact ⟨hold t ht, (hold t ht).1⟩
  · intro a ha
    obtain ⟨hn, ho⟩ := hnew a ha
    rw [htab, hht]
    exact ⟨h.own_new hn, (h.new i a hn).1, (h.new i a hn).2, ho⟩
  · rwa [htab]
  · rwa [htab]
  · rwa [hht]
  · intro j _ t hj
    rw [hht]
    exact h.current j t hj

theorem Locks.mutex_same (h : Locks s) (hpc : ∀ b, pc.Holds s.table b ↔ (s.pc i).Holds s.table b) (j : Tid)
    (b : Entry) : s.mutex b = some j ↔ (Function.update s.pc i pc j).Holds s.table b := by
  rw [h.mutex]
  by_cases hji : j = i
  · subst hji
    rw [Function.update_self, hpc]
  · rw [Function.update_of_ne hji]

theorem Locks.alloc (h : Locks s) (ha : s.table a = none) (numThreads now : Nat) :
    Locks (s.alloc a numThreads now) := by
  have hne : ∀ t, s.table t ≠ none → (s.alloc a numThreads now).table t = s.table t :=
    fun t ht => Function.update_of_ne (by rintro rfl; exact ht ha) _ _
  have hold : ∀ j t, (s.pc j).old = some t → (s.alloc a numThreads now).table t = s.table t :=
    fun j t hj => hne t (h.old j t hj)
  constructor
  · intro t ht
    rw [hne t (h.cur t ht)]
    exact h.cur t ht
  · intro j t hj
    rw [hold j t hj]
    exact h.old j t hj
  · intro j t hj
    rw [hne t (h.new j t hj).1]
    exact h.new j t hj
  · exact h.fresh
  · exact h.newInj
  · intro j b
    rw [show (s.alloc a numThreads now).pc = s.pc from rfl, Pc.Holds.congr (hold j), ← h.mutex]
    show (if b.1 = a then none else s.mutex b) = some j ↔ _
    split
    · rename_i hb
      refine ⟨by rintro ⟨⟩, fun hm => ?_⟩
      have hold := h.old j b.1 (Pc.old_of_holds ((h.mutex j b).1 hm))
      rw [hb] at hold
      exact absurd ha hold
    · exact Iff.rfl
  · intro j
    exact (Pc.Fits.congr (hold j)).2 (h.fits j)
  · exact h.current

theorem Locks.unknown (h : Locks s) (ha : s.table a = none) (i : Tid) : Own s i a ∧ (s.pc i).old ≠ some a :=
  ⟨⟨fun ht => h.cur a ht ha, fun j _ => ⟨fun hj => h.old j a hj ha, fun hj => (h.new j a hj).1 ha⟩⟩,
    fun hi => h.old i a hi ha⟩

theorem Locks.take (h : Locks s) (ha : s.table a = none) (numThreads now : Nat) (hnew : pc.new = some a)
    (hold : ∀ t, pc.old = some t → (s.pc i).old = some t)
    (hholds : ∀ b, pc.Holds s.table b ↔ (s.pc i).Holds s.table b) (hfits : ∀ table, pc.Fits table)
    (hcur : ∀ t, pc.current = some t → s.hashtable = some t) :
    Locks ((s.alloc a numThreads now).goto i pc) := by
  have h' := h.alloc ha numThreads now
  obtain ⟨hown, hne⟩ := h.unknown ha i
  have hkeep : ∀ t, (s.pc i).old = some t → (s.alloc a numThreads now).table t = s.table t :=
    fun t ht => Function.update_of_ne (by rintro rfl; exact h.old i t ht ha) _ _
  refine h'.update rfl (fun _ _ _ => rfl) ?_ ?_ ?_ ?_ (hfits _) hcur fun j _ => h'.current j
  · intro t ht
    exact ⟨h'.known_cur ht i, h'.cur t ht⟩
  · intro t ht
    exact ⟨h'.known_old (hold t ht), h'.old i t (hold t ht)⟩
  · intro t ht
    cases ht.symm.trans hnew
    refine ⟨hown, ?_, hown.1, fun ho => hne (hold a ho)⟩
    rw [show ((s.alloc a numThreads now).goto i pc).table a = some (hashBits numThreads) from
      Function.update_self ..]
    exact Option.some_ne_none _
  · refine h'.mutex_same fun b => ?_
    rw [Pc.Holds.congr fun t ht => hkeep t (hold t ht), hholds, show (s.alloc a numThreads now).pc = s.pc from rfl,
      Pc.Holds.congr hkeep]

/-! ### A step -/

theorem got_spec {caller : Caller} (h : s.got i t caller = some pc) :
    pc.new = none ∧ pc.current = none ∧ (∀ t', pc.old = some t' → t' = t) ∧ (∀ table b, ¬pc.Holds table b) ∧
      ∀ table, pc.Fits table := by
  cases caller with
  | grow numThreads =>
    obtain ⟨bits, -, rfl⟩ := Option.map_eq_some_iff.1 h
    split
    · exact ⟨rfl, rfl, by rintro t' ⟨⟩, fun _ _ => id, fun _ => trivial⟩
    · exact ⟨rfl, rfl, by rintro t' ⟨⟩; rfl, fun _ _ hb => Nat.not_lt_zero _ hb.2, fun _ _ _ => Nat.zero_le _⟩
  | lock key work =>
    cases h
    exact ⟨rfl, rfl, by rintro t' ⟨⟩; rfl, fun _ _ => id, fun _ => trivial⟩
  | relock =>
    cases h
    exact ⟨rfl, rfl, by rintro t' ⟨⟩; rfl, fun _ _ => id, fun _ => trivial⟩

theorem Locks.move (h : Locks s) (hm : Moves s i (s.pc i) pc) : Locks (s.goto i pc) := by
  -- the place is left for one with the same locks and the same table, or none
  suffices (∀ t, pc.old = some t → Known s i t) ∧ pc.new = none ∧
      (∀ b, pc.Holds s.table b ↔ (s.pc i).Holds s.table b) ∧ pc.Fits s.table ∧
      ∀ t, pc.current = some t → s.hashtable = some t by
    obtain ⟨hold, hnew, hholds, hfits, hcur⟩ := this
    exact h.same rfl rfl rfl hold (fun a ha => by rw [hnew] at ha; cases ha) (h.mutex_same hholds) hfits hcur
  have hfits := h.fits i
  have hknown : ∀ t, (s.pc i).old = some t → Known s i t := fun t => h.known_old
  generalize s.pc i = pc₀ at hm hfits hknown
  cases hm with
  | start | park | unparkOne | expired =>
    exact ⟨by rintro t ⟨⟩, rfl, fun _ => Iff.rfl, trivial, by rintro t ⟨⟩⟩
  | get ht hg =>
    obtain ⟨hnew, hcur, hold, hholds, hfits⟩ := got_spec hg
    refine ⟨fun t' ht' => ?_, hnew, fun b => ⟨fun hb => (hholds _ b hb).elim, False.elim⟩, hfits _, ?_⟩
    · rw [hold t' ht']
      exact h.known_cur ht i
    · rw [hcur]
      rintro t ⟨⟩
  | @stale numThreads c bits t hb hle ht =>
    refine ⟨hknown, rfl, fun b => ?_, trivial, by rintro t ⟨⟩⟩
    -- all buckets are locked
    have hc : c = 2 ^ bits := Nat.le_antisymm (hfits bits hb) hle
    constructor
    · rintro ⟨h1, -, bits', hb', hlt⟩
      rw [Option.some.inj (hb.symm.trans hb')] at hc
      exact ⟨h1, hc ▸ hlt⟩
    · rintro ⟨h1, hlt⟩
      exact ⟨h1, Nat.zero_le _, bits, hb, hc ▸ hlt⟩
  | @again numThreads c bits t hb hle | @grown c bits t hb hle =>
    refine ⟨by rintro t ⟨⟩, rfl, fun b => ⟨False.elim, ?_⟩, trivial, by rintro t ⟨⟩⟩
    rintro ⟨-, hcb, bits', hb', hlt⟩
    rw [Option.some.inj (hb'.symm.trans hb)] at hlt
    omega
  | enter ht hk =>
    refine ⟨hknown, rfl, fun b => Iff.rfl, hfits, ?_⟩
    rintro t ⟨⟩
    exact ht
  | wrong =>
    obtain ⟨bits, ht, heq⟩ := hfits
    exact ⟨hknown, rfl, fun b => Iff.rfl, ⟨bits, ht, heq ▸ hash_lt _ _⟩, by rintro t ⟨⟩⟩

theorem Locks.acquire (h : Locks s) (ha : Acquires s (s.pc i) b pc) (hb : s.mutex b = none) :
    Locks ((s.lockBucket i b).goto i pc) := by
  suffices (∀ t, pc.old = some t → (s.pc i).old = some t) ∧ pc.new = none ∧
      (∀ b', pc.Holds s.table b' ↔ b' = b ∨ (s.pc i).Holds s.table b') ∧ pc.Fits s.table ∧
      pc.current = none by
    obtain ⟨hold, hnew, hholds, hfits, hcur⟩ := this
    refine h.same rfl rfl rfl (fun t ht => h.known_old (hold t ht)) (fun a ha => by rw [hnew] at ha; cases ha)
      (fun j b' => ?_) hfits fun t ht => by rw [hcur] at ht; cases ht
    show Function.update s.mutex b (some i) b' = some j ↔ _
    by_cases hbb : b' = b
    · subst hbb
      rw [Function.update_self]
      constructor
      · rintro ⟨⟩
        rw [Function.update_self]
        exact (hholds b').2 (.inl rfl)
      · intro hj
        by_cases hji : j = i
        · rw [hji]
        · rw [Function.update_of_ne hji, ← h.mutex, hb] at hj
          cases hj
    · rw [Function.update_of_ne hbb]
      refine (h.mutex j b').trans ?_
      by_cases hji : j = i
      · subst hji
        rw [Function.update_self, hholds]
        exact ⟨.inr, fun hor => hor.resolve_left hbb⟩
      · rw [Function.update_of_ne hji]
  generalize s.pc i = pc₀ at ha
  cases ha with
  | @growLock numThreads c bits t ht hlt =>
    refine ⟨fun _ => id, rfl, fun b' => ?_, fun bits' ht' => ?_, rfl⟩
    · obtain ⟨t', c'⟩ := b'
      simp only [Pc.Holds, Prod.mk.injEq, ← and_or_left]
      refine and_congr_right fun _ => ?_
      omega
    · rw [Option.some.inj (ht'.symm.trans ht)]
      exact hlt
  | @lock key work t bits ht =>
    refine ⟨fun _ => id, rfl, fun b' => ?_, ⟨bits, ht, rfl⟩, rfl⟩
    exact (or_iff_left id).symm

theorem Locks.release (h : Locks s) (hr : Releases s (s.pc i) b pc) : Locks ((s.unlockBucket b).goto i pc) := by
  suffices (∀ t, pc.old = some t → (s.pc i).old = some t) ∧ pc.new = none ∧ (s.pc i).Holds s.table b ∧
      (∀ b', pc.Holds s.table b' ↔ b' ≠ b ∧ (s.pc i).Holds s.table b') ∧ pc.Fits s.table ∧
      pc.current = none by
    obtain ⟨hold, hnew, hb, hholds, hfits, hcur⟩ := this
    refine h.same rfl rfl rfl (fun t ht => h.known_old (hold t ht)) (fun a ha => by rw [hnew] at ha; cases ha)
      (fun j b' => ?_) hfits fun t ht => by rw [hcur] at ht; cases ht
    show Function.update s.mutex b none b' = some j ↔ _
    by_cases hbb : b' = b
    · subst hbb
      rw [Function.update_self]
      refine ⟨by rintro ⟨⟩, fun hj => ?_⟩
      by_cases hji : j = i
      · subst hji
        rw [Function.update_self, hholds] at hj
        exact absurd rfl hj.1
      · rw [Function.update_of_ne hji] at hj
        exact absurd (h.holds_inj hj hb) hji
    · rw [Function.update_of_ne hbb]
      refine (h.mutex j b').trans ?_
      by_cases hji : j = i
      · subst hji
        rw [Function.update_self, hholds]
        exact (and_iff_right hbb).symm
      · rw [Function.update_of_ne hji]
  generalize s.pc i = pc₀ at hr
  cases hr with
  | @growBack numThreads c bits t ht hlt | @growUnlock c bits t ht hlt =>
    refine ⟨fun _ => id, rfl, ⟨rfl, Nat.le_refl _, bits, ht, hlt⟩, fun b' => ?_, trivial, rfl⟩
    obtain ⟨t', c'⟩ := b'
    constructor
    · rintro ⟨rfl, hle, hb⟩
      refine ⟨fun heq => ?_, rfl, Nat.le_of_succ_le hle, hb⟩
      cases heq
      exact Nat.not_succ_le_self _ hle
    · rintro ⟨hne, rfl, hle, hb⟩
      exact ⟨rfl, Nat.lt_of_le_of_ne hle fun heq => hne (by rw [heq]), hb⟩
  | back | sleep | leave =>
    refine ⟨by rintro t ⟨⟩, rfl, rfl, fun b' => ⟨False.elim, fun hb => hb.1 hb.2⟩, trivial, rfl⟩

theorem Locks.step (h : Locks s) (hs : Step s i e s') : Locks s' := by
  cases hs with
  | move hm => exact h.move hm
  | exit hpc hd => exact ⟨h.cur, h.old, h.new, h.fresh, h.newInj, h.mutex, h.fits, h.current⟩
  | count hpc =>
    refine h.same rfl rfl rfl (by rintro t ⟨⟩) (by rintro a ⟨⟩) (h.mutex_same fun b => ?_) trivial (by rintro t ⟨⟩)
    rw [hpc]
    exact Iff.rfl
  | @alloc caller a now hpc ht ha =>
    refine h.take ha _ _ rfl (by rintro t ⟨⟩) (fun b => ?_) (fun _ => trivial) (by rintro t ⟨⟩)
    rw [hpc]
    exact Iff.rfl
  | @won caller new pc hpc ht hg =>
    obtain ⟨hnew, hcur, hold, hholds, hfits⟩ := got_spec hg
    have hi : (s.pc i).new = some new := by rw [hpc]; rfl
    refine h.update rfl (fun _ _ _ => rfl) ?_ (fun t ht' => ?_) (fun a ha => by rw [hnew] at ha; cases ha)
      (h.mutex_same fun b => ?_) (hfits _) (fun t ht' => by rw [hcur] at ht'; cases ht') fun j _ t hj => ?_
    · rintro t ⟨⟩
      exact ⟨h.known_new hi, (h.new i new hi).1⟩
    · rw [hold t ht']
      exact ⟨h.known_new hi, (h.new i new hi).1⟩
    · rw [hpc]
      exact ⟨fun hb => (hholds _ b hb).elim, False.elim⟩
    · have hj' := h.current j t hj
      rw [ht] at hj'
      cases hj'
  | @lost caller t new pc hpc ht hg =>
    obtain ⟨hnew, hcur, hold, hholds, hfits⟩ := got_spec hg
    have hi : (s.pc i).new = some new := by rw [hpc]; rfl
    have hne : t ≠ new := by
      rintro rfl
      exact (h.new i t hi).2 ht
    have hkeep : ∀ t', t' ≠ new → ({ s with table := Function.update s.table new none }.goto i pc).table t' = s.table t' :=
      fun t' ht' => Function.update_of_ne ht' _ _
    have hcur' : Known s i t ∧ ({ s with table := Function.update s.table new none }.goto i pc).table t ≠ none := by
      rw [hkeep t hne]
      exact ⟨h.known_cur ht i, h.cur t ht⟩
    refine h.update rfl (fun t' _ hn => hkeep t' ?_) ?_ (fun t' ht' => ?_)
      (fun a ha => by rw [hnew] at ha; cases ha) (fun j b => ?_) (hfits _)
      (fun t ht' => by rw [hcur] at ht'; cases ht') fun j _ t hj => h.current j t hj
    · rintro rfl
      exact hn hi
    · intro t' ht'
      cases ht.symm.trans ht'
      exact hcur'
    · rw [hold t' ht']
      exact hcur'
    · refine (h.mutex j b).trans ?_
      by_cases hji : j = i
      · subst hji
        rw [Function.update_self, hpc]
        exact ⟨False.elim, fun hb => (hholds _ b hb).elim⟩
      · rw [Function.update_of_ne hji]
        refine (Pc.Holds.congr fun t' ht' => hkeep t' ?_).symm
        rintro rfl
        exact h.fresh i j t' hi ht'
  | acquire ha hb => exact h.acquire ha hb
  | release hr => exact h.release hr
  | @growAlloc numThreads c bits now t a hpc hb hle ht ha =>
    have hfits := h.fits i
    rw [hpc] at hfits
    have hc : c = 2 ^ bits := Nat.le_antisymm (hfits bits hb) hle
    refine h.take ha _ _ rfl (fun t ht => by rw [hpc]; exact ht) (fun b => ?_) (fun _ => trivial) ?_
    · rw [hpc]
      refine and_congr_right fun _ => ?_
      rw [hc, hb]
      exact ⟨fun ⟨bits', hb', hlt⟩ => Option.some.inj hb' ▸ hlt, fun hlt => ⟨bits, rfl, hlt⟩⟩
    · rintro t' ⟨⟩
      exact ht
  | @rehash t new c bits bits' n mem hpc hb hb' hlt hm =>
    refine h.same rfl rfl rfl ?_ ?_ (h.mutex_same fun b => ?_) trivial ?_
    · rintro t' ⟨⟩
      exact h.known_old (by rw [hpc]; rfl)
    · rintro a ⟨⟩
      exact ⟨by rw [hpc]; rfl, fun ho => h.fresh i i new (by rw [hpc]; rfl) (by rw [hpc]; exact ho)⟩
    · rw [hpc]
      exact Iff.rfl
    · rintro t' ⟨⟩
      exact h.current i t (by rw [hpc]; rfl)
  | @publish t new c bits bits' hpc hb hb' hle =>
    have hi : (s.pc i).new = some new := by rw [hpc]; rfl
    have ht : (s.pc i).old = some t := by rw [hpc]; rfl
    refine h.update rfl (fun _ _ _ => rfl) ?_ ?_ (by rintro a ⟨⟩) (h.mutex_same fun b => ?_) trivial
      (by rintro t ⟨⟩) fun j hji t' hj => ?_
    · rintro t' ⟨⟩
      exact ⟨h.known_new hi, (h.new i new hi).1⟩
    · rintro t' ⟨⟩
      exact ⟨h.known_old ht, h.old i t ht⟩
    · rw [hpc]
      exact and_congr_right fun _ => and_iff_right (Nat.zero_le _)
    -- all locks of the old table are held, so no other thread relies on it
    · exact absurd (h.mover hpc (j := j) (by rw [hj]; exact Option.some_ne_none _)) hji
  | @inside key work b x mem e sleep hpc hw =>
    have hfits := h.entry_lt (i := i) (b := b) (by rw [hpc]; rfl)
    refine h.same rfl rfl rfl ?_ (by rintro a ⟨⟩) (h.mutex_same fun b' => ?_) hfits ?_
    · rintro t' ⟨⟩
      exact h.known_old (by rw [hpc]; rfl)
    · rw [hpc]
      exact Iff.rfl
    · rintro t' ⟨⟩
      exact h.current i b.1 (by rw [hpc]; rfl)
  | woken hpc hf =>
    refine h.same rfl rfl rfl (by rintro t ⟨⟩) (by rintro a ⟨⟩) (h.mutex_same fun b => ?_) trivial (by rintro t ⟨⟩)
    rw [hpc]
    exact Iff.rfl

theorem Locks.init : Locks .init :=
  ⟨by rintro t ⟨⟩, by rintro i t ⟨⟩, by rintro i a ⟨⟩, by rintro i j a ⟨⟩, by rintro a i j ⟨⟩,
    fun i b => ⟨by rintro ⟨⟩, False.elim⟩, fun _ => trivial, by rintro i t ⟨⟩⟩

end CoQueue.Mutex.Lot
