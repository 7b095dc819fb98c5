import Mathlib.Algebra.Group.Nat.Defs
import CoQueue.Lockless.Rest

/-!
# `CoQueue::len` and `CoQueue::is_empty`

`len` takes `tail.index`, `head.index` and `tail.index` again, and goes on with the two indices if `tail`
has not moved in between. They are those of one moment then, the one at which `head.index` was loaded:
`tail.index` never goes back. What it computes from them is the number of slots between the two positions,
which are the claims of `tail.index` without the claims of `head.index` at that moment, unless both
indices are on the phantom position of the same lap: `tail -= LAP` is carried out for a `tail` in a later
lap only.

Indices do not overflow here, as in the rest of the model; the subtractions of the source that would
wrap around (or panic, with overflow checks) are carried out with a check.
-/

namespace CoQueue.Lockless

open Schedule

variable {V : Type} {s s' : State V} {m' : Mem V} {pc' : Pc V} {ev : Event V} {i : Tid}
  {p q tail head : Nat}

/-! ### The computation -/

/-- `a.wrapping_sub(b)`. -/
def wrappingSub (a b : Nat) : Nat := if b ≤ a then a - b else a + 2 ^ 64 - b

/-- `a - b`, where it does not underflow. -/
def checkedSub (a b : Nat) : Option Nat := if b ≤ a then some (a - b) else none

/-- `index & !((1 << SHIFT) - 1)`. -/
def eraseBits (index : Nat) : Nat := position index <<< shift

/-- The position of an index, counted from the start of lap `first`. -/
def rotate (index first : Nat) : Nat := position (wrappingSub (eraseBits index) ((first * lap) <<< shift))

/-- The end of `len`, from the fix-up of `tail` on. -/
def lenFrom (tail head : Nat) : Option Nat :=
  let tail := if tail = chunkCap then tail + 1 else tail
  (checkedSub tail head).bind fun n => checkedSub n (tail / lap)

/-- What `len` computes from the indices it has accepted; `none` when a subtraction underflows. -/
def lenOf (tail head : Nat) : Option Nat :=
  let first := position (eraseBits head) / lap
  if rotate head first = chunkCap then (checkedSub (rotate tail first) lap).bind fun tail => lenFrom tail 0
  else lenFrom (rotate tail first) (rotate head first)

/-- No subtraction underflows, those that may wrap around included, and the outcome is the number of
pushes that are left when every pop has taken one. -/
structure LenExact (tail head pushes pops : Nat) : Prop where
  rotateTail : (position (eraseBits head) / lap * lap) <<< shift ≤ eraseBits tail
  rotateHead : (position (eraseBits head) / lap * lap) <<< shift ≤ eraseBits head
  count : ∃ n, lenOf tail head = some n ∧ n + pops = pushes

theorem position_shift (p : Nat) : position (p <<< shift) = p := by
  rw [position_eq, Nat.shiftLeft_eq]
  exact Nat.mul_div_cancel p (by decide)

theorem position_eraseBits (index : Nat) : position (eraseBits index) = position index :=
  position_shift _

theorem shift_le_eraseBits {a index : Nat} (h : a ≤ position index) : a <<< shift ≤ eraseBits index := by
  rw [eraseBits, Nat.shiftLeft_eq, Nat.shiftLeft_eq]
  exact Nat.mul_le_mul_right _ h

theorem rotate_eq {index first : Nat} (h : first * lap ≤ position index) :
    rotate index first = position index - first * lap := by
  have hsub : eraseBits index - (first * lap) <<< shift = (position index - first * lap) <<< shift := by
    rw [eraseBits, Nat.shiftLeft_eq, Nat.shiftLeft_eq, Nat.shiftLeft_eq, Nat.sub_mul]
  rw [rotate, wrappingSub, if_pos (shift_le_eraseBits h), hsub, position_shift]

theorem slots_length (p : Nat) : (slots p).length = p - p / lap := by
  induction p with
  | zero => rfl
  | succ p ih =>
    by_cases hp : p % lap = chunkCap
    · rw [slots_phantom hp, ih]
      simp only [lap, chunkCap] at hp ⊢
      omega
    · rw [slots_succ hp, List.length_append, ih, List.length_singleton]
      simp only [lap, chunkCap] at hp ⊢
      omega

theorem mod_lap_lt (ho : p % lap ≠ chunkCap) : p % lap < chunkCap := by
  have := Nat.mod_lt p (show 0 < lap by decide)
  simp only [lap, chunkCap] at this ho ⊢
  omega

theorem checkedSub_of_le {a b : Nat} (h : b ≤ a) : checkedSub a b = some (a - b) := if_pos h

/-- A `tail` on the phantom position of the first lap counts as the start of the next. -/
theorem lenFrom_eq (h : head ≤ tail) (hc : head < chunkCap) :
    lenFrom tail head = some (tail - tail / lap - head) := by
  unfold lenFrom
  by_cases ht : tail = chunkCap
  · simp only [if_pos ht]
    have hlap : (tail + 1) / lap = 1 ∧ tail / lap = 0 := by rw [ht]; decide
    rw [checkedSub_of_le (by omega), Option.bind_some, checkedSub_of_le (by omega)]
    congr 1
    omega
  · simp only [if_neg ht]
    have hlap : tail / lap ≤ tail - head := by
      simp only [lap, chunkCap] at hc ht ⊢
      omega
    rw [checkedSub_of_le h, Option.bind_some, checkedSub_of_le hlap, Nat.sub_right_comm]

/-- Both indices are on the phantom position of the same lap. -/
def BothPhantom (tail head : Nat) : Prop := offset head = chunkCap ∧ position head = position tail

theorem lenOf_eq (h : position head ≤ position tail) (hb : ¬BothPhantom tail head) :
    ∃ n, lenOf tail head = some n ∧ n + (slots (position head)).length = (slots (position tail)).length := by
  have hfirst : position head / lap * lap ≤ position head := Nat.div_mul_le_self _ _
  have hhead : position head - position head / lap * lap = position head % lap := by
    have := Nat.div_add_mod' (position head) lap
    omega
  simp only [lenOf, position_eraseBits, rotate_eq hfirst, rotate_eq (hfirst.trans h), hhead, slots_length]
  simp only [BothPhantom, offset] at hb
  by_cases ho : position head % lap = chunkCap
  · have hlt : position head < position tail := lt_of_le_of_ne h fun heq => hb ⟨ho, heq⟩
    have hle : lap ≤ position tail - position head / lap * lap := by
      simp only [lap, chunkCap] at ho ⊢; omega
    rw [if_pos ho, checkedSub_of_le hle, Option.bind_some, lenFrom_eq (Nat.zero_le _) (by decide)]
    refine ⟨_, rfl, ?_⟩
    simp only [lap, chunkCap] at ho ⊢
    omega
  · have hle : position head % lap ≤ position tail - position head / lap * lap := by omega
    rw [if_neg ho, lenFrom_eq hle (mod_lap_lt ho)]
    refine ⟨_, rfl, ?_⟩
    simp only [lap, chunkCap] at ho ⊢
    omega

theorem lenOf_bothPhantom (hb : BothPhantom tail head) : lenOf tail head = none := by
  obtain ⟨ho, heq⟩ := hb
  have hfirst : position head / lap * lap ≤ position head := Nat.div_mul_le_self _ _
  have hhead : position head - position head / lap * lap = chunkCap := by
    have := Nat.div_add_mod' (position head) lap
    unfold offset at ho
    omega
  have htail : rotate tail (position head / lap) = chunkCap := by
    rw [rotate_eq (heq ▸ hfirst), ← heq, hhead]
  simp only [lenOf, position_eraseBits, rotate_eq hfirst, hhead, htail]
  rfl

theorem lenExact_iff (h : position head ≤ position tail) :
    LenExact tail head (slots (position tail)).length (slots (position head)).length ↔
      ¬BothPhantom tail head := by
  constructor
  · rintro ⟨-, -, n, hn, -⟩ hb
    rw [lenOf_bothPhantom hb] at hn
    cases hn
  · intro hb
    have hfirst : position head / lap * lap ≤ position head := Nat.div_mul_le_self _ _
    refine ⟨?_, ?_, lenOf_eq h hb⟩
    · rw [position_eraseBits]; exact shift_le_eraseBits (hfirst.trans h)
    · rw [position_eraseBits]; exact shift_le_eraseBits hfirst

/-! ### The accesses -/

/-- The access a call of `len` or `is_empty` makes next. `pushes` and `pops` are not locals of the call: they
are the numbers of claims at the moment `head.index` was loaded. -/
inductive Look
  | idle
  | lenTail
  | lenHead (tail : Nat)
  | lenCheck (tail head : Nat) (pushes pops : Nat)
  | emptyHead
  | emptyTail (head : Nat)

/-- `len` returns with the indices it accepted; what it returns is `lenOf` of them. -/
inductive Answer
  | len (tail head : Nat) (pushes pops : Nat)
  | isEmpty (res : Bool)
deriving DecidableEq

def Look.isIdle : Look → Bool
  | .idle => true
  | _ => false

def lookStep (s : State V) : Look → Option (Look × Option Answer)
  | .idle => none
  | .lenTail => some (.lenHead s.mem.tailIndex, none)
  | .lenHead tail =>
    some (.lenCheck tail s.mem.headIndex s.hist.pushes.length s.hist.pops.length, none)
  -- `if self.tail.index.load(SeqCst) == tail`
  | .lenCheck tail head pushes pops =>
    if s.mem.tailIndex = tail then some (.idle, some (.len tail head pushes pops)) else some (.lenTail, none)
  | .emptyHead => some (.emptyTail s.mem.headIndex, none)
  | .emptyTail head =>
    some (.idle, some (.isEmpty (decide (position head = position s.mem.tailIndex))))

/-- The queue with any number of threads that call `len` and `is_empty` besides. -/
structure Watch (V : Type) where
  queue : State V
  look : Tid → Look
  answers : List (Tid × Answer)

def Watch.init : Watch V := ⟨.init, fun _ => .idle, []⟩

inductive WatchAct (V : Type)
  | queue (a : Act V)
  | len (i : Tid)
  | isEmpty (i : Tid)
  | look (i : Tid)

def Watch.enter (w : Watch V) (i : Tid) (l : Look) : Option (Watch V) :=
  if (w.look i).isIdle then some { w with look := Function.update w.look i l } else none

def watchStep (w : Watch V) : WatchAct V → Option (Watch V)
  | .queue a => (step w.queue a).map fun s => { w with queue := s }
  | .len i => w.enter i .lenTail
  | .isEmpty i => w.enter i .emptyHead
  | .look i => (lookStep w.queue (w.look i)).map fun r =>
      { w with
        look := Function.update w.look i r.1
        answers := w.answers ++ r.2.toList.map fun a => (i, a) }

/-! ### The indices of one moment -/

theorem Inv.tail_le {a : Act V} (hi : Inv s) (hs : Lockless.step s a = some s') :
    s.mem.tailIndex ≤ s'.mem.tailIndex := by
  obtain ⟨i, m', pc', ev, hm, rfl⟩ := move_of_step hs
  exact hi.placed.tail_le hm

/-- `pushes` and `pops` are the numbers of claims when `tail.index` was `t` and `head.index` was `head`. -/
structure Moment (t head pushes pops : Nat) : Prop where
  le : position head ≤ position t
  pushes : pushes = (slots (position t)).length
  pops : pops = (slots (position head)).length

/-- What was loaded is not ahead of `tail.index`. -/
def LookOk (s : State V) : Look → Prop
  | .lenHead tail => tail ≤ s.mem.tailIndex
  | .lenCheck tail head pushes pops => ∃ t, tail ≤ t ∧ t ≤ s.mem.tailIndex ∧ Moment t head pushes pops
  | _ => True

structure Watched (w : Watch V) : Prop where
  inv : Inv w.queue
  look : ∀ i, LookOk w.queue (w.look i)
  len : ∀ i tail head pushes pops, (i, .len tail head pushes pops) ∈ w.answers → Moment tail head pushes pops

theorem LookOk.mono {l : Look} (h : LookOk s l) (hle : s.mem.tailIndex ≤ s'.mem.tailIndex) :
    LookOk s' l := by
  cases l <;> try trivial
  case lenHead tail => exact Nat.le_trans h hle
  case lenCheck tail head pushes pops =>
    obtain ⟨t, h1, h2, h3⟩ := h
    exact ⟨t, h1, h2.trans hle, h3⟩

theorem Inv.moment (hi : Inv s) :
    Moment s.mem.tailIndex s.mem.headIndex s.hist.pushes.length s.hist.pops.length := by
  refine ⟨hi.placed.core.le, ?_, ?_⟩
  · rw [← hi.counted.pushes, List.length_map]
  · rw [← hi.counted.pops]

theorem Inv.lookStep {l l' : Look} {a : Option Answer} (hi : Inv s) (hl : LookOk s l)
    (hs : lookStep s l = some (l', a)) :
    LookOk s l' ∧ ∀ tail head pushes pops, a = some (.len tail head pushes pops) →
      Moment tail head pushes pops := by
  cases l with
  | idle => cases hs
  | lenTail => cases hs; exact ⟨Nat.le_refl _, nofun⟩
  | lenHead tail => cases hs; exact ⟨⟨_, hl, Nat.le_refl _, hi.moment⟩, nofun⟩
  | lenCheck tail head pushes pops =>
    simp only [Lockless.lookStep] at hs
    split at hs <;> cases hs
    · -- `tail.index` is where it was at first, so it was there when `head.index` was loaded
      rename_i heq
      obtain ⟨t, h1, h2, h3⟩ := hl
      obtain rfl : t = tail := by omega
      refine ⟨trivial, fun _ _ _ _ ha => ?_⟩
      cases ha
      exact h3
    · exact ⟨trivial, nofun⟩
  | emptyHead => cases hs; exact ⟨trivial, nofun⟩
  | emptyTail head => cases hs; exact ⟨trivial, nofun⟩

theorem watch_enter_eq {w w' : Watch V} {l : Look} (h : w.enter i l = some w') :
    w' = { w with look := Function.update w.look i l } := by
  unfold Watch.enter at h
  split at h <;> cases h
  rfl

theorem Watched.enter {w w' : Watch V} {l : Look} (h : Watched w) (hl : LookOk w.queue l)
    (hs : w.enter i l = some w') : Watched w' := by
  obtain rfl := watch_enter_eq hs
  exact ⟨h.inv, (Function.forall_update_iff w.look fun _ l => LookOk w.queue l).2
    ⟨hl, fun j _ => h.look j⟩, h.len⟩

theorem Watched.step {w w' : Watch V} {a : WatchAct V} (h : Watched w) (hs : watchStep w a = some w') :
    Watched w' := by
  cases a with
  | queue a =>
    obtain ⟨s', hq, rfl⟩ := Option.map_eq_some_iff.1 hs
    exact ⟨h.inv.step hq, fun i => (h.look i).mono (h.inv.tail_le hq), h.len⟩
  | len i => exact h.enter (l := .lenTail) trivial hs
  | isEmpty i => exact h.enter (l := .emptyHead) trivial hs
  | look i =>
    obtain ⟨⟨l', o⟩, hl, rfl⟩ := Option.map_eq_some_iff.1 hs
    obtain ⟨hok, hlen⟩ := h.inv.lookStep (h.look i) hl
    refine ⟨h.inv, (Function.forall_update_iff w.look fun _ l => LookOk w.queue l).2
      ⟨hok, fun j _ => h.look j⟩, fun j tail head pushes pops hj => ?_⟩
    rcases List.mem_append.1 hj with hj | hj
    · exact h.len j tail head pushes pops hj
    · obtain ⟨b, hb, heq⟩ := List.mem_map.1 hj
      cases heq
      exact hlen _ _ _ _ (Option.mem_toList.1 hb)

theorem watched_init : Watched (.init : Watch V) := ⟨inv_init, fun _ => trivial, nofun⟩

theorem watched_of_run {C : Watch V → WatchAct V → Prop} {w : Watch V} (h : Run watchStep C .init w) :
    Watched w := h.invariant watched_init fun _ _ _ hw _ hs => hw.step hs

/-- The indices that a call of `len` accepts are those of one moment, and `len` is exact for them unless
both are on the phantom position of the same lap. -/
theorem len_exact_iff {w : Watch V} {pushes pops : Nat} (h : Run watchStep Any .init w)
    (ha : (i, .len tail head pushes pops) ∈ w.answers) :
    LenExact tail head pushes pops ↔ ¬BothPhantom tail head := by
  obtain ⟨hle, rfl, rfl⟩ := (watched_of_run h).len _ _ _ _ _ ha
  exact lenExact_iff hle

/-- A push and a pop have claimed the last slot of the first chunk and not moved on when `len` is called. -/
def phantomSchedule : List (WatchAct Nat) :=
  (partCall 0 (.push 0 7) 7 ++ (List.replicate 29 (partCall 0 (.push 0 7) 5)).flatten ++
    partCall 0 (.push 0 7) 3 ++ (List.replicate 30 (partCall 1 (.pop 1) 7)).flatten ++
    partCall 1 (.pop 1) 4).map .queue ++ [.len 0, .look 0, .look 0, .look 0]

theorem phantom_run : ∃ w : Watch Nat, Run watchStep Any .init w ∧ (0, .len 62 62 31 31) ∈ w.answers := by
  have hexec : (exec watchStep Any .init phantomSchedule).map (fun w => w.answers) =
      some [(0, .len 62 62 31 31)] := by
    decide +kernel
  obtain ⟨w, hrun, hw⟩ := Run.of_exec_map hexec
  exact ⟨w, hrun, hw ▸ List.mem_singleton_self _⟩

theorem phantom_len_exact_iff : ∃ w : Watch Nat, Run watchStep Any .init w ∧
    (0, .len 62 62 31 31) ∈ w.answers ∧ (LenExact 62 62 31 31 ↔ ¬BothPhantom 62 62) := by
  obtain ⟨w, hrun, ha⟩ := phantom_run
  exact ⟨w, hrun, ha, len_exact_iff hrun ha⟩

/-- `len` takes `LAP` off the position of `tail`, which is `CHUNK_CAP`. -/
theorem phantom_len_underflows : ∃ w : Watch Nat, Run watchStep Any .init w ∧
    (0, .len 62 62 31 31) ∈ w.answers ∧ ¬LenExact 62 62 31 31 := by
  obtain ⟨w, hrun, ha⟩ := phantom_run
  refine ⟨w, hrun, ha, fun h => ?_⟩
  obtain ⟨n, hn, -⟩ := h.count
  rw [lenOf_bothPhantom ⟨rfl, rfl⟩] at hn
  cases hn

/-! ### At rest -/

/-- A call of `len` or `is_empty` that nobody else's steps come between, with `fuel` accesses at most. -/
def lookAlone (s : State V) : Nat → Look → Option Answer
  | 0, _ => none
  | fuel + 1, l => match lookStep s l with
    | some (_, some a) => some a
    | some (l', none) => lookAlone s fuel l'
    | none => none

def State.len (s : State V) (fuel : Nat) : Option Nat :=
  match lookAlone s fuel .lenTail with
  | some (.len tail head _ _) => lenOf tail head
  | _ => none

def State.isEmpty (s : State V) (fuel : Nat) : Option Bool :=
  match lookAlone s fuel .emptyHead with
  | some (.isEmpty res) => some res
  | _ => none

/-- What the counters say when no call is in progress. -/
structure CountsExact (s : State V) : Prop where
  head : offset s.mem.headIndex ≠ chunkCap
  tail : offset s.mem.tailIndex ≠ chunkCap
  le : s.hist.popped.length ≤ s.hist.pushed.length
  len : ∃ N, ∀ n, N ≤ n → s.len n = some (s.hist.pushed.length - s.hist.popped.length)
  isEmpty : ∃ N, ∀ n, N ≤ n →
    s.isEmpty n = some (decide (s.hist.pushed.length - s.hist.popped.length = 0))

theorem len_alone (s : State V) (n : Nat) : s.len (n + 3) = lenOf s.mem.tailIndex s.mem.headIndex := by
  simp [State.len, lookAlone, lookStep]

theorem isEmpty_alone (s : State V) (n : Nat) :
    s.isEmpty (n + 2) = some (decide (position s.mem.headIndex = position s.mem.tailIndex)) := rfl

theorem slots_length_inj (hle : q ≤ p) (hq : q % lap ≠ chunkCap)
    (h : (slots p).length = (slots q).length) : q = p := by
  rw [slots_length, slots_length] at h
  simp only [lap, chunkCap] at hq h
  omega

/-- `len` and `is_empty` are exact in every state in which no call is in progress. -/
theorem counts_exact_of_rest (h : Run step Any .init s) (hr : AtRest s) : CountsExact s := by
  have hi := inv_of_run h
  have hhead := hi.head_offset hr
  have hpushed := (hi.pushed_perm (brought_of_run h) hr).length_eq
  have hpopped := (hi.popped_perm hr).length_eq
  rw [List.length_map] at hpopped
  obtain ⟨n, hlen, hn⟩ := lenOf_eq hi.placed.core.le fun hb => hhead hb.1
  have hcount : s.hist.pushed.length - s.hist.popped.length = n := by omega
  refine ⟨hhead, hi.tail_offset hr, by omega, ⟨3, fun k hk => ?_⟩, ⟨2, fun k hk => ?_⟩⟩
  · rw [← Nat.sub_add_cancel hk, len_alone, hlen, hcount]
  · rw [← Nat.sub_add_cancel hk, isEmpty_alone, hcount]
    refine congrArg some (decide_eq_decide.2 ⟨fun heq => ?_, fun h0 => ?_⟩)
    · rw [heq] at hn; omega
    · exact slots_length_inj hi.placed.core.le hhead (by omega)

theorem settled_counts_exact : ∃ s : State Nat, Run step Any .init s ∧ AtRest s ∧
    s.hist.pushed.length = 32 ∧ s.hist.popped.length = 1 ∧ CountsExact s := by
  obtain ⟨s, hrun, hr, hpushed, hpopped⟩ := settled_run
  exact ⟨s, hrun, hr, by rw [hpushed]; rfl, by rw [hpopped]; rfl, counts_exact_of_rest hrun hr⟩

end CoQueue.Lockless
