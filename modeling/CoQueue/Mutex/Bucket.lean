import CoQueue.Lib.Queues
import CoQueue.Mutex.RawMutex

/-!
# The queues of the buckets (`mutex/deadlock.rs`)

A bucket points to the first and to the last thread of its queue, and each thread to the next one. The
functions here are what `park`, `unpark_one` and `grow_hashtable` do to these pointers while they hold the
locks of the buckets: the append, the removal of the first thread with a key, the removal of a thread whose
timeout has expired, and `rehash_bucket_into`. `β` is the type of the buckets' addresses. `none` is a loop
that has run out of fuel, or a null pointer that is followed.

Every function is described by what it does to the lists `Q b` of the buckets (`Mem.Queues`), and to the
rest of each `ThreadData` (`Mem.info`).
-/

namespace CoQueue.Mutex.Bucket

open Linked

structure FairTimeout where
  timeout : Nat
  seed : UInt32

/-- `gen_u32`; the number it returns is the new seed. -/
def FairTimeout.genU32 (f : FairTimeout) : FairTimeout :=
  let seed := f.seed ^^^ (f.seed <<< 13)
  let seed := seed ^^^ (seed >>> 17)
  let seed := seed ^^^ (seed <<< 5)
  { f with seed }

/-- `should_timeout` at the time `now`, in nanoseconds. -/
def FairTimeout.shouldTimeout (f : FairTimeout) (now : Nat) : FairTimeout × Bool :=
  if f.timeout < now then
    let f := f.genU32
    let nanos := f.seed % 1000000
    ({ f with timeout := now + nanos.toNat }, true)
  else (f, false)

/-- `ThreadData`, with `parker.futex`. -/
structure Node where
  key : Key
  nextInQueue : Option Tid
  futex : Nat
  unparkToken : UnparkToken
  parkToken : Nat
  parkedWithTimeout : Bool

def Node.new : Node := ⟨0, none, 0, tokenNormal, 0, false⟩

structure Mem (β : Type*) where
  node : Tid → Node
  queueHead : β → Option Tid
  queueTail : β → Option Tid
  fairTimeout : β → FairTimeout

section
variable {β : Type*} [DecidableEq β]

def Mem.setNode (m : Mem β) (i : Tid) (d : Node) : Mem β := { m with node := Function.update m.node i d }

def Mem.setNext (m : Mem β) (i : Tid) (p : Option Tid) : Mem β :=
  m.setNode i { m.node i with nextInQueue := p }

def Mem.setHead (m : Mem β) (b : β) (p : Option Tid) : Mem β :=
  { m with queueHead := Function.update m.queueHead b p }

def Mem.setTail (m : Mem β) (b : β) (p : Option Tid) : Mem β :=
  { m with queueTail := Function.update m.queueTail b p }

/-- `park` behind `validate`: the thread appends itself to the queue. -/
def Mem.park (m : Mem β) (b : β) (i : Tid) (key : Key) (parkToken : Nat) (timeout : Bool) : Option (Mem β) :=
  let m := m.setNode i
    { m.node i with parkedWithTimeout := timeout, nextInQueue := none, key, parkToken, futex := 1 }
  match m.queueHead b, m.queueTail b with
  | some _, some t => some ((m.setNext t (some i)).setTail b (some i))
  | some _, none => none
  | none, _ => some ((m.setHead b (some i)).setTail b (some i))

/-- `link` of the loops: `bucket.queue_head`, or `next_in_queue` of a thread. -/
inductive Link
  | head
  | next (i : Tid)

def Mem.setLink (m : Mem β) (b : β) (p : Option Tid) : Link → Mem β
  | .head => m.setHead b p
  | .next i => m.setNext i p

/-- The scan of the rest of the queue for another thread with the key. -/
def Mem.scanRest (m : Mem β) (key : Key) : Nat → Option Tid → Option Bool
  | 0, _ => none
  | _ + 1, none => some false
  | n + 1, some j => if (m.node j).key = key then some true else m.scanRest key n (m.node j).nextInQueue

/-- The thread `current` is taken out of the queue, and the rest scanned. -/
def Mem.remove (m : Mem β) (b : β) (key : Key) (n : Nat) (link : Link) (current : Tid) (previous : Option Tid) :
    Option (Mem β × Bool) :=
  let next := (m.node current).nextInQueue
  let m := m.setLink b next link
  if m.queueTail b = some current then some (m.setTail b previous, false)
  else (m.scanRest key n next).map fun more => (m, more)

/-- The loop of `unpark_one`: the thread it removes, and whether there are more with the key. -/
def Mem.unparkLoop (m : Mem β) (b : β) (key : Key) :
    Nat → Link → Option Tid → Option Tid → Option (Mem β × Option (Tid × Bool))
  | 0, _, _, _ => none
  | _ + 1, _, none, _ => some (m, none)
  | n + 1, link, some current, previous =>
    if (m.node current).key = key then
      (m.remove b key n link current previous).map fun r => (r.1, some (current, r.2))
    else m.unparkLoop b key n (.next current) (m.node current).nextInQueue (some current)

/-- `unpark_one` behind `lock_bucket`: the thread it unparks, and the result. -/
def Mem.unparkOne (m : Mem β) (b : β) (n now : Nat) (key : Key) (callback : UnparkResult → UnparkToken) :
    Option (Mem β × Option Tid × UnparkResult) :=
  (m.unparkLoop b key n .head (m.queueHead b) none).map fun
    | (m, none) => (m, none, ⟨0, false, false⟩)
    | (m, some (j, more)) =>
      let fair := (m.fairTimeout b).shouldTimeout now
      let m := { m with fairTimeout := Function.update m.fairTimeout b fair.1 }
      (m.setNode j { m.node j with unparkToken := callback ⟨1, more, fair.2⟩, futex := 0 },
        some j, ⟨1, more, fair.2⟩)

/-- The loop of `park` behind a timeout: `was_last_thread`, as it is passed to `timed_out`. `debug_assert!`
fails where the queue ends without the thread. -/
def Mem.timeoutLoop (m : Mem β) (b : β) (i : Tid) (key : Key) :
    Nat → Link → Option Tid → Option Tid → Bool → Option (Mem β × Bool)
  | 0, _, _, _, _ => none
  | _ + 1, _, none, _, _ => none
  | n + 1, link, some current, previous, wasLast =>
    if current = i then
      (m.remove b key n link current previous).map fun r => (r.1, wasLast && !r.2)
    else m.timeoutLoop b i key n (.next current) (m.node current).nextInQueue (some current)
      (if (m.node current).key = key then false else wasLast)

/-- `park` behind `lock_bucket_checked`, when the thread has not been unparked. -/
def Mem.timedOut (m : Mem β) (b : β) (n : Nat) (i : Tid) (key : Key) : Option (Mem β × Bool) :=
  m.timeoutLoop b i key n .head (m.queueHead b) none true

/-- The body of the loop of `rehash_bucket_into`, for the bucket `b` of the new table. -/
def Mem.rehash (m : Mem β) (b : β) (i : Tid) : Mem β :=
  let m := match m.queueTail b with
    | none => m.setHead b (some i)
    | some t => m.setNext t (some i)
  (m.setTail b (some i)).setNext i none

/-- The loop of `rehash_bucket_into`; `entry` are the buckets of the new table. -/
def Mem.rehashLoop (m : Mem β) (entry : Nat → β) (bits : Nat) : Nat → Option Tid → Option (Mem β)
  | 0, _ => none
  | _ + 1, none => some m
  | n + 1, some i =>
    let next := (m.node i).nextInQueue
    (m.rehash (entry (hash (m.node i).key bits)) i).rehashLoop entry bits n next

def Mem.rehashBucketInto (m : Mem β) (n : Nat) (b : β) (entry : Nat → β) (bits : Nat) : Option (Mem β) :=
  m.rehashLoop entry bits n (m.queueHead b)

/-! ### What the queues are -/

def Mem.next (m : Mem β) (i : Tid) : Option Tid := (m.node i).nextInQueue

/-- Everything in a `ThreadData` but the pointer. -/
def Mem.info (m : Mem β) (i : Tid) : Node := { m.node i with nextInQueue := none }

/-- The pointers of the live buckets make the queues `Q`. -/
def Mem.Queues (m : Mem β) (live : β → Prop) (Q : β → List Tid) : Prop :=
  Linked.Queues live m.next m.queueHead m.queueTail Q

/-- The pointers of one bucket make the queue `q`. -/
structure Mem.Queue (m : Mem β) (b : β) (q : List Tid) : Prop where
  path : Path m.next (m.queueHead b) q
  tail : m.queueTail b = q.getLast?

/-- Only the queue `q` of bucket `b` has changed. -/
structure Mem.Frame (m m' : Mem β) (b : β) (q : List Tid) : Prop where
  info : m'.info = m.info
  next : ∀ i, i ∉ q → m'.next i = m.next i
  head : ∀ b', b' ≠ b → m'.queueHead b' = m.queueHead b'
  tail : ∀ b', b' ≠ b → m'.queueTail b' = m.queueTail b'
  fair : m'.fairTimeout = m.fairTimeout

variable {m m' : Mem β} {b : β} {live : β → Prop} {Q : β → List Tid} {q l r : List Tid} {i j : Tid} {key : Key}
  {link : Link} {previous : Option Tid} {n : Nat}

omit [DecidableEq β] in
theorem Mem.info_key (m : Mem β) (i : Tid) : (m.info i).key = (m.node i).key := rfl

omit [DecidableEq β] in
theorem Mem.key_eq (h : m'.info = m.info) (i : Tid) : (m'.node i).key = (m.node i).key := by
  rw [← m'.info_key, h, m.info_key]

omit [DecidableEq β] in
theorem Mem.setNext_next (m : Mem β) (i : Tid) (p : Option Tid) :
    (m.setNext i p).next = Function.update m.next i p := by
  funext j
  by_cases hj : j = i <;> simp [Mem.next, Mem.setNext, Mem.setNode, hj]

omit [DecidableEq β] in
theorem Mem.setNext_info (m : Mem β) (i : Tid) (p : Option Tid) : (m.setNext i p).info = m.info := by
  funext j
  by_cases hj : j = i <;> simp [Mem.info, Mem.setNext, Mem.setNode, hj]

omit [DecidableEq β] in
theorem Mem.setNode_info (m : Mem β) (i : Tid) (d : Node) :
    (m.setNode i d).info = Function.update m.info i { d with nextInQueue := none } := by
  funext j
  by_cases hj : j = i <;> simp [Mem.info, Mem.setNode, hj]

omit [DecidableEq β] in
theorem Mem.Queues.queue (h : m.Queues live Q) (hb : live b) : m.Queue b (Q b) := ⟨h.path b hb, h.tail b hb⟩

omit [DecidableEq β] in
theorem Mem.Queues.setNode {d : Node} (h : m.Queues live Q) (hd : d.nextInQueue = m.next i) :
    (m.setNode i d).Queues live Q := by
  have hnext : (m.setNode i d).next = m.next := by
    funext j
    by_cases hj : j = i
    · subst j
      rw [← hd]
      simp [Mem.next, Mem.setNode]
    · simp [Mem.next, Mem.setNode, hj]
  unfold Mem.Queues
  rw [hnext]
  exact h

theorem Mem.Queues.frame (h : m.Queues live Q) (hb : live b) (hf : m.Frame m' b (Q b)) (hq : m'.Queue b q)
    (hsub : ∀ i ∈ q, i ∈ Q b) : m'.Queues live (Function.update Q b q) := by
  refine Linked.Queues.set h hb hq.path hq.tail ?_ ?_ hf.head hf.tail
  · intro i hi b' hi'
    exact h.inj i b' b hi' (hsub i hi)
  · intro b' i hbb hi
    exact hf.next i fun hi' => hbb (h.inj i b' b hi hi')

/-! ### Fuel -/

omit [DecidableEq β] in
theorem Mem.scanRest_mono {p : Option Tid} {n' : Nat} {more : Bool} (hn : n ≤ n')
    (h : m.scanRest key n p = some more) : m.scanRest key n' p = some more := by
  induction n generalizing n' p with
  | zero => cases h
  | succ n ih =>
    obtain ⟨n', rfl⟩ : ∃ k, n' = k + 1 := ⟨n' - 1, by omega⟩
    cases p with
    | none => exact h
    | some j =>
      rw [Mem.scanRest] at h ⊢
      split
      · rwa [if_pos ‹_›] at h
      · rw [if_neg ‹_›] at h
        exact ih (Nat.le_of_succ_le_succ hn) h

theorem Mem.remove_mono {n' : Nat} {r : Mem β × Bool} (hn : n ≤ n')
    (h : m.remove b key n link i previous = some r) : m.remove b key n' link i previous = some r := by
  unfold Mem.remove at h ⊢
  dsimp only at h ⊢
  split
  · rwa [if_pos ‹_›] at h
  · rw [if_neg ‹_›] at h
    obtain ⟨more, hs, rfl⟩ := Option.map_eq_some_iff.1 h
    rw [Mem.scanRest_mono hn hs]
    rfl

theorem Mem.unparkLoop_mono {p : Option Tid} {n' : Nat} {r : Mem β × Option (Tid × Bool)} (hn : n ≤ n')
    (h : m.unparkLoop b key n link p previous = some r) : m.unparkLoop b key n' link p previous = some r := by
  induction n generalizing n' link p previous with
  | zero => cases h
  | succ n ih =>
    obtain ⟨n', rfl⟩ : ∃ k, n' = k + 1 := ⟨n' - 1, by omega⟩
    cases p with
    | none => exact h
    | some j =>
      rw [Mem.unparkLoop] at h ⊢
      split
      · rw [if_pos ‹_›] at h
        obtain ⟨r', hr, rfl⟩ := Option.map_eq_some_iff.1 h
        rw [Mem.remove_mono (Nat.le_of_succ_le_succ hn) hr]
        rfl
      · rw [if_neg ‹_›] at h
        exact ih (Nat.le_of_succ_le_succ hn) h

theorem Mem.unparkOne_mono {n' now : Nat} {callback : UnparkResult → UnparkToken}
    {r : Mem β × Option Tid × UnparkResult} (hn : n ≤ n') (h : m.unparkOne b n now key callback = some r) :
    m.unparkOne b n' now key callback = some r := by
  obtain ⟨r', hr, rfl⟩ := Option.map_eq_some_iff.1 h
  unfold Mem.unparkOne
  rw [Mem.unparkLoop_mono hn hr]
  rfl

theorem Mem.timeoutLoop_mono {p : Option Tid} {n' : Nat} {wasLast : Bool} {r : Mem β × Bool} (hn : n ≤ n')
    (h : m.timeoutLoop b i key n link p previous wasLast = some r) :
    m.timeoutLoop b i key n' link p previous wasLast = some r := by
  induction n generalizing n' link p previous wasLast with
  | zero => cases h
  | succ n ih =>
    obtain ⟨n', rfl⟩ : ∃ k, n' = k + 1 := ⟨n' - 1, by omega⟩
    cases p with
    | none => cases h
    | some j =>
      rw [Mem.timeoutLoop] at h ⊢
      split
      · rw [if_pos ‹_›] at h
        obtain ⟨r', hr, rfl⟩ := Option.map_eq_some_iff.1 h
        rw [Mem.remove_mono (Nat.le_of_succ_le_succ hn) hr]
        rfl
      · rw [if_neg ‹_›] at h
        exact ih (Nat.le_of_succ_le_succ hn) h

theorem Mem.rehashLoop_mono {entry : Nat → β} {bits n' : Nat} {p : Option Tid} (hn : n ≤ n')
    (h : m.rehashLoop entry bits n p = some m') : m.rehashLoop entry bits n' p = some m' := by
  induction n generalizing m n' p with
  | zero => cases h
  | succ n ih =>
    obtain ⟨n', rfl⟩ : ∃ k, n' = k + 1 := ⟨n' - 1, by omega⟩
    cases p with
    | none => exact h
    | some j =>
      rw [Mem.rehashLoop] at h ⊢
      exact ih (Nat.le_of_succ_le_succ hn) h

/-! ### Removal -/

theorem scan_split {p : Tid → Bool} {more : Bool} (h : scan p q = some (j, more, r)) :
    ∃ l l', q = l ++ j :: l' ∧ r = l ++ l' ∧ (∀ i ∈ l, p i = false) ∧ p j = true ∧ more = l'.any p := by
  induction q generalizing r with
  | nil => cases h
  | cons i q ih =>
    rw [scan] at h
    split at h
    · rename_i hp
      cases h
      exact ⟨[], q, rfl, rfl, by simp, hp, rfl⟩
    · rename_i hp
      obtain ⟨⟨j', more', r'⟩, hs, heq⟩ := Option.map_eq_some_iff.1 h
      cases heq
      obtain ⟨l, l', rfl, rfl, hl, hj, hmore⟩ := ih hs
      refine ⟨i :: l, l', rfl, rfl, fun c hc => ?_, hj, hmore⟩
      rcases List.mem_cons.1 hc with rfl | hc
      · simpa using hp
      · exact hl c hc

/-- The scan finds the first one of the threads with the key, and says whether there is a second one. -/
theorem scan_filter {p : Tid → Bool} {more : Bool} (h : scan p q = some (j, more, r)) :
    q.filter p = j :: r.filter p ∧ more = !(r.filter p).isEmpty := by
  obtain ⟨l, l', rfl, rfl, hl, hj, rfl⟩ := scan_split h
  have hnil : l.filter p = [] := List.filter_eq_nil_iff.2 fun i hi => by simp [hl i hi]
  rw [List.filter_append, List.filter_append, hnil, List.nil_append, List.nil_append, List.filter_cons_of_pos hj]
  refine ⟨rfl, ?_⟩
  rw [Bool.eq_iff_iff, List.any_eq_true, Bool.not_eq_true', List.isEmpty_eq_false_iff, ne_eq, List.filter_eq_nil_iff]
  simp

omit [DecidableEq β] in
theorem Mem.scanRest_eq {p : Option Tid} (key : Key) (h : Path m.next p r) (hn : r.length < n) :
    m.scanRest key n p = some (r.any fun j => (m.node j).key == key) := by
  induction r generalizing p n with
  | nil =>
    obtain ⟨n, rfl⟩ : ∃ k, n = k + 1 := ⟨n - 1, by simp at hn; omega⟩
    rw [show p = none from h]
    rfl
  | cons j r ih =>
    obtain ⟨n, rfl⟩ : ∃ k, n = k + 1 := ⟨n - 1, by simp at hn; omega⟩
    obtain ⟨rfl, h⟩ := h
    rw [Mem.scanRest, List.any_cons]
    by_cases hj : (m.node j).key = key
    · rw [if_pos hj, beq_iff_eq.2 hj, Bool.true_or]
    · rw [if_neg hj, beq_eq_false_iff_ne.2 hj, Bool.false_or]
      exact ih h (by simp at hn; omega)

/-- The loop has passed the threads `l`. -/
def Passed (l : List Tid) (link : Link) (previous : Option Tid) : Prop :=
  previous = l.getLast? ∧ link = match l.getLast? with
    | some i => .next i
    | none => .head

theorem Passed.nil : Passed [] .head none := ⟨rfl, rfl⟩

theorem Passed.snoc (l : List Tid) (i : Tid) : Passed (l ++ [i]) (.next i) (some i) := by
  unfold Passed
  rw [List.getLast?_concat]
  exact ⟨rfl, rfl⟩

theorem Mem.Queue.setLink (h : m.Queue b (l ++ i :: r)) (hp : Passed l link previous) :
    Path (m.setLink b (m.next i) link).next ((m.setLink b (m.next i) link).queueHead b) (l ++ r) ∧
      Path (m.setLink b (m.next i) link).next (m.next i) r ∧
      m.Frame (m.setLink b (m.next i) link) b (l ++ i :: r) ∧
      (m.setLink b (m.next i) link).queueTail = m.queueTail := by
  have hnext : Path m.next (m.next i) r := h.path.split.2
  obtain ⟨-, hlink⟩ := hp
  rcases List.eq_nil_or_concat l with rfl | ⟨l, c, rfl⟩
  · obtain rfl : link = .head := hlink
    refine ⟨?_, hnext, ⟨rfl, fun _ _ => rfl, fun b' hb' => Function.update_of_ne hb' _ _, fun _ _ => rfl, rfl⟩, rfl⟩
    rw [show (m.setLink b (m.next i) .head).queueHead b = m.next i from Function.update_self ..]
    exact hnext
  · rw [List.concat_eq_append] at *
    rw [List.getLast?_concat] at hlink
    subst hlink
    rw [List.append_assoc] at h ⊢
    have hnd := h.path.nodup
    rw [show m.setLink b (m.next i) (.next c) = m.setNext c (m.next i) from rfl]
    refine ⟨?_, ?_, ⟨m.setNext_info c _, ?_, fun _ _ => rfl, fun _ _ => rfl, rfl⟩, rfl⟩
    · rw [Mem.setNext_next]
      exact h.path.unlink
    · rw [Mem.setNext_next]
      refine hnext.congr fun d hd => Function.update_of_ne ?_ _ _
      rintro rfl
      exact (List.nodup_cons.1 hnd.of_append_right).1 (by simp [hd])
    · intro j hj
      rw [Mem.setNext_next]
      exact Function.update_of_ne (by rintro rfl; exact hj (by simp)) _ _

omit [DecidableEq β] in
/-- The tail is the thread that is taken out if it is the last one. -/
theorem Mem.Queue.tail_iff (h : m.Queue b (l ++ i :: r)) : m.queueTail b = some i ↔ r = [] := by
  rw [h.tail]
  rcases List.eq_nil_or_concat r with rfl | ⟨r, c, rfl⟩
  · simp
  · have hnd := h.path.nodup.of_append_right
    rw [List.concat_eq_append, ← List.cons_append, ← List.append_assoc, List.getLast?_concat]
    simp only [Option.some.injEq, List.append_eq_nil_iff, List.cons_ne_nil, and_false, iff_false]
    rintro rfl
    exact (List.nodup_cons.1 hnd).1 (by simp)

theorem Mem.Queue.remove (h : m.Queue b (l ++ i :: r)) (hp : Passed l link previous) (hn : r.length < n) :
    ∃ m', m.remove b key n link i previous = some (m', r.any fun j => (m.node j).key == key) ∧
      m'.Queue b (l ++ r) ∧ m.Frame m' b (l ++ i :: r) := by
  obtain ⟨hpath, hrest, hframe, htail⟩ := h.setLink hp
  have hscan := Mem.scanRest_eq key hrest hn
  simp only [Mem.key_eq hframe.info] at hscan
  unfold Mem.remove
  dsimp only
  rw [show (m.node i).nextInQueue = m.next i from rfl]
  generalize m.setLink b (m.next i) link = m₁ at hpath hframe htail hscan ⊢
  rw [htail, hscan]
  by_cases hr : r = []
  · rw [if_pos (h.tail_iff.2 hr)]
    subst hr
    refine ⟨_, rfl, ⟨hpath, ?_⟩, ⟨hframe.info, hframe.next, hframe.head, ?_, hframe.fair⟩⟩
    · rw [List.append_nil, ← hp.1]
      exact Function.update_self ..
    · intro b' hb'
      rw [← hframe.tail b' hb']
      exact Function.update_of_ne hb' _ _
  · rw [if_neg (mt h.tail_iff.1 hr)]
    refine ⟨_, rfl, ⟨hpath, ?_⟩, hframe⟩
    rw [htail, h.tail, List.getLast?_append_of_ne_nil _ hr,
      List.getLast?_append_of_ne_nil _ (List.cons_ne_nil _ _), List.getLast?_cons_of_ne_nil hr]

theorem Mem.Queue.unparkLoop (key : Key) (h : m.Queue b (l ++ r)) (hp : Passed l link previous)
    (hn : r.length < n) :
    match scan (fun j => (m.node j).key == key) r with
    | none => m.unparkLoop b key n link r.head? previous = some (m, none)
    | some (j, more, rest) =>
      ∃ m', m.unparkLoop b key n link r.head? previous = some (m', some (j, more)) ∧
        m'.Queue b (l ++ rest) ∧ m.Frame m' b (l ++ r) := by
  induction r generalizing l link previous n with
  | nil =>
    obtain ⟨n, rfl⟩ : ∃ k, n = k + 1 := ⟨n - 1, by simp at hn; omega⟩
    rfl
  | cons i r ih =>
    obtain ⟨n, rfl⟩ : ∃ k, n = k + 1 := ⟨n - 1, by simp at hn; omega⟩
    have hn' : r.length < n := by simp at hn; omega
    rw [scan, List.head?_cons, Mem.unparkLoop]
    by_cases hk : (m.node i).key = key
    · rw [if_pos (beq_iff_eq.2 hk), if_pos hk]
      obtain ⟨m', hrem, hq, hframe⟩ := h.remove hp hn'
      exact ⟨m', by rw [hrem]; rfl, hq, hframe⟩
    · rw [if_neg (by simpa using hk), if_neg hk]
      have hnext : (m.node i).nextInQueue = r.head? := h.path.split.2.eq_head?
      rw [hnext]
      have hpass := ih (l := l ++ [i]) (by rw [List.append_assoc]; exact h) (.snoc l i) hn'
      cases hs : scan (fun j => (m.node j).key == key) r with
      | none =>
        rw [hs] at hpass
        exact hpass
      | some t =>
        obtain ⟨j, more, rest⟩ := t
        rw [hs] at hpass
        obtain ⟨m', hloop, hq, hframe⟩ := hpass
        rw [List.append_assoc] at hq hframe
        exact ⟨m', hloop, hq, hframe⟩

theorem Mem.Queue.timeoutLoop (key : Key) (wasLast : Bool) (h : m.Queue b (l ++ r))
    (hp : Passed l link previous) (hn : r.length < n) (hi : i ∈ r) :
    ∃ m', m.timeoutLoop b i key n link r.head? previous wasLast =
        some (m', wasLast && !(r.erase i).any fun j => (m.node j).key == key) ∧
      m'.Queue b (l ++ r.erase i) ∧ m.Frame m' b (l ++ r) := by
  induction r generalizing l link previous n wasLast with
  | nil => cases hi
  | cons j r ih =>
    obtain ⟨n, rfl⟩ : ∃ k, n = k + 1 := ⟨n - 1, by simp at hn; omega⟩
    have hn' : r.length < n := by simp at hn; omega
    rw [List.head?_cons, Mem.timeoutLoop]
    by_cases hji : j = i
    · subst j
      rw [if_pos rfl, List.erase_cons_head]
      obtain ⟨m', hrem, hq, hframe⟩ := h.remove hp hn'
      exact ⟨m', by rw [hrem]; rfl, hq, hframe⟩
    · rw [if_neg hji, List.erase_cons_tail (by simpa using hji)]
      have hnext : (m.node j).nextInQueue = r.head? := h.path.split.2.eq_head?
      have hmem : i ∈ r := (List.mem_cons.1 hi).resolve_left (Ne.symm hji)
      rw [hnext]
      obtain ⟨m', hloop, hq, hframe⟩ :=
        ih (l := l ++ [j]) _ (by rw [List.append_assoc]; exact h) (.snoc l j) hn' hmem
      rw [List.append_assoc] at hq hframe
      refine ⟨m', ?_, hq, hframe⟩
      rw [hloop, List.any_cons]
      by_cases hk : (m.node j).key = key
      · rw [if_pos hk, beq_iff_eq.2 hk, Bool.true_or, Bool.not_true, Bool.and_false, Bool.false_and]
      · rw [if_neg hk, beq_eq_false_iff_ne.2 hk, Bool.false_or]

/-! ### The operations -/

theorem Mem.Queues.park (h : m.Queues live Q) (hb : live b) (hi : ∀ b', i ∉ Q b') (key : Key) (parkToken : Nat)
    (timeout : Bool) :
    ∃ m', m.park b i key parkToken timeout = some m' ∧ m'.Queues live (Function.update Q b (Q b ++ [i])) ∧
      m'.info = Function.update m.info i
        { m.info i with parkedWithTimeout := timeout, key, parkToken, futex := 1 } ∧
      m'.fairTimeout = m.fairTimeout := by
  have hnone : ∀ d : Node, d.nextInQueue = none → (m.setNode i d).next = Function.update m.next i none := by
    intro d hd
    funext j
    by_cases hj : j = i <;> simp [Mem.next, Mem.setNode, hj, hd]
  unfold Mem.park
  dsimp only
  generalize hd : ({ m.node i with parkedWithTimeout := timeout, nextInQueue := none, key, parkToken, futex := 1 } :
    Node) = d
  have hnext := hnone d (by rw [← hd])
  have hinfo : (m.setNode i d).info = Function.update m.info i
      { m.info i with parkedWithTimeout := timeout, key, parkToken, futex := 1 } := by
    rw [Mem.setNode_info, ← hd]
    rfl
  -- the pointer of a thread in no queue may change
  have h' : (m.setNode i d).Queues live Q := by
    refine Linked.Queues.congr h (fun b' j hj => ?_) (fun _ _ => rfl) fun _ _ => rfl
    rw [hnext]
    exact Function.update_of_ne (by rintro rfl; exact hi b' hj) _ _
  have hi0 : (m.setNode i d).next i = none := by rw [hnext, Function.update_self]
  have hfair : (m.setNode i d).fairTimeout = m.fairTimeout := rfl
  generalize m.setNode i d = m₁ at h' hi0 hinfo hfair ⊢
  have hhead := (h'.path b hb).eq_head?
  have htail := h'.tail b hb
  cases hl : (Q b).getLast? with
  | none =>
    have hQ : Q b = [] := List.getLast?_eq_none_iff.1 hl
    rw [hhead, hQ, List.head?_nil]
    exact ⟨_, rfl, hQ ▸ Linked.Queues.first h' hb hi hi0 hQ, hinfo, hfair⟩
  | some c =>
    obtain ⟨a, ha⟩ : ∃ a, (Q b).head? = some a := by
      cases hQ : Q b with
      | nil => rw [hQ] at hl; cases hl
      | cons a q => exact ⟨a, rfl⟩
    rw [hhead, htail, ha, hl]
    refine ⟨_, rfl, ?_, ?_, hfair⟩
    · have hsnoc := Linked.Queues.snoc h' hb hi hi0 hl
      rw [← Mem.setNext_next] at hsnoc
      exact hsnoc
    · rw [← hinfo]
      exact m₁.setNext_info c _

theorem Mem.Queues.unparkOne (key : Key) (h : m.Queues live Q) (hb : live b) (hn : (Q b).length < n) (now : Nat)
    (callback : UnparkResult → UnparkToken) :
    match scan (fun j => (m.node j).key == key) (Q b) with
    | none => m.unparkOne b n now key callback = some (m, none, ⟨0, false, false⟩)
    | some (j, more, rest) =>
      let fair := (m.fairTimeout b).shouldTimeout now
      ∃ m', m.unparkOne b n now key callback = some (m', some j, ⟨1, more, fair.2⟩) ∧
        m'.Queues live (Function.update Q b rest) ∧
        m'.info = Function.update m.info j
          { m.info j with unparkToken := callback ⟨1, more, fair.2⟩, futex := 0 } ∧
        m'.fairTimeout = Function.update m.fairTimeout b fair.1 := by
  have hloop := Mem.Queue.unparkLoop (l := []) key (h.queue hb) .nil hn
  rw [← (h.path b hb).eq_head?] at hloop
  unfold Mem.unparkOne
  cases hs : scan (fun j => (m.node j).key == key) (Q b) with
  | none =>
    rw [hs] at hloop
    rw [show m.unparkLoop b key n .head (m.queueHead b) none = some (m, none) from hloop]
    rfl
  | some t =>
    obtain ⟨j, more, rest⟩ := t
    rw [hs] at hloop
    obtain ⟨m₁, hrun, hq, hframe⟩ := hloop
    have hsub : ∀ i ∈ rest, i ∈ Q b := fun i hi =>
      (scan_eq_some hs).2.1.mem_iff.2 (List.mem_cons_of_mem _ hi)
    have hQ := h.frame hb hframe hq hsub
    rw [hrun, ← hframe.fair]
    refine ⟨_, rfl, ?_, ?_, rfl⟩
    · refine Mem.Queues.setNode ?_ rfl
      exact hQ
    · rw [Mem.setNode_info, ← hframe.info]
      rfl

theorem Mem.Queues.timedOut (key : Key) (h : m.Queues live Q) (hb : live b) (hn : (Q b).length < n)
    (hi : i ∈ Q b) :
    ∃ m', m.timedOut b n i key = some (m', !((Q b).erase i).any fun j => (m.node j).key == key) ∧
      m'.Queues live (Function.update Q b ((Q b).erase i)) ∧ m'.info = m.info ∧
      m'.fairTimeout = m.fairTimeout := by
  obtain ⟨m', hrun, hq, hframe⟩ :=
    Mem.Queue.timeoutLoop (l := []) key true (h.queue hb) .nil hn hi
  rw [← (h.path b hb).eq_head?, Bool.true_and] at hrun
  exact ⟨m', hrun, h.frame hb hframe hq fun j hj => List.mem_of_mem_erase hj, hframe.info, hframe.fair⟩

/-! ### Moving a bucket -/

/-- One thread is moved; it is in no queue of the new table yet. -/
theorem Mem.Queues.rehash (h : m.Queues live Q) (hb : live b) (hi : ∀ b', i ∉ Q b') :
    (m.rehash b i).Queues live (Function.update Q b (Q b ++ [i])) ∧ (m.rehash b i).info = m.info ∧
      (m.rehash b i).fairTimeout = m.fairTimeout ∧ ∀ j, j ≠ i → j ∉ Q b → (m.rehash b i).next j = m.next j := by
  have h' : (m.setNext i none).Queues live Q := by
    refine Linked.Queues.congr h (fun b' j hj => ?_) (fun _ _ => rfl) fun _ _ => rfl
    rw [Mem.setNext_next]
    exact Function.update_of_ne (by rintro rfl; exact hi b' hj) _ _
  have hi0 : (m.setNext i none).next i = none := by rw [Mem.setNext_next, Function.update_self]
  unfold Mem.rehash
  rw [h.tail b hb]
  cases hl : (Q b).getLast? with
  | none =>
    have hQ : Q b = [] := List.getLast?_eq_none_iff.1 hl
    refine ⟨Linked.Queues.first h' hb hi hi0 hQ, m.setNext_info i none, rfl, fun j hj _ => ?_⟩
    show (m.setNext i none).next j = m.next j
    rw [Mem.setNext_next]
    exact Function.update_of_ne hj _ _
  | some c =>
    have hcb : c ∈ Q b := List.mem_of_getLast? hl
    have hci : c ≠ i := by
      rintro rfl
      exact hi b hcb
    have hnext : ((m.setNext c (some i)).setNext i none).next =
        Function.update (m.setNext i none).next c (some i) := by
      rw [Mem.setNext_next, Mem.setNext_next, Mem.setNext_next, Function.update_comm hci]
    refine ⟨?_, ?_, rfl, fun j hj hjb => ?_⟩
    · have hsnoc := Linked.Queues.snoc h' hb hi hi0 hl
      rw [← hnext] at hsnoc
      exact hsnoc
    · exact ((m.setNext c (some i)).setNext_info i none).trans (m.setNext_info c _)
    · show ((m.setNext c (some i)).setNext i none).next j = m.next j
      rw [hnext, Function.update_of_ne (by rintro rfl; exact hjb hcb), Mem.setNext_next,
        Function.update_of_ne hj]

theorem Mem.Queues.rehashLoop (entry : Nat → β) (bits : Nat) {p : Option Tid} (h : m.Queues live Q)
    (hlive : ∀ key, live (entry (hash key bits))) (hp : Path m.next p r) (hr : ∀ i ∈ r, ∀ b, i ∉ Q b)
    (hn : r.length < n) :
    ∃ m', m.rehashLoop entry bits n p = some m' ∧
      m'.Queues live (fun b => Q b ++ r.filter fun i => entry (hash (m.node i).key bits) = b) ∧
      m'.info = m.info ∧ m'.fairTimeout = m.fairTimeout := by
  induction r generalizing m Q p n with
  | nil =>
    obtain ⟨n, rfl⟩ : ∃ k, n = k + 1 := ⟨n - 1, by simp at hn; omega⟩
    rw [show p = none from hp]
    exact ⟨m, rfl, by simpa using h, rfl, rfl⟩
  | cons i r ih =>
    obtain ⟨n, rfl⟩ : ∃ k, n = k + 1 := ⟨n - 1, by simp at hn; omega⟩
    obtain ⟨hir, -⟩ := List.nodup_cons.1 hp.nodup
    obtain ⟨rfl, hp⟩ := hp
    have hi := hr i List.mem_cons_self
    obtain ⟨hQ, hinfo, hfair, hnext⟩ := h.rehash (hlive (m.node i).key) hi
    rw [Mem.rehashLoop]
    generalize m.rehash (entry (hash (m.node i).key bits)) i = m₂ at hQ hinfo hfair hnext ⊢
    obtain ⟨m', hrun, hQ', hinfo', hfair'⟩ := ih (n := n) hQ
      (hp.congr fun j hj => hnext j (by rintro rfl; exact hir hj) (hr j (List.mem_cons_of_mem _ hj) _))
      (fun j hj b => by
        by_cases hb : b = entry (hash (m.node i).key bits)
        · subst hb
          rw [Function.update_self, List.mem_append, List.mem_singleton, not_or]
          exact ⟨hr j (List.mem_cons_of_mem _ hj) _, by rintro rfl; exact hir hj⟩
        · rw [Function.update_of_ne hb]
          exact hr j (List.mem_cons_of_mem _ hj) b)
      (by simp at hn; omega)
    refine ⟨m', hrun, ?_, hinfo'.trans hinfo, hfair'.trans hfair⟩
    have heq : (fun b => Q b ++ (i :: r).filter fun i => entry (hash (m.node i).key bits) = b) =
        fun b => Function.update Q (entry (hash (m.node i).key bits))
          (Q (entry (hash (m.node i).key bits)) ++ [i]) b ++
          r.filter fun j => entry (hash (m₂.node j).key bits) = b := by
      funext b
      simp only [Mem.key_eq hinfo]
      by_cases hb : entry (hash (m.node i).key bits) = b
      · subst hb
        rw [Function.update_self, List.append_assoc, List.filter_cons_of_pos (by simp), List.singleton_append]
      · rw [Function.update_of_ne (Ne.symm hb), List.filter_cons_of_neg (by simpa using hb)]
    rw [heq]
    exact hQ'

/-- The bucket `b` is given up, and its threads are behind those of the buckets they belong to. -/
theorem Mem.Queues.rehashBucketInto (entry : Nat → β) (bits : Nat) (h : m.Queues live Q) (hb : live b)
    (hlive : ∀ key, live (entry (hash key bits)) ∧ entry (hash key bits) ≠ b) (hn : (Q b).length < n) :
    ∃ m', m.rehashBucketInto n b entry bits = some m' ∧
      m'.Queues (fun b' => live b' ∧ b' ≠ b) (fun b' => if b' = b then [] else
        Q b' ++ (Q b).filter fun i => entry (hash (m.node i).key bits) = b') ∧
      m'.info = m.info ∧ m'.fairTimeout = m.fairTimeout := by
  have hrest : m.Queues (fun b' => live b' ∧ b' ≠ b) (Function.update Q b []) := by
    constructor
    · rintro b' ⟨hb', hne⟩
      rw [Function.update_of_ne hne]
      exact h.path b' hb'
    · rintro b' ⟨hb', hne⟩
      rw [Function.update_of_ne hne]
      exact h.tail b' hb'
    · intro i b₁ b₂ h₁ h₂
      rcases Schedule.at_update (P := (i ∈ ·)) h₁ with ⟨-, h₁⟩ | ⟨-, h₁⟩
      · cases h₁
      · rcases Schedule.at_update (P := (i ∈ ·)) h₂ with ⟨-, h₂⟩ | ⟨-, h₂⟩
        · cases h₂
        · exact h.inj i b₁ b₂ h₁ h₂
    · intro i b' hi
      rcases Schedule.at_update (P := (i ∈ ·)) hi with ⟨-, hi⟩ | ⟨hne, hi⟩
      · cases hi
      · exact ⟨h.sub i b' hi, hne⟩
  obtain ⟨m', hrun, hQ, hinfo, hfair⟩ := hrest.rehashLoop entry bits hlive (h.path b hb)
    (fun i hi b' hi' => by
      rcases Schedule.at_update (P := (i ∈ ·)) hi' with ⟨-, hi'⟩ | ⟨hne, hi'⟩
      · cases hi'
      · exact hne (h.inj i b' b hi' hi)) hn
  refine ⟨m', hrun, ?_, hinfo, hfair⟩
  have heq : (fun b' => if b' = b then [] else
      Q b' ++ (Q b).filter fun i => entry (hash (m.node i).key bits) = b') =
      fun b' => Function.update Q b [] b' ++ (Q b).filter fun i => entry (hash (m.node i).key bits) = b' := by
    funext b'
    by_cases hbb : b' = b
    · subst hbb
      rw [if_pos rfl, Function.update_self, List.nil_append, eq_comm, List.filter_eq_nil_iff]
      intro i _
      simpa using (hlive (m.node i).key).2
    · rw [if_neg hbb, Function.update_of_ne hbb]
  rw [heq]
  exact hQ

end

end CoQueue.Mutex.Bucket
