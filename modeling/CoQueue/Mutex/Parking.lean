import Mathlib.Logic.Function.Basic
import Mathlib.Data.List.Nodup
import Mathlib.Data.Nat.Log
import Mathlib.Algebra.Group.Nat.Defs

/-!
# The parking lot (`mutex/deadlock.rs`)

The data that `park` and `unpark_one` work on: a hash table of buckets, each with the queue of the
threads parked in it, and one `ThreadData` per thread. A bucket holds the threads of every address
that hashes to it. `park` and `unpark_one` do all their work on a queue under its bucket's lock;
the pieces here are the bodies of these sections, as functions of the queue.

A queue is the list of its threads from `queue_head` to `queue_tail`. Nobody parks with a timeout
(`lock_slow` passes `None`) and nothing sets `deadlocked`, so `timed_out`, `on_unpark` and the part of
`park` behind a timeout are never run.
-/

namespace CoQueue.Mutex

abbrev Tid := Nat

/-- The address of a `RawMutex`, as a `usize`. -/
abbrev Key := UInt64

abbrev UnparkToken := Nat

def tokenNormal : UnparkToken := 0

def tokenHandoff : UnparkToken := 1

/-- The fields of `ThreadData` that a mutex uses. -/
structure ThreadData where
  key : Key
  /-- `parker.futex`: not `0` while the thread has to wait. -/
  futex : Nat
  unparkToken : UnparkToken
  resources : List Key

/-- `ThreadData::new`. -/
def ThreadData.new : ThreadData := ⟨0, 0, 0, []⟩

/-! ### Resources -/

/-- `Vec::swap_remove`: the last entry takes the place of entry `p`. -/
def swapRemove (l : List Key) (p : Nat) : List Key :=
  match l.getLast? with
  | some x => (l.set p x).dropLast
  | none => l

/-- `deadlock_impl::acquire_resource`. -/
def ThreadData.acquireResource (d : ThreadData) (key : Key) : ThreadData :=
  { d with resources := d.resources ++ [key] }

/-- `deadlock_impl::release_resource`; `rposition` finds the last entry. -/
def releaseResource (resources : List Key) (key : Key) : List Key :=
  match resources.reverse.idxOf? key with
  | some p => swapRemove resources (resources.length - 1 - p)
  | none => resources

def ThreadData.releaseResource (d : ThreadData) (key : Key) : ThreadData :=
  { d with resources := Mutex.releaseResource d.resources key }

theorem swapRemove_perm (l l' : List Key) (x : Key) :
    List.Perm (l ++ x :: l') (x :: swapRemove (l ++ x :: l') l.length) := by
  rcases List.eq_nil_or_concat l' with rfl | ⟨l', y, rfl⟩
  · simp only [swapRemove, List.getLast?_concat, List.set_append_right _ _ (Nat.le_refl _), Nat.sub_self,
      List.set_cons_zero, List.dropLast_concat]
    exact List.perm_append_singleton x l
  · have hlast : (l ++ x :: l'.concat y).getLast? = some y := by
      rw [show l ++ x :: l'.concat y = (l ++ x :: l') ++ [y] by simp, List.getLast?_concat]
    have hset : (l ++ x :: l'.concat y).set l.length y = (l ++ y :: l') ++ [y] := by
      rw [List.set_append_right _ _ (Nat.le_refl _)]; simp
    simp only [swapRemove, hlast, hset, List.dropLast_concat]
    refine List.perm_iff_count.2 fun z => ?_
    simp only [List.concat_eq_append, List.count_append, List.count_cons, List.count_nil]
    omega

theorem ThreadData.releaseResource_perm {d : ThreadData} {key : Key} (h : key ∈ d.resources) :
    List.Perm d.resources (key :: (d.releaseResource key).resources) := by
  obtain ⟨a, b, hab, ha⟩ := List.eq_append_cons_of_mem (List.mem_reverse.2 h)
  have hres : d.resources = b.reverse ++ key :: a.reverse := by
    rw [← List.reverse_reverse d.resources, hab]; simp
  have hidx : d.resources.reverse.idxOf? key = some a.length := by
    rw [List.idxOf?_eq_some_iff, hab]
    refine ⟨by simp, by simp, fun j hj hk => ha ?_⟩
    rw [← hk, List.getElem_append_left hj]
    exact List.getElem_mem hj
  have hlen : d.resources.length - 1 - a.length = b.reverse.length := by
    rw [hres]; simp only [List.length_append, List.length_reverse, List.length_cons]; omega
  simp only [releaseResource, Mutex.releaseResource, hidx, hlen]
  rw [hres]
  exact swapRemove_perm _ _ key

/-! ### The hash table -/

def loadFactor : Nat := 3

/-- `HashTable::new`: `hash_bits` for a number of threads. -/
def hashBits (numThreads : Nat) : Nat := (numThreads * loadFactor).nextPowerOfTwo.log2

/-- `hash` on a 64-bit target. -/
def hash (key : Key) (bits : Nat) : Nat := (key * 0x9E3779B97F4A7C15).toNat >>> (64 - bits)

theorem hash_lt (key : Key) (bits : Nat) : hash key bits < 2 ^ bits := by
  unfold hash
  have hlt := (key * 0x9E3779B97F4A7C15).toNat_lt
  rw [Nat.shiftRight_eq_div_pow, Nat.div_lt_iff_lt_mul (Nat.two_pow_pos _), ← Nat.pow_add]
  exact Nat.lt_of_lt_of_le hlt (Nat.pow_le_pow_right (by omega) (by omega))

/-- The current `HashTable`: `queue b` is the queue of bucket `b`. -/
structure HashTable where
  hashBits : Nat
  queue : Nat → List Tid

/-- `create_hashtable`. -/
def HashTable.create : HashTable := ⟨Mutex.hashBits loadFactor, fun _ => []⟩

/-- `grow_hashtable`: the queues are moved bucket by bucket, each thread to the bucket of its key. -/
def HashTable.grow (t : HashTable) (key : Tid → Key) (numThreads : Nat) : HashTable :=
  if loadFactor * numThreads ≤ 2 ^ t.hashBits then t
  else
    ⟨Mutex.hashBits numThreads, fun b =>
      ((List.range (2 ^ t.hashBits)).flatMap t.queue).filter fun i =>
        hash (key i) (Mutex.hashBits numThreads) = b⟩

/-- The bucket that `lock_bucket` locks. -/
def HashTable.bucket (t : HashTable) (key : Key) : Nat := hash key t.hashBits

def HashTable.setQueue (t : HashTable) (b : Nat) (l : List Tid) : HashTable :=
  { t with queue := Function.update t.queue b l }

@[simp] theorem HashTable.setQueue_bucket (t : HashTable) (b : Nat) (l : List Tid) (key : Key) :
    (t.setQueue b l).bucket key = t.bucket key := rfl

@[simp] theorem HashTable.setQueue_queue (t : HashTable) (b : Nat) (l : List Tid) :
    (t.setQueue b l).queue = Function.update t.queue b l := rfl

/-- The scan of `unpark_one`: the first thread with the key, whether another one with the key comes
behind it, and the queue without it. -/
def scan (p : Tid → Bool) : List Tid → Option (Tid × Bool × List Tid)
  | [] => none
  | i :: l =>
    if p i then some (i, l.any p, l)
    else (scan p l).map fun r => (r.1, r.2.1, i :: r.2.2)

theorem scan_eq_none {p : Tid → Bool} {l : List Tid} (h : scan p l = none) : ∀ i ∈ l, p i = false := by
  induction l with
  | nil => simp
  | cons i l ih =>
    simp only [scan] at h
    split at h
    · cases h
    · rename_i hp
      intro j hj
      rcases List.mem_cons.1 hj with rfl | hj
      · simpa using hp
      · exact ih (Option.map_eq_none_iff.1 h) j hj

theorem scan_eq_some {p : Tid → Bool} {l l' : List Tid} {j : Tid} {more : Bool}
    (h : scan p l = some (j, more, l')) : p j = true ∧ List.Perm l (j :: l') ∧ more = l'.any p := by
  induction l generalizing l' with
  | nil => cases h
  | cons i l ih =>
    simp only [scan] at h
    split at h
    · cases h
      exact ⟨‹_›, List.Perm.refl _, rfl⟩
    · rename_i hp
      obtain ⟨r, hr, heq⟩ := Option.map_eq_some_iff.1 h
      obtain ⟨j', more', l''⟩ := r
      simp only [Prod.mk.injEq] at heq
      obtain ⟨rfl, rfl, rfl⟩ := heq
      obtain ⟨h1, h2, h3⟩ := ih hr
      refine ⟨h1, (h2.cons i).trans (List.Perm.swap ..), ?_⟩
      rw [List.any_cons, Bool.eq_false_iff.2 hp, Bool.false_or]
      exact h3

end CoQueue.Mutex
