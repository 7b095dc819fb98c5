import Mathlib.Logic.Function.Basic

/-!
# `PtrGuard` (`queue/shift_guard.rs`)

The bounded buffer that `RawQueue` keeps twice, as `push_guard` and as `pop_guard`. `push` and `pop`
are not atomic: each loads `len`, touches one slot and then runs one `compare_and_swap` on `len`
whose outcome nobody looks at. This file has the memory they act on and the single accesses; the
order in which a thread makes them is in the program points of `RawQueue`, and for a thread that
nobody interrupts in `push` and `pop`.

The pointer `guard` itself is stored once, at construction, so its loads are not modelled. The
`Mootex` of the guard is the lock field of `RawQueue`'s memory.
-/

namespace CoQueue.Shift

structure PtrGuard (T : Type) where
  cap : Nat
  len : Nat
  /-- The memory behind `guard`, past its end included; `none` where no push has written. -/
  slot : Nat → Option T

namespace PtrGuard

variable {T : Type}

/-- `PtrGuard::with_threads`; `PtrGuard::new` is the same with the number of CPUs. -/
def withThreads (threads : Nat) : PtrGuard T := ⟨threads, 0, fun _ => none⟩

def isEmpty (g : PtrGuard T) : Bool := g.len == 0

/-- `ptr::write(guard.add(i), node)`. -/
def write (g : PtrGuard T) (i : Nat) (node : T) : PtrGuard T :=
  { g with slot := Function.update g.slot i (some node) }

/-- `self.len.compare_and_swap(old, new, _)`, its result dropped. -/
def compareAndSwap (g : PtrGuard T) (old new : Nat) : PtrGuard T :=
  if g.len = old then { g with len := new } else g

/-- `PtrGuard::push` of a thread that nobody interrupts; `Err` gives the node back. -/
def push (g : PtrGuard T) (node : T) : Except T Unit × PtrGuard T :=
  if g.len = g.cap then (.error node, g)
  else (.ok (), (g.write g.len node).compareAndSwap g.len (g.len + 1))

/-- `PtrGuard::pop` of a thread that nobody interrupts. `Ok` comes with the slot that was read, and with
`none` for an entry if no push has written there. -/
def pop (g : PtrGuard T) : Except Unit (Nat × Option T) × PtrGuard T :=
  if g.len = 0 then (.error (), g)
  else (.ok (g.len, g.slot g.len), g.compareAndSwap g.len (g.len - 1))

@[simp] theorem write_cap (g : PtrGuard T) (i : Nat) (x : T) : (g.write i x).cap = g.cap := rfl

@[simp] theorem write_len (g : PtrGuard T) (i : Nat) (x : T) : (g.write i x).len = g.len := rfl

@[simp] theorem compareAndSwap_cap (g : PtrGuard T) (old new : Nat) :
    (g.compareAndSwap old new).cap = g.cap := by
  unfold compareAndSwap; split <;> rfl

@[simp] theorem compareAndSwap_slot (g : PtrGuard T) (old new : Nat) :
    (g.compareAndSwap old new).slot = g.slot := by
  unfold compareAndSwap; split <;> rfl

theorem compareAndSwap_len (g : PtrGuard T) (old new : Nat) :
    (g.compareAndSwap old new).len = if g.len = old then new else g.len := by
  unfold compareAndSwap; split <;> rfl

theorem slot_write_eq {g : PtrGuard T} {i j : Nat} {x y : T} (h : (g.write i x).slot j = some y) :
    y = x ∨ g.slot j = some y := by
  simp only [write, Function.update_apply] at h
  split at h
  · exact .inl (Option.some.inj h).symm
  · exact .inr h

theorem slot_write_self {g : PtrGuard T} {i : Nat} {x : T} : (g.write i x).slot i = some x :=
  Function.update_self ..

theorem slot_write_of_ne {g : PtrGuard T} {i j : Nat} {x : T} (h : j ≠ i) : (g.write i x).slot j = g.slot j :=
  Function.update_of_ne h ..

theorem slot_write_ne_none {g : PtrGuard T} {i j : Nat} {x : T} (h : g.slot j ≠ none) :
    (g.write i x).slot j ≠ none := by
  by_cases hj : j = i
  · rw [hj, slot_write_self]
    exact Option.some_ne_none x
  · rw [slot_write_of_ne hj]
    exact h

/-- The slots below `n` have been written. -/
def Written (g : PtrGuard T) (n : Nat) : Prop := ∀ k, k < n → g.slot k ≠ none

end PtrGuard

end CoQueue.Shift
