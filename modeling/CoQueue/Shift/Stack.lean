import CoQueue.Shift.PtrGuard

/-!
# `PtrGuard` is not quite a stack

A thread that has a `PtrGuard` for itself pushes and pops. What the guard should then do is what a stack of
bounded size does (`Stacked`). `push` keeps to it, and so does `pop` on an empty guard; but `pop` reads the
slot at `len`, and the last entry is in the slot before. The first `pop` that finds an entry therefore
reads a slot that no push has written, and with a full guard one that is not the guard's at all.
-/

namespace CoQueue.Shift

inductive GuardOp (T : Type)
  | push (node : T)
  | pop

inductive GuardRes (T : Type)
  | push (res : Except T Unit)
  | pop (res : Except Unit (Nat × Option T))

namespace PtrGuard

variable {T : Type} {g : PtrGuard T} {st : List T} {ops : List (GuardOp T)}

def call (g : PtrGuard T) : GuardOp T → GuardRes T × PtrGuard T
  | .push x => (.push (g.push x).1, (g.push x).2)
  | .pop => (.pop g.pop.1, g.pop.2)

/-- The entries that have been pushed and not popped, the last one first, after a call that returned `r`. -/
def stored (st : List T) : GuardOp T → GuardRes T → List T
  | .push x, .push (.ok _) => x :: st
  | .pop, .pop (.ok _) => st.tail
  | _, _ => st

/-- The call does what it does on a stack of at most `cap` entries that holds `st`. -/
def Stacked (g : PtrGuard T) (st : List T) : GuardOp T → Prop
  | .push x =>
    (g.push x = (.error x, g) ↔ st.length = g.cap) ∧ ((g.push x).1 = .ok () ↔ st.length ≠ g.cap)
  | .pop =>
    (g.pop.1 = .error () ↔ st = []) ∧
      ∀ i e, g.pop.1 = .ok (i, e) → i < g.cap ∧ g.slot i ≠ none ∧ e = st.head? ∧ e ≠ none

/-- Every call of the run does. -/
def StackRun (g : PtrGuard T) (st : List T) : List (GuardOp T) → Prop
  | [] => True
  | op :: ops => Stacked g st op ∧ StackRun (g.call op).2 (stored st op (g.call op).1) ops

def popsAfterPush : List (GuardOp T) → Bool
  | [] => false
  | .push _ :: ops => ops.any fun | .pop => true | .push _ => false
  | .pop :: ops => popsAfterPush ops

/-- No `pop` of the run finds an entry, if the guard holds `st` and has room for some. -/
def popsNone (st : List T) (ops : List (GuardOp T)) : Bool :=
  if st.isEmpty then !popsAfterPush ops else !ops.any fun | .pop => true | .push _ => false

/-- No `pop` has taken an entry from the guard yet. -/
structure Fresh (g : PtrGuard T) (st : List T) : Prop where
  len : g.len = st.length
  le : g.len ≤ g.cap
  slot : ∀ i, g.len ≤ i → g.slot i = none

theorem fresh_withThreads (cap : Nat) : Fresh (.withThreads cap : PtrGuard T) [] :=
  ⟨rfl, Nat.zero_le _, fun _ _ => rfl⟩

theorem push_full (x : T) (h : g.len = g.cap) : g.push x = (.error x, g) := if_pos h

theorem push_room (x : T) (h : g.len ≠ g.cap) :
    g.push x = (.ok (), { g with len := g.len + 1, slot := Function.update g.slot g.len (some x) }) := by
  simp [push, h, compareAndSwap, write]

theorem pop_empty (h : g.len = 0) : g.pop = (.error (), g) := if_pos h

theorem pop_some (h : g.len ≠ 0) :
    g.pop = (.ok (g.len, g.slot g.len), { g with len := g.len - 1 }) := by
  simp [pop, h, compareAndSwap]

theorem Fresh.push (hf : Fresh g st) (x : T) (h : g.len ≠ g.cap) : Fresh (g.push x).2 (x :: st) := by
  have hle := hf.le
  rw [push_room x h]
  refine ⟨by simp [hf.len], by simp only; omega, fun i hi => ?_⟩
  simp only at hi ⊢
  rw [Function.update_of_ne (by omega)]
  exact hf.slot i (by omega)

theorem Fresh.stacked_push (hf : Fresh g st) (x : T) : Stacked g st (.push x) := by
  have hlen := hf.len
  by_cases h : g.len = g.cap
  · simp [Stacked, push_full x h, ← hlen, h]
  · simp [Stacked, push_room x h, ← hlen, h]

/-- From a guard that no `pop` has touched, the run is one of a stack as long as no `pop` finds an entry. -/
theorem Fresh.stackRun_iff (hf : Fresh g st) :
    StackRun g st ops ↔ g.cap = 0 ∨ popsNone st ops = true := by
  induction ops generalizing g st with
  | nil => cases st <;> simp [StackRun, popsNone, popsAfterPush]
  | cons op ops ih =>
    cases op with
    | push x =>
      simp only [StackRun, hf.stacked_push x, true_and, call]
      by_cases h : g.len = g.cap
      · rw [push_full x h]
        refine (ih hf).trans (or_congr_right' fun hcap => ?_)
        have hne : st ≠ [] := by
          rintro rfl
          exact hcap (h.symm.trans hf.len)
        simp [popsNone, hne]
      · have hcap : (g.push x).2.cap = g.cap := by rw [push_room x h]
        have hok : (g.push x).1 = .ok () := by rw [push_room x h]
        rw [hok]
        refine (ih (hf.push x h)).trans (or_congr (by rw [hcap]) ?_)
        cases st <;> simp [popsNone, popsAfterPush]
    | pop =>
      cases st with
      | nil =>
        have h0 : g.len = 0 := hf.len
        simp only [StackRun, Stacked, call, pop_empty h0]
        refine Iff.trans ?_ ((ih hf).trans (or_congr_right ?_))
        · simp [stored]
        · simp [popsNone, popsAfterPush]
      | cons y st =>
        have h0 : g.len ≠ 0 := by simp [hf.len]
        have hcap : g.cap ≠ 0 := by have := hf.le; omega
        -- the slot at `len` is blank
        have hno : ¬Stacked g (y :: st) .pop := fun hs =>
          (hs.2 g.len (g.slot g.len) (by rw [pop_some h0])).2.1 (hf.slot g.len (Nat.le_refl _))
        simp [StackRun, hno, hcap, popsNone]

/-- A fresh guard does what a stack does exactly when it has no capacity or no `pop` comes after a `push`. -/
theorem stackRun_fresh_iff (cap : Nat) (ops : List (GuardOp T)) :
    StackRun (.withThreads cap) [] ops ↔ cap = 0 ∨ popsAfterPush ops = false := by
  rw [(fresh_withThreads cap).stackRun_iff]
  simp [popsNone, withThreads]

/-- A `pop` behind a `push` reads the slot behind the entry. -/
theorem pop_misses_push : ¬∀ (cap : Nat) (ops : List (GuardOp Nat)), StackRun (.withThreads cap) [] ops := by
  intro h
  obtain ⟨-, ⟨-, hpop⟩, -⟩ := h 4 [.push 10, .pop]
  exact (hpop 1 none rfl).2.2.2 rfl

end PtrGuard

end CoQueue.Shift
