import CoQueue.Shift.Retire

/-!
# Printing a queue

`RawQueue` prints its two guards and the nodes that `head` and `tail` point to. To print a guard, `PtrGuard`
copies the entries below `len`, bit by bit, into a `Vec`. The entries are `Owned`s, and so are the copies: when
the `Vec` goes out of scope each of them frees its node, and the guard keeps the pointers.

What is printed of a node, and of the nodes behind it, is only read and not modelled here.
-/

namespace CoQueue.Shift

open Schedule

section
variable {V : Type} {a : Addr}

/-- Printing changes nothing. -/
structure ReadOnly (m : Mem V) : Prop where
  head : m.fmt.2.head = m.head
  tail : m.fmt.2.tail = m.tail
  pushGuard : m.fmt.2.pushGuard = m.pushGuard
  popGuard : m.fmt.2.popGuard = m.popGuard
  live : ∀ a, m.fmt.2.live a ↔ m.live a

/-- The guard holds a pointer to the node. -/
def PtrGuard.Holds (g : PtrGuard Addr) (a : Addr) : Prop := ∃ k, k < g.len ∧ g.slot k = some a

theorem mem_copies {g : PtrGuard Addr} : a ∈ g.copies.flatMap Option.toList ↔ g.Holds a := by
  simp only [PtrGuard.copies, List.mem_flatMap, List.mem_map, List.mem_range, Option.mem_toList,
    PtrGuard.Holds]
  constructor
  · rintro ⟨_, ⟨k, hk, rfl⟩, ha⟩
    exact ⟨k, hk, ha⟩
  · rintro ⟨k, hk, ha⟩
    exact ⟨_, ⟨k, hk, rfl⟩, ha⟩

theorem live_fmt (m : Mem V) (a : Addr) :
    m.fmt.2.live a ↔ m.live a ∧ ¬m.pushGuard.Holds a ∧ ¬m.popGuard.Holds a := by
  simp only [Mem.fmt, Mem.fmtGuard, Mem.live, List.mem_append, mem_copies, not_or]
  tauto

/-- Printing is read-only exactly when the guards hold no node that is alive. -/
theorem fmt_readOnly_iff (m : Mem V) :
    ReadOnly m ↔ ∀ a, m.pushGuard.Holds a ∨ m.popGuard.Holds a → ¬m.live a := by
  constructor
  · rintro h a hholds hlive
    have hafter := (live_fmt m a).1 ((h.live a).2 hlive)
    exact hholds.elim hafter.2.1 hafter.2.2
  · intro h
    refine ⟨rfl, rfl, rfl, rfl, fun a => ?_⟩
    rw [live_fmt]
    refine ⟨And.left, fun hlive => ⟨hlive, fun hh => ?_, fun hh => ?_⟩⟩
    · exact h a (.inl hh) hlive
    · exact h a (.inr hh) hlive

/-- One push and one pop, both by thread 0. -/
def popSchedule : List (Act Nat) :=
  [Act.push 0 10 1] ++ List.replicate 6 (Act.run 0) ++ [Act.tryPop 0] ++ List.replicate 7 (Act.run 0)

/-- The dummy node that the pop has parked does not survive printing. -/
theorem fmt_frees_parked :
    ¬∀ (threads : Nat) (s : State Nat), Run step (fun s a => unused s a = true) (.init threads) s →
      ReadOnly s.mem := by
  intro h
  have hexec : (exec step (fun s a => unused s a = true) (.init 4) popSchedule).map
      (fun s => (s.mem.popGuard.len, s.mem.popGuard.slot 0, s.mem.freed, s.mem.born)) =
        some (1, some 0, [], [0, 1]) := by
    decide
  obtain ⟨s, hrun, hs⟩ := Run.of_exec_map hexec
  simp only [Prod.mk.injEq] at hs
  obtain ⟨hlen, hslot, hfreed, hborn⟩ := hs
  have hlive : s.mem.live 0 := ⟨by rw [hborn]; decide, by rw [hfreed]; exact List.not_mem_nil⟩
  have hafter := (live_fmt s.mem 0).1 (((h 4 s hrun).live 0).2 hlive)
  exact hafter.2.2 ⟨0, by rw [hlen]; decide, hslot⟩

end

end CoQueue.Shift
