import CoQueue.Lockless.Stream

/-!
# `CoQueue::into_iter` (`stream.rs`)

`CoQueIntoIter` has the queue to itself for as long as it lives, but messages still arrive in its channel at any
time. `next` receives one before each call of `poll_next`, which receives another one; it gives up with `Poke`
after 21 polls of an empty queue. `got` lists what the call under way has received, `none` for an empty channel,
and `returns` what the calls have returned, with what they had received.
-/

namespace CoQueue.Lockless

open Schedule
open Blocking (QueueState Poll Next)

section
variable {V : Type}

inductive IterPc
  | idle
  -- `self.start.recv.try_recv()`
  | recv (wakeCount : Nat)
  -- `stream.poll_next(&mut cx)`
  | poll (wakeCount : Nat)
  | panicked
deriving DecidableEq

structure IntoIter (V : Type) where
  start : Stream V
  pc : IterPc
  got : List (Option (QueueState V))
  returns : List (Next V × List (Option (QueueState V)))

/-- `into_iter`. -/
def Stream.intoIter (c : Stream V) : IntoIter V := ⟨c, .idle, [], []⟩

/-- The values that have been returned. -/
def IntoIter.items (x : IntoIter V) : List V := x.returns.filterMap fun
  | (.item v, _) => some v
  | _ => none

def IntoIter.goto (x : IntoIter V) (pc : IterPc) : IntoIter V :=
  { x with pc, got := x.got ++ [x.start.recv.head?] }

def IntoIter.ret (x : IntoIter V) (res : Next V) (start : Stream V) : IntoIter V :=
  { x with start, pc := .idle, got := [], returns := x.returns ++ [(res, x.got ++ [x.start.recv.head?])] }

inductive IterAct (V : Type)
  | send (msg : QueueState V)
  | next
  | run (fails fuel : Nat)

/-- Thread `i` has the iterator. -/
def iterStep (i : Tid) (x : IntoIter V) : IterAct V → Option (IntoIter V)
  | .send msg => some { x with start := { x.start with recv := x.start.recv ++ [msg] } }
  | .next => if x.pc = .idle then some { x with pc := .recv 0 } else none
  | .run fails fuel => match x.pc with
    | .idle | .panicked => none
    | .recv wakeCount => match x.start.recv with
      | .terminate :: recv => some (x.ret .none { x.start with recv })
      | .error :: recv => some { x.goto .panicked with start := { x.start with recv } }
      | recv => some { x.goto (.poll wakeCount) with start := { x.start with recv := recv.tail } }
    | .poll wakeCount => (x.start.pollNext i fails fuel).map fun
      | .panicked => { x.goto .panicked with start := { x.start with recv := x.start.recv.tail } }
      | .returned (.item item) start => x.ret (.item item) start
      | .returned .none start => x.ret .none start
      | .returned .pending start =>
        if wakeCount = 20 then x.ret .poke start
        else { x.goto (.recv (wakeCount + 1)) with start }

/-! ### A poll -/

variable {s s₀ : State V} {c c' : Stream V} {r : PollEnd V} {i : Tid} {fails n : Nat} {x y : IntoIter V}

theorem two_le_of_isEmpty {res : Bool} (h : s.isEmpty n = some res) : 2 ≤ n := by
  match n, h with
  | n + 2, _ => exact Nat.le_add_left 2 n

theorem popAlone_mono {k : Nat} {p : Except Unit V × Solo V} (h : s.popAlone i fails n = some p) (hk : n ≤ k) :
    s.popAlone i fails k = some p := by
  obtain ⟨t, ht, h⟩ := Option.bind_eq_some_iff.1 h
  dsimp only at h
  split at h
  · rename_i hidle
    have hstop : Solo.step i (follow (Solo.step i) n ⟨t, fails, 0⟩) = none := by
      rw [Solo.step]
      generalize (follow (Solo.step i) n ⟨t, fails, 0⟩).queue.pc i = pc at hidle
      cases pc with
      | idle => rfl
      | _ => cases hidle
    obtain ⟨d, rfl⟩ := Nat.exists_eq_add_of_le hk
    rw [State.popAlone, ht, Option.bind_some]
    dsimp only
    rw [follow_add, follow_stop hstop, if_pos hidle]
    exact h
  · cases h

theorem poll_mono {k : Nat} {p : QueueState V × State V} (h : s.poll i fails n = some p) (hk : n ≤ k) :
    s.poll i fails k = some p := by
  obtain ⟨e, he, h⟩ := Option.bind_eq_some_iff.1 h
  have htwo := two_le_of_isEmpty he
  rw [isEmpty_of_le htwo] at he
  rw [State.poll, isEmpty_of_le (Nat.le_trans htwo hk), he, Option.bind_some]
  cases e with
  | true => exact h
  | false =>
    obtain ⟨q, hq, h⟩ := Option.map_eq_some_iff.1 h
    exact Option.map_eq_some_iff.2 ⟨q, popAlone_mono hq hk, h⟩

theorem pollNext_mono {k : Nat} (h : c.pollNext i fails n = some r) (hk : n ≤ k) :
    c.pollNext i fails k = some r := by
  obtain ⟨queue, recv⟩ := c
  unfold Stream.pollNext at h ⊢
  split at h
  · exact h
  · exact h
  · obtain ⟨q, hq, h⟩ := Option.map_eq_some_iff.1 h
    exact Option.map_eq_some_iff.2 ⟨q, poll_mono hq hk, h⟩

/-- Whatever the fuel, a poll that returns is exact. -/
theorem pollNext_exact (h : Run step Any .init c.queue) (hr : AtRest c.queue)
    (hp : c.pollNext i fails n = some r) : PollExact c r := by
  obtain ⟨N, hN⟩ := pollNext_at_rest h hr i fails
  obtain ⟨r', hr', hexact⟩ := hN (max n N) (Nat.le_max_right n N)
  rw [pollNext_mono hp (Nat.le_max_left n N)] at hr'
  cases hr'
  exact hexact

/-! ### What the calls return -/

/-- Nothing that ends a call has been received. -/
def Quiet (got : List (Option (QueueState V))) : Prop := ∀ m ∈ got, m ≠ some .error ∧ m ≠ some .terminate

/-- What a call may have received when it returns. -/
def Ended (got : List (Option (QueueState V))) : Next V → Prop
  | .item _ => Quiet got ∧ got.length = 2
  | .poke => Quiet got ∧ got.length = 42
  | .none => ∃ before, got = before ++ [some .terminate] ∧ Quiet before ∧ got.length ≤ 42

/-- A call in its pass number `wakeCount + 1` has found the queue empty in all passes before. -/
structure Passing (x : IntoIter V) (wakeCount k : Nat) : Prop where
  wake : wakeCount ≤ 20
  quiet : Quiet x.got
  length : x.got.length = 2 * wakeCount + k
  empty : wakeCount ≠ 0 → x.start.queue.remaining = []

def CallInv (x : IntoIter V) : Prop :=
  match x.pc with
  | .idle => x.got = []
  | .recv wakeCount => Passing x wakeCount 0
  | .poll wakeCount => Passing x wakeCount 1
  | .panicked => ∃ before, x.got = before ++ [some .error] ∧ Quiet before

structure IterInv (s₀ : State V) (x : IntoIter V) : Prop where
  run : Run step Any .init x.start.queue
  rest : AtRest x.start.queue
  kept : s₀.remaining.map Prod.snd = x.items ++ x.start.queue.remaining.map Prod.snd
  ended : ∀ p ∈ x.returns, Ended p.2 p.1
  poked : ∀ p ∈ x.returns, p.1 = .poke → x.start.queue.remaining = []
  call : CallInv x

theorem Quiet.snoc {got : List (Option (QueueState V))} {m : Option (QueueState V)} (h : Quiet got)
    (he : m ≠ some .error) (ht : m ≠ some .terminate) : Quiet (got ++ [m]) := by
  intro m' hm
  rcases List.mem_append.1 hm with hm | hm
  · exact h m' hm
  · rw [List.mem_singleton.1 hm]
    exact ⟨he, ht⟩

theorem items_ret (x : IntoIter V) (res : Next V) (c : Stream V) :
    (x.ret res c).items = x.items ++ match res with
      | .item v => [v]
      | _ => [] := by
  rw [IntoIter.items, IntoIter.ret, List.filterMap_append]
  cases res <;> rfl

theorem Passing.length_lt {wakeCount k : Nat} (h : Passing x wakeCount k) (hk : k ≤ 1) : x.got.length < 42 := by
  have h1 := h.wake
  have h2 := h.length
  omega

/-- The queue stays as it is, and the call goes on or panics. -/
theorem IterInv.go (h : IterInv s₀ x) (hq : y.start.queue = x.start.queue) (hret : y.returns = x.returns)
    (hcall : CallInv y) : IterInv s₀ y where
  run := by
    rw [hq]
    exact h.run
  rest := by
    rw [hq]
    exact h.rest
  kept := by
    rw [hq, IntoIter.items, hret]
    exact h.kept
  ended := by
    rw [hret]
    exact h.ended
  poked := by
    rw [hq, hret]
    exact h.poked
  call := hcall

/-- A call returns without a value. -/
theorem IterInv.ret {res : Next V} (h : IterInv s₀ x) (hq : c.queue = x.start.queue) (hres : ∀ v, res ≠ .item v)
    (hended : Ended (x.got ++ [x.start.recv.head?]) res) (hpoke : res = .poke → x.start.queue.remaining = []) :
    IterInv s₀ (x.ret res c) where
  run := by
    show Run step Any .init c.queue
    rw [hq]
    exact h.run
  rest := by
    show AtRest c.queue
    rw [hq]
    exact h.rest
  kept := by
    rw [items_ret, h.kept]
    show _ = _ ++ c.queue.remaining.map Prod.snd
    rw [hq]
    cases res with
    | item v => exact absurd rfl (hres v)
    | poke | none => rw [List.append_nil]
  ended p hp := by
    rcases List.mem_append.1 hp with hp | hp
    · exact h.ended p hp
    · rw [List.mem_singleton.1 hp]
      exact hended
  poked p hp hp1 := by
    show c.queue.remaining = []
    rw [hq]
    rcases List.mem_append.1 hp with hp | hp
    · exact h.poked p hp hp1
    · rw [List.mem_singleton.1 hp] at hp1
      exact hpoke hp1
  call := rfl

/-- A call returns the oldest value. -/
theorem IterInv.item {v : V} {p : Nat} {rest : List (Nat × V)} (h : IterInv s₀ x) (hrun : Run step Any .init c.queue)
    (hrest : AtRest c.queue) (hrem : x.start.queue.remaining = (p, v) :: rest) (hrem' : c.queue.remaining = rest)
    (hended : Ended (x.got ++ [x.start.recv.head?]) (.item v)) : IterInv s₀ (x.ret (.item v) c) where
  run := hrun
  rest := hrest
  kept := by
    rw [items_ret, h.kept, hrem, List.append_assoc]
    show _ = x.items ++ ([v] ++ c.queue.remaining.map Prod.snd)
    rw [hrem']
    rfl
  ended q hq := by
    rcases List.mem_append.1 hq with hq | hq
    · exact h.ended q hq
    · rw [List.mem_singleton.1 hq]
      exact hended
  poked q hq hq1 := by
    rcases List.mem_append.1 hq with hq | hq
    · -- nothing was left when a call returned `Poke`
      have hnil := h.poked q hq hq1
      rw [hrem] at hnil
      cases hnil
    · rw [List.mem_singleton.1 hq] at hq1
      cases hq1
  call := rfl

/-- `try_recv` of `next` itself. -/
theorem IterInv.recv {wakeCount : Nat} (h : IterInv s₀ x) (hpc : x.pc = .recv wakeCount)
    (hs : iterStep i x (.run fails n) = some y) : IterInv s₀ y := by
  have hcall : Passing x wakeCount 0 := by
    have hcall := h.call
    rw [CallInv, hpc] at hcall
    exact hcall
  have hlt := hcall.length_lt (Nat.zero_le 1)
  simp only [iterStep, hpc] at hs
  split at hs
  · rename_i recv hrecv
    cases hs
    refine h.ret rfl (by rintro v ⟨⟩) ⟨x.got, by rw [hrecv]; rfl, hcall.quiet, ?_⟩ (by rintro ⟨⟩)
    rw [List.length_append]
    exact hlt
  · rename_i recv hrecv
    cases hs
    refine h.go rfl rfl ⟨x.got, ?_, hcall.quiet⟩
    show x.got ++ [x.start.recv.head?] = _
    rw [hrecv]
    rfl
  · rename_i recv ht he
    cases hs
    refine h.go rfl rfl ⟨hcall.wake, hcall.quiet.snoc ?_ ?_, ?_, hcall.empty⟩
    · intro heq
      obtain ⟨l, hl⟩ := List.head?_eq_some_iff.1 heq
      exact he l hl
    · intro heq
      obtain ⟨l, hl⟩ := List.head?_eq_some_iff.1 heq
      exact ht l hl
    · show (x.got ++ [x.start.recv.head?]).length = _
      rw [List.length_append, hcall.length]
      rfl

/-- `poll_next`. -/
theorem IterInv.poll {wakeCount : Nat} (h : IterInv s₀ x) (hpc : x.pc = .poll wakeCount)
    (hs : iterStep i x (.run fails n) = some y) : IterInv s₀ y := by
  have hcall : Passing x wakeCount 1 := by
    have hcall := h.call
    rw [CallInv, hpc] at hcall
    exact hcall
  have hlt := hcall.length_lt (Nat.le_refl 1)
  simp only [iterStep, hpc] at hs
  obtain ⟨r, hr, rfl⟩ := Option.map_eq_some_iff.1 hs
  have hexact := pollNext_exact h.run h.rest hr
  cases r with
  | panicked =>
    refine h.go rfl rfl ⟨x.got, ?_, hcall.quiet⟩
    show x.got ++ [x.start.recv.head?] = _
    rw [hexact.panicked.1 rfl]
  | returned res c =>
    obtain ⟨hrun, hrest, -, hitem, hsame⟩ := hexact.after res c rfl
    cases res with
    | item v =>
      obtain ⟨he, ht, p, rest, hrem⟩ := (hexact.item v).1 ⟨c, rfl⟩
      -- the queue was not empty, so this is the first pass
      have h0 : wakeCount = 0 := by
        by_contra hne
        rw [hcall.empty hne] at hrem
        cases hrem
      refine h.item hrun hrest hrem (by rw [hitem v rfl, hrem]; rfl) ⟨hcall.quiet.snoc he ht, ?_⟩
      rw [List.length_append, hcall.length, h0]
      rfl
    | none =>
      have hterm := hexact.none.1 ⟨c, rfl⟩
      refine h.ret (hsame (by rintro v ⟨⟩)) (by rintro v ⟨⟩) ⟨x.got, by rw [hterm], hcall.quiet, ?_⟩ (by rintro ⟨⟩)
      rw [List.length_append]
      exact hlt
    | pending =>
      obtain ⟨he, ht, hrem⟩ := hexact.pending.1 ⟨c, rfl⟩
      have hq : c.queue = x.start.queue := hsame (by rintro v ⟨⟩)
      have hlen : (x.got ++ [x.start.recv.head?]).length = 2 * wakeCount + 2 := by
        rw [List.length_append, hcall.length]
        rfl
      dsimp only
      split
      · rename_i h20
        refine h.ret hq (by rintro v ⟨⟩) ⟨hcall.quiet.snoc he ht, ?_⟩ fun _ => hrem
        rw [hlen, h20]
      · rename_i h20
        have hwake := hcall.wake
        refine h.go hq rfl ⟨by omega, hcall.quiet.snoc he ht, ?_, fun _ => ?_⟩
        · show (x.got ++ [x.start.recv.head?]).length = _
          rw [hlen]
          omega
        · show c.queue.remaining = []
          rw [hq]
          exact hrem

theorem IterInv.step {a : IterAct V} (h : IterInv s₀ x) (hs : iterStep i x a = some y) : IterInv s₀ y := by
  cases a with
  | send msg =>
    cases hs
    have hcall := h.call
    refine h.go rfl rfl ?_
    unfold CallInv at hcall ⊢
    dsimp only
    split at hcall
    · exact hcall
    · exact ⟨hcall.wake, hcall.quiet, hcall.length, hcall.empty⟩
    · exact ⟨hcall.wake, hcall.quiet, hcall.length, hcall.empty⟩
    · exact hcall
  | next =>
    simp only [iterStep] at hs
    split at hs
    · rename_i hpc
      cases hs
      have hcall := h.call
      rw [CallInv, hpc] at hcall
      have hgot : x.got = [] := hcall
      refine h.go rfl rfl ⟨Nat.zero_le 20, ?_, ?_, fun h0 => absurd rfl h0⟩
      · show Quiet x.got
        rw [hgot]
        rintro m ⟨⟩
      · show x.got.length = 0
        rw [hgot]
        rfl
    · cases hs
  | run fails n =>
    cases hpc : x.pc with
    | idle | panicked =>
      simp only [iterStep, hpc] at hs
      cases hs
    | recv wakeCount => exact h.recv hpc hs
    | poll wakeCount => exact h.poll hpc hs

theorem iterInv_of_run (h : Run step Any .init c.queue) (hr : AtRest c.queue)
    (hx : Run (iterStep i) Any c.intoIter x) : IterInv c.queue x := by
  refine hx.invariant (P := IterInv c.queue) ?_ fun t a u hinv _ hs => hinv.step hs
  exact ⟨h, hr, rfl, by rintro p ⟨⟩, by rintro p ⟨⟩, rfl⟩

/-- The iterator returns what is left in the queue, in order and without a gap, and nothing that comes with a
message. A call that returns a value does so after its first poll, one that returns `Poke` has polled 21 times, and
`None` and a panic come from a message only. -/
theorem into_iter_exact (h : Run step Any .init c.queue) (hr : AtRest c.queue)
    (hx : Run (iterStep i) Any c.intoIter x) :
    c.queue.remaining.map Prod.snd = x.items ++ x.start.queue.remaining.map Prod.snd ∧
      (∀ p ∈ x.returns, Ended p.2 p.1) ∧ (∀ p ∈ x.returns, p.1 = .poke → x.start.queue.remaining = []) ∧
      (x.pc = .panicked → ∃ before, x.got = before ++ [some .error] ∧ Quiet before) ∧
      Run step Any .init x.start.queue ∧ AtRest x.start.queue := by
  have hinv := iterInv_of_run h hr hx
  refine ⟨hinv.kept, hinv.ended, hinv.poked, fun hpc => ?_, hinv.run, hinv.rest⟩
  have hcall := hinv.call
  rw [CallInv, hpc] at hcall
  exact hcall

/-! ### Every call returns -/

theorem pollNext_total {p : QueueState V × State V} (h : c.queue.poll i fails n = some p) :
    ∃ r, c.pollNext i fails n = some r := by
  unfold Stream.pollNext
  split
  · exact ⟨_, rfl⟩
  · exact ⟨_, rfl⟩
  · rw [h]
    exact ⟨_, rfl⟩

/-- The call goes on: it has received a message more and left the queue as it was. -/
structure GoesOn (x y : IntoIter V) : Prop where
  idle : y.pc ≠ .idle
  panicked : y.pc ≠ .panicked
  got : y.got.length = x.got.length + 1
  queue : y.start.queue = x.start.queue

theorem IterInv.turn {p : QueueState V × State V} (h : IterInv s₀ x) (hidle : x.pc ≠ .idle)
    (hpanicked : x.pc ≠ .panicked) (hp : x.start.queue.poll i fails n = some p) :
    ∃ y, iterStep i x (.run fails n) = some y ∧ (y.pc = .idle ∨ y.pc = .panicked ∨ GoesOn x y) := by
  simp only [iterStep]
  cases hpc : x.pc with
  | idle => exact absurd hpc hidle
  | panicked => exact absurd hpc hpanicked
  | recv wakeCount =>
    dsimp only
    split
    · exact ⟨_, rfl, .inl rfl⟩
    · exact ⟨_, rfl, .inr (.inl rfl)⟩
    · exact ⟨_, rfl, .inr (.inr ⟨by rintro ⟨⟩, by rintro ⟨⟩, List.length_append, rfl⟩)⟩
  | poll wakeCount =>
    obtain ⟨r, hr⟩ := pollNext_total hp
    have hexact := pollNext_exact h.run h.rest hr
    dsimp only
    rw [hr, Option.map_some]
    refine ⟨_, rfl, ?_⟩
    cases r with
    | panicked => exact .inr (.inl rfl)
    | returned res c =>
      cases res with
      | item | none => exact .inl rfl
      | pending =>
        dsimp only
        split
        · exact .inl rfl
        · have hq : c.queue = x.start.queue := (hexact.after .pending c rfl).2.2.2.2 (by rintro v ⟨⟩)
          exact .inr (.inr ⟨by rintro ⟨⟩, by rintro ⟨⟩, List.length_append, hq⟩)

theorem IterInv.length_lt (h : IterInv s₀ x) (hidle : x.pc ≠ .idle) (hpanicked : x.pc ≠ .panicked) :
    x.got.length < 42 := by
  have hcall := h.call
  unfold CallInv at hcall
  split at hcall
  · exact absurd ‹_› hidle
  · exact hcall.length_lt (Nat.zero_le 1)
  · exact hcall.length_lt (Nat.le_refl 1)
  · exact absurd ‹_› hpanicked

/-- Wherever a call of `next` is, it looks for a message at most 42 times in all and then has returned or panicked. -/
theorem next_returns (h : Run step Any .init c.queue) (hr : AtRest c.queue)
    (hx : Run (iterStep i) Any c.intoIter x) (fails : Nat) :
    ∃ N, ∀ n, N ≤ n → ∃ k, k ≤ 42 - x.got.length ∧
      ((follow (fun x => iterStep i x (.run fails n)) k x).pc = .idle ∨
        (follow (fun x => iterStep i x (.run fails n)) k x).pc = .panicked) := by
  have hinv := iterInv_of_run h hr hx
  obtain ⟨N, hN⟩ := poll_at_rest hinv.run hinv.rest i fails
  refine ⟨N, fun n hn => ?_⟩
  obtain ⟨r, s', hp, -⟩ := hN n hn
  clear hx hN
  -- by induction on the number of messages that the call may still receive
  induction hd : 42 - x.got.length using Nat.strong_induction_on generalizing x with
  | _ d ih =>
    by_cases hidle : x.pc = .idle
    · exact ⟨0, Nat.zero_le d, .inl hidle⟩
    by_cases hpanicked : x.pc = .panicked
    · exact ⟨0, Nat.zero_le d, .inr hpanicked⟩
    have hlt := hinv.length_lt hidle hpanicked
    obtain ⟨y, hy, hend⟩ := hinv.turn hidle hpanicked hp
    rcases hend with hend | hend | hgo
    · refine ⟨1, by omega, .inl ?_⟩
      simp only [follow, hy]
      exact hend
    · refine ⟨1, by omega, .inr ?_⟩
      simp only [follow, hy]
      exact hend
    · have hlen := hgo.got
      obtain ⟨k, hk, hend⟩ := ih (42 - y.got.length) (by omega) (hinv.step hy) (by rw [hgo.queue]; exact hp) rfl
      refine ⟨k + 1, by omega, ?_⟩
      simp only [follow, hy]
      exact hend

end

/-- The queue has the value 5, and the channel the message `QueueState::Yield(7)`. The first call of `next` takes the
value, and the second one gives up. -/
def drainIter : List (IterAct Nat) :=
  [.next, .run 1 20, .run 1 20, .next] ++ List.replicate 42 (.run 0 20)

theorem drained_run : ∃ (c : Stream Nat) (x : IntoIter Nat), Run step Any .init c.queue ∧ AtRest c.queue ∧
    c.recv.length = 1 ∧ Run (iterStep 0) Any c.intoIter x ∧ x.items = [5] ∧ x.returns.length = 2 ∧ x.pc = .idle := by
  have hexec : ((exec step (fun _ a => a.tid = 0) .init (partCall 0 (.push 0 5) 7)).bind fun s =>
      (exec (iterStep 0) Any (Stream.intoIter ⟨s, [.yield 7]⟩) drainIter).map fun x =>
        ((s.pc 0).isIdle, x.items, x.returns.length, x.pc)) = some (true, [5], 2, .idle) := by
    decide +kernel
  obtain ⟨s, hs, hexec⟩ := Option.bind_eq_some_iff.1 hexec
  obtain ⟨x, hx, heq⟩ := Option.map_eq_some_iff.1 hexec
  simp only [Prod.mk.injEq] at heq
  have hrun := Run.of_exec hs
  exact ⟨⟨s, [.yield 7]⟩, x, hrun.mono fun _ _ _ => trivial, atRest_of_sole hrun heq.1, rfl, .of_exec hx, heq.2.1,
    heq.2.2.1, heq.2.2.2⟩

theorem drained_into_iter_exact : ∃ (c : Stream Nat) (x : IntoIter Nat), Run step Any .init c.queue ∧
    AtRest c.queue ∧ Run (iterStep 0) Any c.intoIter x ∧ x.items = [5] ∧
    c.queue.remaining.map Prod.snd = [5] ++ x.start.queue.remaining.map Prod.snd := by
  obtain ⟨c, x, h, hr, -, hx, hitems, -⟩ := drained_run
  refine ⟨c, x, h, hr, hx, hitems, ?_⟩
  rw [← hitems]
  exact (into_iter_exact h hr hx).1

theorem drained_next_returns : ∃ (c : Stream Nat) (x : IntoIter Nat), Run step Any .init c.queue ∧
    AtRest c.queue ∧ Run (iterStep 0) Any c.intoIter x ∧ x.pc = .recv 0 ∧
    ∃ N, ∀ n, N ≤ n → ∃ k, k ≤ 42 - x.got.length ∧
      ((follow (fun x => iterStep 0 x (.run 3 n)) k x).pc = .idle ∨
        (follow (fun x => iterStep 0 x (.run 3 n)) k x).pc = .panicked) := by
  obtain ⟨c, x, h, hr, -, hx, -, -, hpc⟩ := drained_run
  have hx' : Run (iterStep 0) Any c.intoIter { x with pc := .recv 0 } :=
    .tail hx (a := .next) trivial (by rw [iterStep, if_pos hpc])
  exact ⟨c, _, h, hr, hx', rfl, next_returns h hr hx' 3⟩

end CoQueue.Lockless
