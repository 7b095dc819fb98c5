import CoQueue.Blocking.Queue
import CoQueue.Lockless.Drop

/-!
# `CoQueue::poll_next` (`stream.rs`)

`poll_next` has the queue to itself: no call is in progress, and it calls `is_empty` and `pop` with nobody
else's steps in between. `Solo` is such a `pop`. It counts the `backoff.nap()`s, with which a call waits for
another thread: while an index rests on the phantom position, for the first chunk, for the `next` of a chunk and
for the `WRITE` of a slot. How often `compare_exchange_weak` fails for no reason is left open.

There is nothing to wait for in a resting queue, and `pop` decides that it is empty by the positions that
`is_empty` compares. So a `poll_next` takes the oldest value that is left, if there is one, which is what
`Blocking.Queue` takes the queue for.
-/

namespace CoQueue.Lockless

open Schedule
open Blocking (QueueState Poll)

structure Solo (V : Type) where
  queue : State V
  /-- How often `compare_exchange_weak` is still going to fail for no reason. -/
  fails : Nat
  naps : Nat

/-- The queue with the messages that wait in its channel. -/
structure Stream (V : Type) where
  queue : State V
  recv : List (QueueState V)

inductive PollEnd (V : Type)
  | returned (res : Poll V) (after : Stream V)
  | panicked

section
variable {V : Type}

def Pc.isClaim : Pc V → Bool
  | .popClaim _ _ _ => true
  | _ => false

/-- The calls of `backoff.nap()` in a step from one access to the next. -/
def nap : Pc V → Pc V → Nat
  | .popChunk _, .popIndex | .popTail _ _, .popIndex => 1
  | .popWaitNext _ _ _, .popWaitNext _ _ _ | .popWaitWrite _ _, .popWaitWrite _ _ => 1
  | _, _ => 0

def Solo.step (i : Tid) (x : Solo V) : Option (Solo V) :=
  (stepPc x.queue.mem (x.fails != 0) (x.queue.pc i)).map fun r =>
    ⟨x.queue.put i r, if (x.queue.pc i).isClaim then x.fails - 1 else x.fails,
      x.naps + nap (x.queue.pc i) r.2.1⟩

/-- What the `pop` that has returned last has returned. -/
def Hist.result (h : Hist V) : Option (Except Unit V) :=
  match h.returns.getLast? with
  | some (_, .pop (some (_, item))) => some (.ok item)
  | some (_, .pop none) => some (.error ())
  | _ => none

/-- `CoQueue::pop` of thread `i` alone, with `fuel` accesses at most. -/
def State.popAlone (s : State V) (i : Tid) (fails fuel : Nat) : Option (Except Unit V × Solo V) :=
  (step s (.pop i)).bind fun s =>
    let x := follow (Solo.step i) fuel ⟨s, fails, 0⟩
    if (x.queue.pc i).isIdle then x.queue.hist.result.map fun r => (r, x) else none

/-- `FutureStreamOwn::poll`. -/
def State.poll (s : State V) (i : Tid) (fails fuel : Nat) : Option (QueueState V × State V) :=
  (s.isEmpty fuel).bind fun
    | false => (s.popAlone i fails fuel).map fun
      | (.ok item, x) => (.yield item, x.queue)
      | (.error (), x) => (.error, x.queue)
    | true => some (.spin, s)

/-- `CoQueue::poll_next`. -/
def Stream.pollNext (c : Stream V) (i : Tid) (fails fuel : Nat) : Option (PollEnd V) :=
  -- `this.recv.try_recv()`
  match c.recv with
  | .terminate :: recv => some (.returned .none { c with recv })
  | .error :: _ => some .panicked
  | recv => (c.queue.poll i fails fuel).map fun (r, queue) =>
    match Blocking.pollNext r with
    | some res => .returned res ⟨queue, recv.tail⟩
    | none => .panicked

/-! ### Up to the claim -/

variable {s s' : State V} {m' : Mem V} {pc pc' : Pc V} {ev : Event V} {i j : Tid} {x y : Solo V} {p fails : Nat}

theorem Solo.step_run (h : x.step i = some y) : ∃ b, Lockless.step x.queue (.run i b) = some y.queue := by
  obtain ⟨r, hr, rfl⟩ := Option.map_eq_some_iff.1 h
  exact ⟨x.fails != 0, by rw [Lockless.step, hr]; rfl⟩

/-- Thread `i` is at `pc`, and has done nothing yet. -/
def State.solo (s : State V) (i : Tid) (pc : Pc V) (fails : Nat) : Solo V :=
  ⟨s.put i (s.mem, pc, .silent), fails, 0⟩

theorem solo_pc : (s.solo i pc fails).queue.pc i = pc := Function.update_self ..

theorem solo_step {r : Mem V × Pc V × Event V} (hr : stepPc s.mem (fails != 0) pc = some r) :
    (s.solo i pc fails).step i = some ⟨s.put i r, if pc.isClaim then fails - 1 else fails, nap pc r.2.1⟩ := by
  have hput : (s.solo i pc fails).queue.put i r = s.put i r := by
    simp [State.solo, State.put, Hist.log]
  rw [Solo.step, solo_pc]
  show (stepPc s.mem (fails != 0) pc).map _ = _
  rw [hr, Option.map_some, hput, show (s.solo i pc fails).naps = 0 from rfl, Nat.zero_add]
  rfl

theorem solo_silent (hr : stepPc s.mem (fails != 0) pc = some (s.mem, pc', .silent)) (hclaim : pc.isClaim = false)
    (hnap : nap pc pc' = 0) : (s.solo i pc fails).step i = some (s.solo i pc' fails) := by
  rw [solo_step hr, hclaim, hnap]
  rfl

theorem leads_claim {c : ChunkId} (i : Tid) (fails : Nat) (ho : offset s.mem.headIndex ≠ chunkCap)
    (hc : s.mem.headChunk = some c) (hlt : position s.mem.headIndex < position s.mem.tailIndex) :
    ∃ h', Leads (Solo.step i) (s.solo i (.popChunk s.mem.headIndex) fails)
      (s.solo i (.popClaim s.mem.headIndex c h') fails) := by
  have hload : stepPc s.mem (fails != 0) (.popChunk s.mem.headIndex) =
      some (s.mem, popLoop s.mem.headIndex (some c), .silent) := by rw [stepPc, hc]
  rw [popLoop, if_neg ho] at hload
  split at hload
  · -- it looks at `tail`
    have hone := solo_silent (i := i) hload rfl rfl
    have htail : ∃ h', stepPc s.mem (fails != 0) (.popTail s.mem.headIndex (some c)) =
        some (s.mem, .popClaim s.mem.headIndex c h', .silent) := by
      rw [stepPc, if_neg hlt.ne]
      split
      · exact ⟨_, rfl⟩
      · exact ⟨_, rfl⟩
    obtain ⟨h', htail⟩ := htail
    exact ⟨h', .head hone (.head (solo_silent htail rfl rfl) (.refl _))⟩
  · exact ⟨_, .head (solo_silent hload rfl rfl) (.refl _)⟩

/-- A claim that fails for no reason brings the pop back to where it was. -/
theorem leads_last_claim {c : ChunkId} (i : Tid) (fails : Nat) (ho : offset s.mem.headIndex ≠ chunkCap)
    (hc : s.mem.headChunk = some c) (hlt : position s.mem.headIndex < position s.mem.tailIndex) :
    ∃ h', Leads (Solo.step i) (s.solo i (.popChunk s.mem.headIndex) fails)
      (s.solo i (.popClaim s.mem.headIndex c h') 0) := by
  induction fails with
  | zero => exact leads_claim i 0 ho hc hlt
  | succ n ih =>
    obtain ⟨h', hlead⟩ := leads_claim i (n + 1) ho hc hlt
    have hfail : (s.solo i (.popClaim s.mem.headIndex c h') (n + 1)).step i =
        some (s.solo i (.popChunk s.mem.headIndex) n) := by
      have hr : stepPc s.mem (n + 1 != 0) (.popClaim s.mem.headIndex c h') =
          some (s.mem, .popChunk s.mem.headIndex, .silent) := by
        rw [stepPc, if_neg]
        rintro ⟨-, h⟩
        cases h
      rw [solo_step hr]
      rfl
    obtain ⟨h'', hrest⟩ := ih
    exact ⟨h'', hlead.trans (.head hfail hrest)⟩

/-! ### Behind the claim -/

theorem idle_of_returned {m : Mem V} {r : Ret V} (hm : Move m pc m' pc' (.returned r)) : pc' = .idle := by
  cases hm <;> rfl

theorem nap_idle (pc : Pc V) : nap pc .idle = 0 := by
  cases pc <;> rfl

theorem nap_of_rank (ht : pc.takes = some p) (hlt : pc'.rank < pc.rank) : nap pc pc' = 0 := by
  cases pc <;> try rfl
  case popChunk | popTail => cases ht
  case popWaitNext | popWaitWrite => cases pc' <;> first | rfl | exact absurd hlt (Nat.lt_irrefl _)

theorem isClaim_of_takes (ht : pc.takes = some p) : pc.isClaim = false := by
  cases pc <;> first | rfl | cases ht

/-- Once the push of its slot has returned, a pop that has made its claim goes on to its return without a nap. -/
theorem Solo.returns (hi : Inv x.queue) (ht : (x.queue.pc i).takes = some p)
    (hj : (j, Ret.push p) ∈ x.queue.hist.returns) (hf : x.fails = 0) :
    ∃ y v, Leads (Solo.step i) x y ∧ y.queue.pc i = .idle ∧ y.naps = x.naps ∧
      y.queue.hist.returns = x.queue.hist.returns ++ [(i, .pop (some (p, v)))] ∧
      y.queue.hist.pushes = x.queue.hist.pushes := by
  -- by induction on the distance to the return
  generalize hn : (x.queue.pc i).rank = n
  induction n using Nat.strong_induction_on generalizing x with
  | _ n ih =>
    obtain ⟨⟨m', pc', ev⟩, hs, hr⟩ := hi.nearer ht (hi.ready.filled j p hj)
    have hpc : (x.queue.put i (m', pc', ev)).pc i = pc' := Function.update_self ..
    have hmove := move_of_stepPc hs
    have hnap : nap (x.queue.pc i) pc' = 0 := by
      rcases hr with ⟨-, hlt, -⟩ | ⟨v, rfl⟩
      · exact nap_of_rank ht hlt
      · rw [idle_of_returned hmove]
        exact nap_idle _
    have hstep : x.step i = some ⟨x.queue.put i (m', pc', ev), 0, x.naps⟩ := by
      rw [Solo.step, hf, show ((0 : Nat) != 0) = false from rfl, hs, isClaim_of_takes ht, Option.map_some, hnap]
      rfl
    rcases hr with ⟨htakes, hlt, rfl⟩ | ⟨v, rfl⟩
    · obtain ⟨b, hrun⟩ := Solo.step_run hstep
      obtain ⟨y, v, hlead, hidle, hnaps, hret, hpush⟩ := ih pc'.rank (hn ▸ hlt) (x := ⟨_, 0, x.naps⟩) (hi.step hrun)
        (by rw [hpc]; exact htakes) hj rfl (by rw [hpc])
      exact ⟨y, v, .head hstep hlead, hidle, hnaps, hret, hpush⟩
    · refine ⟨_, v, .head hstep (.refl _), ?_, rfl, rfl, rfl⟩
      rw [hpc]
      exact idle_of_returned hmove

/-! ### A pop at rest -/

/-- `s` is reached by a run, and only thread `i` has a call in progress. -/
def Reached (i : Tid) (s : State V) : Prop := Run step Any .init s ∧ ∀ j, j ≠ i → s.pc j = .idle

theorem Reached.leads (hx : Reached i x.queue) (h : Leads (Solo.step i) x y) : Reached i y.queue := by
  refine h.invariant (P := fun x => Reached i x.queue) (fun x y hx hs => ?_) hx
  obtain ⟨b, hb⟩ := Solo.step_run hs
  refine ⟨.tail hx.1 trivial hb, fun j hj => ?_⟩
  rw [step_pc_of_ne hb hj]
  exact hx.2 j hj

theorem Reached.atRest (h : Reached i s) (hi : s.pc i = .idle) : AtRest s := by
  intro j
  by_cases hj : j = i
  · rw [hj]
    exact hi
  · exact h.2 j hj

theorem step_pop (hr : AtRest s) (i : Tid) (fails : Nat) :
    step s (.pop i) = some (s.solo i .popIndex fails).queue := by
  rw [step, State.enter, hr i]
  rfl

theorem reached_pop (h : Run step Any .init s) (hr : AtRest s) (i : Tid) (fails : Nat) :
    Reached i (s.solo i .popIndex fails).queue := by
  refine ⟨.tail h trivial (step_pop hr i fails), fun j hj => ?_⟩
  rw [step_pc_of_ne (step_pop hr i fails) hj]
  exact hr j

/-- The pop gets to its claim, and makes it. -/
theorem leads_claimed {c : ChunkId} (i : Tid) (fails : Nat) (ho : offset s.mem.headIndex ≠ chunkCap)
    (hc : s.mem.headChunk = some c) (hlt : position s.mem.headIndex < position s.mem.tailIndex) :
    ∃ x, Leads (Solo.step i) (s.solo i .popIndex fails) x ∧
      (x.queue.pc i).takes = some (position s.mem.headIndex) ∧ x.fails = 0 ∧ x.naps = 0 ∧
      x.queue.hist.returns = s.hist.returns ∧ x.queue.hist.pushes = s.hist.pushes := by
  obtain ⟨h', hlead⟩ := leads_last_claim i fails ho hc hlt
  have hclaim : ∃ pc', stepPc s.mem false (.popClaim s.mem.headIndex c h') =
      some ({ s.mem with headIndex := h' }, pc', .claimed (position s.mem.headIndex)) ∧
      pc'.takes = some (position s.mem.headIndex) := by
    rw [stepPc, if_pos ⟨rfl, rfl⟩]
    split
    · exact ⟨_, rfl, rfl⟩
    · exact ⟨_, rfl, rfl⟩
  obtain ⟨pc', hclaim, htakes⟩ := hclaim
  have hstart : Leads (Solo.step i) (s.solo i .popIndex fails) _ := .head (solo_silent rfl rfl rfl) hlead
  refine ⟨_, hstart.trans (.head (solo_step hclaim) (.refl _)), ?_, rfl, rfl, rfl, rfl⟩
  show (Function.update s.pc i pc' i).takes = _
  rw [Function.update_self]
  exact htakes

theorem remaining_pop {v : V} {rest : List (Nat × V)} (hi : Inv s) (hrem : s.remaining = (p, v) :: rest)
    (hpush : s'.hist.pushes = s.hist.pushes)
    (hret : s'.hist.returns = s.hist.returns ++ [(i, .pop (some (p, v)))]) : s'.remaining = rest := by
  have hpopped : s'.hist.popped = s.hist.popped ++ [(p, v)] := by simp [Hist.popped, hret]
  have hnodup := hi.remaining_nodup
  rw [hrem, List.map_cons, List.nodup_cons] at hnodup
  have hfilter : s'.remaining = s.remaining.filter fun e => decide (e.1 ≠ p) := by
    rw [State.remaining, State.remaining, List.filter_filter, hpush, hpopped]
    refine List.filter_congr fun e _ => ?_
    rw [← Bool.decide_and, decide_eq_decide, List.map_append, List.mem_append, not_or, and_comm]
    simp
  rw [hfilter, hrem, List.filter_cons_of_neg (by simp), List.filter_eq_self]
  intro e he
  rw [decide_eq_true_eq]
  intro heq
  exact hnodup.1 (List.mem_map.2 ⟨e, he, heq⟩)

theorem result_of_returns {h : Hist V} {l : List (Tid × Ret V)} {v : V}
    (hl : h.returns = l ++ [(i, .pop (some (p, v)))]) : h.result = some (.ok v) := by
  rw [Hist.result, hl, List.getLast?_concat]

theorem popAlone_eq {n : Nat} (hr : AtRest s) (hy : follow (Solo.step i) n (s.solo i .popIndex fails) = y)
    (hidle : y.queue.pc i = .idle) : s.popAlone i fails n = y.queue.hist.result.map fun r => (r, y) := by
  subst hy
  rw [State.popAlone, step_pop hr i fails, Option.bind_some]
  exact if_pos (congrArg Pc.isIdle hidle)

/-- A pop takes the oldest value that is left. -/
theorem pop_at_rest (h : Run step Any .init s) (hr : AtRest s) (i : Tid) (fails : Nat)
    (hlt : position s.mem.headIndex < position s.mem.tailIndex) :
    ∃ p v rest x, s.remaining = (p, v) :: rest ∧ (∃ N, ∀ n, N ≤ n → s.popAlone i fails n = some (.ok v, x)) ∧
      x.naps = 0 ∧ Run step Any .init x.queue ∧ AtRest x.queue ∧ x.queue.remaining = rest := by
  have hi := inv_of_run h
  have hb := brought_of_run h
  have ho := hi.head_offset hr
  obtain ⟨c, hc⟩ := (hi.laid hb hr).chunk hlt
  rw [← hi.headChunk_eq hr] at hc
  obtain ⟨x, hclaim, htakes, hfails, hnap, hret₀, hpush₀⟩ := leads_claimed i fails ho hc hlt
  obtain ⟨j, hj⟩ := hi.push_returned hb hr (mem_slots.2 ⟨hlt, ho⟩)
  have hx := (reached_pop h hr i fails).leads hclaim
  obtain ⟨y, v, hreturn, hidle, hnaps, hret, hpush⟩ := Solo.returns (inv_of_run hx.1) htakes (hret₀ ▸ hj) hfails
  have hreached := hx.leads hreturn
  rw [hret₀] at hret
  rw [hpush₀] at hpush
  have hv : (position s.mem.headIndex, v) ∈ s.hist.pushes := by
    have hmem : (position s.mem.headIndex, v) ∈ y.queue.hist.popped := by simp [Hist.popped, hret]
    exact hpush ▸ (inv_of_run hreached.1).valued.popped _ hmem
  have hrem := hi.remaining_eq hr
  rw [hi.counted.drop_pushes hlt ho hv] at hrem
  refine ⟨_, v, _, y, hrem, ?_, hnaps.trans hnap, hreached.1, hreached.atRest hidle,
    remaining_pop hi hrem hpush hret⟩
  obtain ⟨N, hN⟩ := (hclaim.trans hreturn).enough (by rw [Solo.step, hidle]; rfl)
  refine ⟨N, fun n hn => ?_⟩
  rw [popAlone_eq hr (hN n hn) hidle, result_of_returns hret]
  rfl

/-! ### Polling -/

/-- What a `poll` makes of a resting queue. -/
inductive Polled (s : State V) : QueueState V → State V → Prop
  | spin (h : s.remaining = []) : Polled s .spin s
  | yield {p : Nat} {v : V} {s' : State V} (h : s.remaining = (p, v) :: s'.remaining)
      (hrun : Run step Any .init s') (hrest : AtRest s') : Polled s (.yield v) s'

theorem Inv.remaining_nil (hi : Inv s) (hr : AtRest s)
    (heq : position s.mem.headIndex = position s.mem.tailIndex) : s.remaining = [] := by
  rw [hi.remaining_eq hr, heq, ← hi.counted.pushes, List.length_map, List.drop_length]

theorem isEmpty_of_le {n : Nat} (hn : 2 ≤ n) :
    s.isEmpty n = some (decide (position s.mem.headIndex = position s.mem.tailIndex)) := by
  rw [← Nat.sub_add_cancel hn, isEmpty_alone]

theorem poll_at_rest (h : Run step Any .init s) (hr : AtRest s) (i : Tid) (fails : Nat) :
    ∃ N, ∀ n, N ≤ n → ∃ r s', s.poll i fails n = some (r, s') ∧ Polled s r s' := by
  have hi := inv_of_run h
  rcases hi.placed.core.le.eq_or_lt with heq | hlt
  · refine ⟨2, fun n hn => ⟨.spin, s, ?_, .spin (hi.remaining_nil hr heq)⟩⟩
    rw [State.poll, isEmpty_of_le hn, decide_eq_true heq]
    rfl
  · obtain ⟨p, v, rest, x, hrem, ⟨N, hN⟩, -, hrun, hrest, rfl⟩ := pop_at_rest h hr i fails hlt
    refine ⟨max 2 N, fun n hn => ⟨.yield v, x.queue, ?_, .yield hrem hrun hrest⟩⟩
    obtain ⟨htwo, hn⟩ := Nat.max_le.1 hn
    rw [State.poll, isEmpty_of_le htwo, decide_eq_false hlt.ne, Option.bind_some, hN n hn]
    rfl

/-- What `poll_next` does, by the message it receives and what is left in the queue. -/
structure PollExact (c : Stream V) (r : PollEnd V) : Prop where
  panicked : r = .panicked ↔ c.recv.head? = some .error
  none : (∃ c', r = .returned .none c') ↔ c.recv.head? = some .terminate
  item : ∀ v, (∃ c', r = .returned (.item v) c') ↔
    c.recv.head? ≠ some .error ∧ c.recv.head? ≠ some .terminate ∧ ∃ p rest, c.queue.remaining = (p, v) :: rest
  pending : (∃ c', r = .returned .pending c') ↔
    c.recv.head? ≠ some .error ∧ c.recv.head? ≠ some .terminate ∧ c.queue.remaining = []
  /-- The queue it leaves behind can be polled again. -/
  after : ∀ res c', r = .returned res c' → Run step Any .init c'.queue ∧ AtRest c'.queue ∧
    c'.recv = c.recv.tail ∧ (∀ v, res = .item v → c'.queue.remaining = c.queue.remaining.tail) ∧
    ((∀ v, res ≠ .item v) → c'.queue = c.queue)

section
variable {c : Stream V} {r : QueueState V} {n : Nat}

theorem pollNext_recv (he : c.recv.head? ≠ some .error) (ht : c.recv.head? ≠ some .terminate)
    (hpoll : c.queue.poll i fails n = some (r, s')) {res : Poll V} (hres : Blocking.pollNext r = some res) :
    c.pollNext i fails n = some (.returned res ⟨s', c.recv.tail⟩) := by
  obtain ⟨queue, recv⟩ := c
  rcases recv with _ | ⟨msg, recv⟩
  · simp only [Stream.pollNext, hpoll, Option.map_some, hres]
  · cases msg with
    | error => exact absurd rfl he
    | terminate => exact absurd rfl ht
    | yield item => simp only [Stream.pollNext, hpoll, Option.map_some, hres]
    | spin => simp only [Stream.pollNext, hpoll, Option.map_some, hres]

theorem PollExact.of_error (he : c.recv.head? = some .error) : PollExact c .panicked where
  panicked := ⟨fun _ => he, fun _ => rfl⟩
  none := ⟨nofun, fun ht => by rw [he] at ht; cases ht⟩
  item _ := ⟨nofun, fun h => absurd he h.1⟩
  pending := ⟨nofun, fun h => absurd he h.1⟩
  after := nofun

theorem PollExact.of_terminate (h : Run step Any .init c.queue) (hr : AtRest c.queue)
    (ht : c.recv.head? = some .terminate) : PollExact c (.returned .none ⟨c.queue, c.recv.tail⟩) where
  panicked := ⟨nofun, fun he => by rw [ht] at he; cases he⟩
  none := ⟨fun _ => ht, fun _ => ⟨_, rfl⟩⟩
  item _ := ⟨nofun, fun h => absurd ht h.2.1⟩
  pending := ⟨nofun, fun h => absurd ht h.2.1⟩
  after := by
    rintro _ _ ⟨⟩
    exact ⟨h, hr, rfl, nofun, fun _ => rfl⟩

theorem PollExact.of_polled (h : Run step Any .init c.queue) (hr : AtRest c.queue)
    (he : c.recv.head? ≠ some .error) (ht : c.recv.head? ≠ some .terminate) (hp : Polled c.queue r s') :
    ∃ res, Blocking.pollNext r = some res ∧ PollExact c (.returned res ⟨s', c.recv.tail⟩) := by
  generalize hq : c.queue = q at hp
  cases hp with
  | spin hrem =>
    subst hq
    refine ⟨.pending, rfl, ⟨nofun, fun h => absurd h he⟩, ⟨nofun, fun h => absurd h ht⟩, fun v => ⟨nofun, ?_⟩,
      ⟨fun _ => ⟨he, ht, hrem⟩, fun _ => ⟨_, rfl⟩⟩, ?_⟩
    · rintro ⟨-, -, p, rest, hcons⟩
      rw [hrem] at hcons
      cases hcons
    · rintro _ _ ⟨⟩
      exact ⟨h, hr, rfl, nofun, fun _ => rfl⟩
  | @yield p v s' hrem hrun hrest =>
    subst hq
    refine ⟨.item v, rfl, ⟨nofun, fun h => absurd h he⟩, ⟨nofun, fun h => absurd h ht⟩, fun w => ⟨?_, ?_⟩,
      ⟨nofun, ?_⟩, ?_⟩
    · rintro ⟨_, ⟨⟩⟩
      exact ⟨he, ht, p, _, hrem⟩
    · rintro ⟨-, -, q, rest, hcons⟩
      rw [hrem] at hcons
      cases hcons
      exact ⟨_, rfl⟩
    · rintro ⟨-, -, hnil⟩
      rw [hrem] at hnil
      cases hnil
    · rintro _ _ ⟨⟩
      exact ⟨hrun, hrest, rfl, fun _ _ => by rw [hrem]; rfl, fun hne => absurd rfl (hne v)⟩

theorem pollNext_at_rest (h : Run step Any .init c.queue) (hr : AtRest c.queue) (i : Tid) (fails : Nat) :
    ∃ N, ∀ n, N ≤ n → ∃ r, c.pollNext i fails n = some r ∧ PollExact c r := by
  by_cases he : c.recv.head? = some .error
  · obtain ⟨queue, recv⟩ := c
    obtain ⟨recv, rfl⟩ := List.head?_eq_some_iff.1 he
    exact ⟨0, fun n _ => ⟨.panicked, rfl, .of_error rfl⟩⟩
  · by_cases ht : c.recv.head? = some .terminate
    · obtain ⟨queue, recv⟩ := c
      obtain ⟨recv, rfl⟩ := List.head?_eq_some_iff.1 ht
      exact ⟨0, fun n _ => ⟨_, rfl, .of_terminate h hr rfl⟩⟩
    · obtain ⟨N, hN⟩ := poll_at_rest h hr i fails
      refine ⟨N, fun n hn => ?_⟩
      obtain ⟨r, s', hpoll, hp⟩ := hN n hn
      obtain ⟨res, hres, hexact⟩ := PollExact.of_polled h hr he ht hp
      exact ⟨_, pollNext_recv he ht hpoll hres, hexact⟩

/-- If `is_empty` returns `false`, the next `pop` returns a value and does not wait. -/
theorem pop_of_not_isEmpty (h : Run step Any .init s) (hr : AtRest s) (i : Tid) (fails : Nat) :
    ∃ N, ∀ n, N ≤ n → s.isEmpty n = some false → ∃ v x, s.popAlone i fails n = some (.ok v, x) ∧ x.naps = 0 := by
  rcases (inv_of_run h).placed.core.le.eq_or_lt with heq | hlt
  · refine ⟨2, fun n hn hfalse => ?_⟩
    rw [isEmpty_of_le hn, decide_eq_true heq] at hfalse
    cases hfalse
  · obtain ⟨p, v, rest, x, -, ⟨N, hN⟩, hnaps, -⟩ := pop_at_rest h hr i fails hlt
    exact ⟨N, fun n hn _ => ⟨v, x, hN n hn, hnaps⟩⟩

/-- Whenever no call is in progress, `poll_next` returns the oldest value that is left, and panics for a message
only. -/
theorem poll_exact_of_rest (h : Run step Any .init c.queue) (hr : AtRest c.queue) (i : Tid) (fails : Nat) :
    ∃ N, ∀ n, N ≤ n → (∃ r, c.pollNext i fails n = some r ∧ PollExact c r) ∧
      (c.queue.isEmpty n = some false → ∃ v x, c.queue.popAlone i fails n = some (.ok v, x) ∧ x.naps = 0) := by
  obtain ⟨N, hN⟩ := pollNext_at_rest h hr i fails
  obtain ⟨N', hN'⟩ := pop_of_not_isEmpty h hr i fails
  refine ⟨max N N', fun n hn => ?_⟩
  obtain ⟨hn, hn'⟩ := Nat.max_le.1 hn
  exact ⟨hN n hn, hN' n hn'⟩

end

end

/-- Behind `settleSchedule`, polled with a message in the channel and a claim that fails twice for no reason. -/
theorem settled_poll_exact : ∃ c : Stream Nat, Run step Any .init c.queue ∧ AtRest c.queue ∧
    c.queue.hist.pushed.length = 32 ∧ c.queue.hist.popped = [(0, 1)] ∧ c.recv = [.spin] ∧
    ∃ N, ∀ n, N ≤ n → (∃ r, c.pollNext 0 2 n = some r ∧ PollExact c r) ∧
      (c.queue.isEmpty n = some false → ∃ v x, c.queue.popAlone 0 2 n = some (.ok v, x) ∧ x.naps = 0) := by
  obtain ⟨s, hrun, hr, hpushed, hpopped⟩ := settled_run
  exact ⟨⟨s, [.spin]⟩, hrun, hr, by rw [hpushed]; rfl, hpopped, rfl, poll_exact_of_rest hrun hr 0 2⟩

end CoQueue.Lockless
