import CoQueue.Blocking.Queue

/-!
# What `next` hands out

The write lock has one holder, and while it is out nobody else gets to the queue (`Inv.lock`). So what
`is_empty` has seen is still there for `pop`, and a value that a `next` has taken is the only one between
the queue and those that were handed out (`Inv.kept`); `next` returns it as it lets go of the lock. The
rest is about a single call: it takes a value only in its last pass, and it makes the `21` passes that lead
to `Poke` only if it found the queue empty in each of them.
-/

namespace CoQueue.Blocking

open Schedule

variable {V : Type} {s s' : State V} {i j : Tid} {pc pc' : Pc V} {items : List V}
  {outer inner : List (QueueState V)} {poisoned : Bool} {hist : Hist V}

def Pc.holds : Pc V → Bool
  | .innerRecv _ | .isEmpty _ | .pop _ | .leave _ _ => true
  | _ => false

/-! ### The kinds of steps -/

inductive Move (s : State V) : State V → Prop
  | push (i : Tid) (v : V) (hi : s.pc i = .idle) (hw : s.writer = none) :
      Move s ({ s with
        items := s.items ++ [v]
        hist := { s.hist with pushed := s.hist.pushed ++ [v] } }.ret i .push)
  | pop (i : Tid) (v : V) (items : List V) (hi : s.pc i = .idle) (hw : s.writer = none)
      (hq : s.items = v :: items) :
      Move s ((State.handOut { s with items } v).ret i (.pop (some v)))
  | look (i : Tid) (r : Ret V) (hi : s.pc i = .idle) (hr : ∀ res c, r ≠ .next res c) :
      Move s (s.ret i r)
  | enter (i : Tid) (hi : s.pc i = .idle) : Move s (s.goto i (.outerRecv .new))
  | send (outer inner : List (QueueState V)) : Move s { s with outer, inner }
  | panic (i : Tid) (outer : List (QueueState V)) (hi : (s.pc i).holds = false) :
      Move s ({ s with outer }.goto i .panicked)
  | poison (i : Tid) (inner : List (QueueState V)) (hi : (s.pc i).holds = true)
      (hc : ∀ c v, s.pc i ≠ .leave c (.item v)) :
      Move s ({ s with inner }.poison i)
  | stop (i : Tid) (c : Call V) (outer : List (QueueState V)) (hi : s.pc i = .outerRecv c) :
      Move s ({ s with outer }.ret i (.next .none c.tick))
  | recv (i : Tid) (c : Call V) (outer : List (QueueState V)) (hi : s.pc i = .outerRecv c) :
      Move s ({ s with outer }.goto i (.lockWrite c.tick))
  | lock (i : Tid) (c : Call V) (hi : s.pc i = .lockWrite c) (hw : s.writer = none) :
      Move s ({ s with writer := some i }.goto i (.innerRecv c.tick))
  | innerStop (i : Tid) (c : Call V) (inner : List (QueueState V)) (hi : s.pc i = .innerRecv c) :
      Move s ({ s with inner }.goto i (.leave c.tick .none))
  | innerRecv (i : Tid) (c : Call V) (inner : List (QueueState V)) (hi : s.pc i = .innerRecv c) :
      Move s ({ s with inner }.goto i (.isEmpty c.tick))
  | empty (i : Tid) (c : Call V) (hi : s.pc i = .isEmpty c) (hq : s.items = []) :
      Move s (s.goto i (.leave { c.tick with polls := c.polls ++ [[]] } .pending))
  | found (i : Tid) (c : Call V) (hi : s.pc i = .isEmpty c) (hq : s.items ≠ []) :
      Move s (s.goto i (.pop { c.tick with polls := c.polls ++ [s.items] }))
  | take (i : Tid) (c : Call V) (v : V) (items : List V) (hi : s.pc i = .pop c) (hq : s.items = v :: items) :
      Move s ({ s with items }.goto i (.leave { c.tick with took := c.took ++ [v] } (.item v)))
  | item (i : Tid) (c : Call V) (v : V) (hi : s.pc i = .leave c (.item v)) :
      Move s ((State.handOut { s with writer := none } v).ret i (.next (.item v) c.tick))
  | none (i : Tid) (c : Call V) (hi : s.pc i = .leave c .none) :
      Move s ({ s with writer := none }.ret i (.next .none c.tick))
  | poke (i : Tid) (c : Call V) (hi : s.pc i = .leave c .pending) (hc : c.wakeCount = 20) :
      Move s ({ s with writer := none }.ret i (.next .poke c.tick))
  | again (i : Tid) (c : Call V) (hi : s.pc i = .leave c .pending) (hc : c.wakeCount ≠ 20) :
      Move s ({ s with writer := none }.goto i (.outerRecv { c.tick with wakeCount := c.wakeCount + 1 }))

theorem eq_idle_of_isIdle (h : pc.isIdle = true) : pc = .idle := by
  cases pc <;> first | rfl | cases h

theorem move_of_stepPc (hs : stepPc s i (s.pc i) = some s') : Move s s' := by
  cases hpc : s.pc i <;> rw [hpc] at hs <;> simp only [stepPc] at hs
  case idle | panicked => cases hs
  case outerRecv c =>
    split at hs <;> cases hs
    · exact .stop i c _ hpc
    · exact .panic i _ (by rw [hpc]; rfl)
    · exact .recv i c _ hpc
  case lockWrite c =>
    split at hs
    · split at hs <;> cases hs
      · exact .panic i s.outer (by rw [hpc]; rfl)
      · exact .lock i c hpc ‹_›
    · cases hs
  case innerRecv c =>
    split at hs <;> cases hs
    · exact .innerStop i c _ hpc
    · exact .poison i _ (by rw [hpc]; rfl) (by rw [hpc]; nofun)
    · exact .innerRecv i c _ hpc
  case isEmpty c =>
    split at hs <;> cases hs
    · rename_i hq
      rw [List.isEmpty_iff] at hq
      rw [hq]
      exact .empty i c hpc hq
    · rename_i hq
      exact .found i c hpc fun h => hq (List.isEmpty_iff.2 h)
  case pop c =>
    split at hs <;> cases hs
    · exact .take i c _ _ hpc ‹_›
    · exact .poison i s.inner (by rw [hpc]; rfl) (by rw [hpc]; nofun)
  case leave c res =>
    cases res <;> simp only at hs
    · cases hs; exact .item i c _ hpc
    · cases hs; exact .none i c hpc
    · split at hs <;> cases hs
      · exact .poke i c hpc ‹_›
      · exact .again i c hpc ‹_›

theorem read_eq {op : State V} (hs : s.read i op = some s') :
    s.pc i = .idle ∧ s.writer = none ∧ (s' = s.goto i .panicked ∨ s' = op) := by
  unfold State.read at hs
  split at hs
  · rename_i h
    rw [Bool.and_eq_true, Option.isNone_iff_eq_none] at h
    refine ⟨eq_idle_of_isIdle h.1, h.2, ?_⟩
    split at hs <;> cases hs
    · exact .inl rfl
    · exact .inr rfl
  · cases hs

theorem move_of_step {a : Act V} (hs : step s a = some s') : Move s s' := by
  have hpanic : ∀ {i}, s.pc i = .idle → Move s (s.goto i .panicked) := fun hi =>
    .panic _ s.outer (by rw [hi]; rfl)
  cases a with
  | push i v =>
    obtain ⟨hi, hw, rfl | rfl⟩ := read_eq hs
    · exact hpanic hi
    · exact .push i v hi hw
  | pop i =>
    obtain ⟨hi, hw, rfl | rfl⟩ := read_eq hs
    · exact hpanic hi
    · split
      · exact .pop i _ _ hi hw ‹_›
      · exact .look i _ hi nofun
  | isEmpty i =>
    obtain ⟨hi, hw, rfl | rfl⟩ := read_eq hs
    · exact hpanic hi
    · exact .look i _ hi nofun
  | len i =>
    obtain ⟨hi, hw, rfl | rfl⟩ := read_eq hs
    · exact hpanic hi
    · exact .look i _ hi nofun
  | next i =>
    simp only [step] at hs
    split at hs <;> cases hs
    exact .enter i (eq_idle_of_isIdle ‹_›)
  | sendOuter msg => cases hs; exact .send _ s.inner
  | sendInner msg => cases hs; exact .send s.outer _
  | run i => exact move_of_stepPc hs

/-! ### The invariant -/

/-- What a `next` has taken from the queue and not handed out yet. -/
def Pc.carries : Pc V → List V
  | .leave _ (.item v) => [v]
  | _ => []

def State.carried (s : State V) : List V :=
  match s.writer with
  | some i => (s.pc i).carries
  | none => []

/-- The call has found the queue empty in each pass so far, and has taken `n` steps in this one at most. -/
structure Waits (c : Call V) (n : Nat) : Prop where
  wake : c.wakeCount ≤ 20
  steps : c.steps ≤ 6 * c.wakeCount + n
  polls : c.polls = List.replicate c.wakeCount []
  took : c.took = []

/-- The call is in a pass in which it is going to return, with `took` taken. -/
structure Ends (c : Call V) (n : Nat) (took : List V) : Prop where
  wake : c.wakeCount ≤ 20
  steps : c.steps ≤ 6 * c.wakeCount + n
  took : c.took = took

def CallOk (items : List V) : Pc V → Prop
  | .outerRecv c => Waits c 0
  | .lockWrite c => Waits c 1
  | .innerRecv c => Waits c 2
  | .isEmpty c => Waits c 3
  | .pop c => Ends c 4 [] ∧ items ≠ []
  | .leave c (.item v) => Ends c 5 [v]
  | .leave c .none => Ends c 5 []
  | .leave c .pending => Ends c 5 [] ∧ c.polls = List.replicate (c.wakeCount + 1) []
  | _ => True

/-- What `next` may return with. -/
structure RetOk (res : Next V) (c : Call V) : Prop where
  passes : c.passes ≤ 21
  steps : c.steps ≤ 6 * c.passes
  item : ∀ v, res = .item v → c.took = [v]
  took : res = .none ∨ res = .poke → c.took = []
  poke : res = .poke → c.polls = List.replicate 21 []

structure Inv (s : State V) : Prop where
  lock : ∀ i, s.writer = some i ↔ (s.pc i).holds = true
  kept : s.hist.pushed = s.hist.handed ++ s.carried ++ s.items
  calls : ∀ i, CallOk s.items (s.pc i)
  returned : ∀ i res c, (i, .next res c) ∈ s.hist.returns → RetOk res c

theorem inv_init : Inv (.init : State V) :=
  ⟨fun _ => ⟨nofun, nofun⟩, rfl, fun _ => trivial, nofun⟩

theorem Inv.writer_none (h : Inv s) (hw : s.writer = none) (j : Tid) : (s.pc j).holds = false := by
  cases hj : (s.pc j).holds with
  | false => rfl
  | true =>
    rw [(h.lock j).2 hj] at hw
    cases hw

theorem Inv.not_holds (h : Inv s) (hi : s.writer = some i) (hj : j ≠ i) : (s.pc j).holds = false := by
  cases hj' : (s.pc j).holds with
  | false => rfl
  | true => exact absurd (Option.some.inj (((h.lock j).2 hj').symm.trans hi)) hj

theorem CallOk.of_not_holds (h : CallOk s.items pc) (hpc : pc.holds = false) : CallOk items pc := by
  cases pc <;> first | exact h | cases hpc

/-- A step of a thread that is not in the lock, and does not get there. -/
theorem Inv.outside (h : Inv s) (hi : (s.pc i).holds = false) (hi' : pc'.holds = false)
    (hc : CallOk items pc') (hq : items = s.items ∨ s.writer = none)
    (hk : hist.pushed = hist.handed ++ s.carried ++ items)
    (hr : ∀ j res c, (j, .next res c) ∈ hist.returns → (j, .next res c) ∈ s.hist.returns ∨ RetOk res c) :
    Inv ⟨items, s.writer, poisoned, outer, inner, Function.update s.pc i pc', hist⟩ := by
  have hne : s.writer ≠ some i := fun hw => by rw [(h.lock i).1 hw] at hi; cases hi
  refine ⟨?_, ?_, ?_, fun j res c hj => (hr j res c hj).elim (h.returned j res c) id⟩
  · refine (Function.forall_update_iff s.pc fun j pc => s.writer = some j ↔ pc.holds = true).2
      ⟨?_, fun j _ => h.lock j⟩
    exact ⟨fun hw => absurd hw hne, fun hh => by rw [hi'] at hh; cases hh⟩
  · rw [hk]
    unfold State.carried
    cases hw : s.writer with
    | none => rfl
    | some j =>
      have hji : j ≠ i := fun hji => hne (hji ▸ hw)
      simp only [Function.update_of_ne hji]
  · refine (Function.forall_update_iff s.pc fun _ pc => CallOk items pc).2 ⟨hc, fun j _ => ?_⟩
    rcases hq with rfl | hw
    · exact h.calls j
    · exact (h.calls j).of_not_holds (h.writer_none hw j)

/-- A step of the thread that is in the lock, which stays there. -/
theorem Inv.inside (h : Inv s) (hi : (s.pc i).holds = true) (hi' : pc'.holds = true)
    (hc : CallOk items pc') (hk : s.hist.pushed = s.hist.handed ++ pc'.carries ++ items) :
    Inv ⟨items, s.writer, poisoned, outer, inner, Function.update s.pc i pc', s.hist⟩ := by
  have hw := (h.lock i).2 hi
  refine ⟨?_, ?_, ?_, h.returned⟩
  · exact (Function.forall_update_iff s.pc fun j pc => s.writer = some j ↔ pc.holds = true).2
      ⟨⟨fun _ => hi', fun _ => hw⟩, fun j _ => h.lock j⟩
  · simp only [State.carried, hw, Function.update_self]
    exact hk
  · exact (Function.forall_update_iff s.pc fun _ pc => CallOk items pc).2
      ⟨hc, fun j hj => (h.calls j).of_not_holds (h.not_holds hw hj)⟩

theorem Inv.acquire (h : Inv s) (hw : s.writer = none) (hi' : pc'.holds = true) (hc : CallOk s.items pc')
    (hn : pc'.carries = []) :
    Inv ⟨s.items, some i, s.poisoned, s.outer, s.inner, Function.update s.pc i pc', s.hist⟩ := by
  refine ⟨?_, ?_, ?_, h.returned⟩
  · refine (Function.forall_update_iff s.pc fun j pc => some i = some j ↔ pc.holds = true).2
      ⟨⟨fun _ => hi', fun _ => rfl⟩, fun j hj => ⟨fun heq => absurd (Option.some.inj heq).symm hj, fun hh => ?_⟩⟩
    rw [h.writer_none hw j] at hh; cases hh
  · have hkept := h.kept
    simp only [State.carried, hw] at hkept
    simp only [State.carried, Function.update_self, hn]
    exact hkept
  · exact (Function.forall_update_iff s.pc fun _ pc => CallOk s.items pc).2 ⟨hc, fun j _ => h.calls j⟩

theorem Inv.release (h : Inv s) (hi : (s.pc i).holds = true) (hi' : pc'.holds = false)
    (hc : CallOk s.items pc') (hk : hist.pushed = hist.handed ++ s.items)
    (hr : ∀ j res c, (j, .next res c) ∈ hist.returns → (j, .next res c) ∈ s.hist.returns ∨ RetOk res c) :
    Inv ⟨s.items, none, poisoned, outer, inner, Function.update s.pc i pc', hist⟩ := by
  have hw := (h.lock i).2 hi
  refine ⟨?_, ?_, ?_, fun j res c hj => (hr j res c hj).elim (h.returned j res c) id⟩
  · refine (Function.forall_update_iff s.pc fun j pc => none = some j ↔ pc.holds = true).2
      ⟨⟨nofun, fun hh => ?_⟩, fun j hj => ⟨nofun, fun hh => ?_⟩⟩
    · rw [hi'] at hh; cases hh
    · rw [h.not_holds hw hj] at hh; cases hh
  · rw [hk]
    simp [State.carried]
  · exact (Function.forall_update_iff s.pc fun _ pc => CallOk s.items pc).2 ⟨hc, fun j _ => h.calls j⟩

theorem Inv.carried_eq (h : Inv s) (hpc : s.pc i = pc) (hi : pc.holds = true) : s.carried = pc.carries := by
  subst hpc
  rw [State.carried, (h.lock i).2 hi]

/-- As long as the thread in the lock has taken nothing, the values not handed out are in the queue. -/
theorem Inv.kept_items (h : Inv s) (hpc : s.pc i = pc) (hi : pc.holds = true) (hn : pc.carries = []) :
    s.hist.pushed = s.hist.handed ++ s.items := by
  rw [h.kept, h.carried_eq hpc hi, hn, List.append_nil]

theorem Inv.stays (h : Inv s) (hpc : s.pc i = pc) (hi : pc.holds = true) (hn : pc.carries = [])
    (hi' : pc'.holds = true) (hn' : pc'.carries = []) (hc : CallOk s.items pc') :
    Inv ⟨s.items, s.writer, poisoned, outer, inner, Function.update s.pc i pc', s.hist⟩ := by
  refine h.inside (by rw [hpc]; exact hi) hi' hc ?_
  rw [hn', List.append_nil]
  exact h.kept_items hpc hi hn

theorem Inv.call (h : Inv s) (hpc : s.pc i = pc) : CallOk s.items pc := hpc ▸ h.calls i

theorem mem_ret {r : Ret V} {res : Next V} {c : Call V} (hr : ∀ res c, r = .next res c → RetOk res c)
    (h : (j, Ret.next res c) ∈ s.hist.returns ++ [(i, r)]) :
    (j, Ret.next res c) ∈ s.hist.returns ∨ RetOk res c := by
  rcases List.mem_append.1 h with h | h
  · exact .inl h
  · exact .inr (hr res c (Prod.mk.inj (List.mem_singleton.1 h)).2.symm)

theorem Waits.tick {c : Call V} {n : Nat} (h : Waits c n) : Waits c.tick (n + 1) :=
  ⟨h.wake, Nat.succ_le_succ h.steps, h.polls, h.took⟩

theorem Waits.ends {c : Call V} {n k : Nat} (h : Waits c n) (hk : n ≤ k) : Ends c k [] :=
  ⟨h.wake, Nat.le_trans h.steps (Nat.add_le_add_left hk _), h.took⟩

theorem Ends.retOk {c : Call V} {took : List V} {res : Next V} (h : Ends c 5 took)
    (hi : ∀ v, res = .item v → took = [v]) (ht : res = .none ∨ res = .poke → took = [])
    (hp : res = .poke → c.polls = List.replicate 21 []) : RetOk res c.tick where
  passes := Nat.succ_le_succ h.wake
  steps := by
    have := h.steps
    simp only [Call.passes, Call.tick]
    omega
  item v hv := h.took.trans (hi v hv)
  took hr := h.took.trans (ht hr)
  poke := hp

theorem Inv.move (h : Inv s) (hm : Move s s') : Inv s' := by
  cases hm with
  | push i v hi hw =>
    refine h.outside (by rw [hi]; rfl) rfl trivial (.inr hw) ?_ fun j res c => mem_ret nofun
    show s.hist.pushed ++ [v] = s.hist.handed ++ s.carried ++ (s.items ++ [v])
    rw [h.kept, List.append_assoc _ s.items]
  | pop i v items hi hw hq =>
    refine h.outside (by rw [hi]; rfl) rfl trivial (.inr hw) ?_ fun j res c => mem_ret nofun
    have hnone : s.carried = [] := by rw [State.carried, hw]
    show s.hist.pushed = s.hist.handed ++ [v] ++ s.carried ++ items
    rw [h.kept, hnone, hq]
    simp
  | look i r hi hr =>
    exact h.outside (by rw [hi]; rfl) rfl trivial (.inl rfl) h.kept fun j res c =>
      mem_ret fun res c heq => absurd heq (hr res c)
  | enter i hi =>
    exact h.outside (by rw [hi]; rfl) rfl ⟨Nat.zero_le _, Nat.le_refl _, rfl, rfl⟩ (.inl rfl) h.kept
      fun _ _ _ => .inl
  | send outer inner => exact ⟨h.lock, h.kept, h.calls, h.returned⟩
  | panic i outer hi => exact h.outside hi rfl trivial (.inl rfl) h.kept fun _ _ _ => .inl
  | poison i inner hi hc =>
    have hn : (s.pc i).carries = [] := by
      cases hpc : s.pc i <;> try rfl
      rename_i c res
      cases res <;> try rfl
      exact absurd hpc (hc c _)
    exact h.release hi rfl trivial (h.kept_items rfl hi hn) fun _ _ _ => .inl
  | stop i c outer hi =>
    have hcall : Waits c 0 := h.call hi
    refine h.outside (by rw [hi]; rfl) rfl trivial (.inl rfl) h.kept fun j res c => mem_ret ?_
    rintro _ _ ⟨⟩
    exact (hcall.ends (Nat.zero_le 5)).retOk nofun (fun _ => rfl) nofun
  | recv i c outer hi =>
    have hcall : Waits c 0 := h.call hi
    exact h.outside (by rw [hi]; rfl) rfl hcall.tick (.inl rfl) h.kept fun _ _ _ => .inl
  | lock i c hi hw =>
    have hcall : Waits c 1 := h.call hi
    exact h.acquire hw rfl hcall.tick rfl
  | innerStop i c inner hi =>
    have hcall : Waits c 2 := h.call hi
    exact h.stays hi rfl rfl rfl rfl (hcall.tick.ends (by decide))
  | innerRecv i c inner hi =>
    have hcall : Waits c 2 := h.call hi
    exact h.stays hi rfl rfl rfl rfl hcall.tick
  | empty i c hi hq =>
    have hcall : Waits c 3 := h.call hi
    have hends : Ends c.tick 5 [] := hcall.tick.ends (by decide)
    refine h.stays hi rfl rfl rfl rfl ⟨⟨hends.wake, hends.steps, hends.took⟩, ?_⟩
    show c.polls ++ [[]] = List.replicate (c.wakeCount + 1) []
    rw [hcall.polls, List.replicate_succ']
  | found i c hi hq =>
    have hcall : Waits c 3 := h.call hi
    have hends : Ends c.tick 4 [] := hcall.tick.ends (Nat.le_refl 4)
    exact h.stays hi rfl rfl rfl rfl ⟨⟨hends.wake, hends.steps, hends.took⟩, hq⟩
  | take i c v items hi hq =>
    obtain ⟨hends, -⟩ : Ends c 4 [] ∧ s.items ≠ [] := h.call hi
    refine h.inside (by rw [hi]; rfl) rfl ⟨hends.wake, Nat.succ_le_succ hends.steps, ?_⟩ ?_
    · show c.took ++ [v] = [v]
      rw [hends.took]; rfl
    · rw [h.kept_items hi rfl rfl, hq]
      simp [Pc.carries]
  | item i c v hi =>
    have hcall : Ends c 5 [v] := h.call hi
    refine h.release (by rw [hi]; rfl) rfl trivial ?_ fun j res c => mem_ret ?_
    · show s.hist.pushed = s.hist.handed ++ [v] ++ s.items
      rw [h.kept, h.carried_eq hi rfl]
      rfl
    · rintro _ _ ⟨⟩
      exact hcall.retOk (by rintro _ ⟨⟩; rfl) (by rintro (h | h) <;> cases h) nofun
  | none i c hi =>
    have hcall : Ends c 5 [] := h.call hi
    refine h.release (by rw [hi]; rfl) rfl trivial (h.kept_items hi rfl rfl) fun j res c => mem_ret ?_
    rintro _ _ ⟨⟩
    exact hcall.retOk nofun (fun _ => rfl) nofun
  | poke i c hi hc =>
    obtain ⟨hends, hpolls⟩ : Ends c 5 [] ∧ c.polls = List.replicate (c.wakeCount + 1) [] := h.call hi
    refine h.release (by rw [hi]; rfl) rfl trivial (h.kept_items hi rfl rfl) fun j res c => mem_ret ?_
    rintro _ _ ⟨⟩
    exact hends.retOk nofun (fun _ => rfl) fun _ => by rw [hpolls, hc]
  | again i c hi hc =>
    obtain ⟨hends, hpolls⟩ : Ends c 5 [] ∧ c.polls = List.replicate (c.wakeCount + 1) [] := h.call hi
    refine h.release (by rw [hi]; rfl) rfl ⟨?_, ?_, hpolls, hends.took⟩ (h.kept_items hi rfl rfl)
      fun _ _ _ => .inl
    · have := hends.wake
      show c.wakeCount + 1 ≤ 20
      omega
    · have := hends.steps
      show c.steps + 1 ≤ 6 * (c.wakeCount + 1) + 0
      omega

theorem inv_of_run {C : State V → Act V → Prop} (h : Run step C .init s) : Inv s :=
  h.invariant inv_init fun _ _ _ hi _ hs => hi.move (move_of_step hs)

/-! ### Every call returns -/

/-- The thread is in a call of `next` that has neither returned nor panicked. -/
def Pc.call : Pc V → Option (Call V)
  | .outerRecv c | .lockWrite c | .innerRecv c | .isEmpty c | .pop c | .leave c _ => some c
  | .idle | .panicked => none

/-- The steps a call has left at most. -/
def Pc.rank : Pc V → Nat
  | .outerRecv c => 6 * (20 - c.wakeCount) + 6
  | .lockWrite c => 6 * (20 - c.wakeCount) + 5
  | .innerRecv c => 6 * (20 - c.wakeCount) + 4
  | .isEmpty c => 6 * (20 - c.wakeCount) + 3
  | .pop c => 6 * (20 - c.wakeCount) + 2
  | .leave c _ => 6 * (20 - c.wakeCount) + 1
  | .idle | .panicked => 0

/-- The steps that a thread in the lock takes before it lets go of it at most. -/
def Pc.inLock : Pc V → Nat
  | .innerRecv _ => 4
  | .isEmpty _ => 3
  | .pop _ => 2
  | .leave _ _ => 1
  | _ => 0

def State.inLock (s : State V) : Nat :=
  match s.writer with
  | some i => (s.pc i).inLock
  | none => 0

theorem inLock_le (s : State V) : s.inLock ≤ 4 := by
  unfold State.inLock
  split
  · rename_i i _
    cases s.pc i <;> simp [Pc.inLock]
  · exact Nat.zero_le 4

/-- Thread `i` has got nearer to its return, and to letting go of the lock if it has it. -/
structure Nearer (s : State V) (i : Tid) (s' : State V) : Prop where
  rank : (s'.pc i).rank < (s.pc i).rank
  inLock : s.writer = some i → s'.inLock < s.inLock
  others : ∀ j, j ≠ i → s'.pc j = s.pc j

theorem inLock_pos (h : pc.holds = true) : 0 < pc.inLock := by
  cases pc <;> first | exact Nat.succ_pos _ | cases h

theorem Inv.nearer (h : Inv s) (hpc : s'.pc = Function.update s.pc i pc') (hr : pc'.rank < (s.pc i).rank)
    (hl : (s.pc i).holds = true →
      s'.writer = none ∨ s'.writer = s.writer ∧ pc'.inLock < (s.pc i).inLock) : Nearer s i s' := by
  have hi : s'.pc i = pc' := by rw [hpc, Function.update_self]
  refine ⟨by rw [hi]; exact hr, fun hw => ?_, fun j hj => by rw [hpc, Function.update_of_ne hj]⟩
  have hh := (h.lock i).1 hw
  have hs : s.inLock = (s.pc i).inLock := by rw [State.inLock, hw]
  rw [hs]
  rcases hl hh with hn | ⟨hw', hlt⟩
  · rw [State.inLock, hn]
    exact inLock_pos hh
  · rw [State.inLock, hw', hw]
    show (s'.pc i).inLock < _
    rw [hi]
    exact hlt

/-- Unless it waits for the lock, a thread in a call of `next` gets nearer to its end. -/
theorem Inv.advances (h : Inv s) (hc : (s.pc i).call ≠ none)
    (hw : ∀ c, s.pc i = .lockWrite c → s.writer = none) :
    ∃ s', step s (.run i) = some s' ∧ Nearer s i s' := by
  have hcall := h.calls i
  simp only [step]
  cases hi : s.pc i <;> rw [hi] at hc hcall
  case idle | panicked => exact absurd rfl hc
  case outerRecv c =>
    simp only [stepPc]
    split <;> exact ⟨_, rfl, h.nearer rfl (by simp [hi, Pc.rank, Call.tick]) (by simp [hi, Pc.holds])⟩
  case lockWrite c =>
    simp only [stepPc, hw c hi, if_true]
    split <;> exact ⟨_, rfl, h.nearer rfl (by simp [hi, Pc.rank, Call.tick]) (by simp [hi, Pc.holds])⟩
  case innerRecv c =>
    simp only [stepPc]
    split
    · exact ⟨_, rfl, h.nearer rfl (by simp [hi, Pc.rank, Call.tick]) fun _ => .inr ⟨rfl, by simp [hi, Pc.inLock]⟩⟩
    · exact ⟨_, rfl, h.nearer rfl (by simp [hi, Pc.rank]) fun _ => .inl rfl⟩
    · exact ⟨_, rfl, h.nearer rfl (by simp [hi, Pc.rank, Call.tick]) fun _ => .inr ⟨rfl, by simp [hi, Pc.inLock]⟩⟩
  case isEmpty c =>
    simp only [stepPc]
    split <;>
      exact ⟨_, rfl, h.nearer rfl (by simp [hi, Pc.rank, Call.tick]) fun _ => .inr ⟨rfl, by simp [hi, Pc.inLock]⟩⟩
  case pop c =>
    simp only [stepPc]
    split
    · exact ⟨_, rfl, h.nearer rfl (by simp [hi, Pc.rank, Call.tick]) fun _ => .inr ⟨rfl, by simp [hi, Pc.inLock]⟩⟩
    · exact ⟨_, rfl, h.nearer rfl (by simp [hi, Pc.rank]) fun _ => .inl rfl⟩
  case leave c res =>
    cases res with
    | item v => exact ⟨_, rfl, h.nearer rfl (by simp [hi, Pc.rank]) fun _ => .inl rfl⟩
    | none => exact ⟨_, rfl, h.nearer rfl (by simp [hi, Pc.rank]) fun _ => .inl rfl⟩
    | pending =>
      obtain ⟨hends, -⟩ := hcall
      simp only [stepPc]
      split
      · exact ⟨_, rfl, h.nearer rfl (by simp [hi, Pc.rank]) fun _ => .inl rfl⟩
      · refine ⟨_, rfl, h.nearer rfl ?_ fun _ => .inl rfl⟩
        have := hends.wake
        simp only [hi, Pc.rank]
        omega

theorem call_of_holds (h : pc.holds = true) : pc.call ≠ none := by
  cases pc <;> simp_all [Pc.holds, Pc.call]

/-- The call returns or panics if only the thread itself and whoever has the lock take steps. -/
theorem Inv.finishes (h : Inv s) (hc : (s.pc i).call ≠ none) :
    ∃ t, Run step (fun s a => a = .run i ∨ ∃ j, s.writer = some j ∧ a = .run j) s t ∧
      (t.pc i).call = none := by
  -- by induction on the steps of `i` and, for each of them, on those of the thread in the lock
  induction hn : 5 * (s.pc i).rank + s.inLock using Nat.strongRecOn generalizing s with
  | _ n ih =>
    by_cases hb : ∃ c, s.pc i = .lockWrite c ∧ s.writer ≠ none
    · obtain ⟨c, hi, hw⟩ := hb
      obtain ⟨j, hj⟩ := Option.ne_none_iff_exists'.1 hw
      have hh := (h.lock j).1 hj
      have hij : i ≠ j := by rintro rfl; rw [hi] at hh; cases hh
      obtain ⟨s', hs, hnear⟩ := h.advances (call_of_holds hh) fun c hc => by rw [hc] at hh; cases hh
      have hpc := hnear.others i hij
      have hlt := hnear.inLock hj
      obtain ⟨t, hrun, ht⟩ := ih _ (by rw [hpc]; omega) (h.move (move_of_step hs)) (by rw [hpc]; exact hc) rfl
      exact ⟨t, (Run.single (.inr ⟨j, hj, rfl⟩) hs).trans hrun, ht⟩
    · obtain ⟨s', hs, hnear⟩ := h.advances hc fun c hi => by
        by_contra hw
        exact hb ⟨c, hi, hw⟩
      have hone : Run step (fun s a => a = .run i ∨ ∃ j, s.writer = some j ∧ a = .run j) s s' :=
        .single (.inl rfl) hs
      by_cases hd : (s'.pc i).call = none
      · exact ⟨s', hone, hd⟩
      · have hlt := hnear.rank
        have hle := inLock_le s'
        obtain ⟨t, hrun, ht⟩ := ih _ (by omega) (h.move (move_of_step hs)) hd rfl
        exact ⟨t, hone.trans hrun, ht⟩

theorem Inv.bounded (h : Inv s) {c : Call V} (hc : (s.pc i).call = some c) :
    c.passes ≤ 21 ∧ c.steps < 6 * 21 := by
  have hcall := h.calls i
  have hends : ∃ took, Ends c 5 took := by
    cases hi : s.pc i <;> rw [hi] at hc hcall <;> cases hc
    case outerRecv | lockWrite | innerRecv | isEmpty => exact ⟨[], hcall.ends (by decide)⟩
    case pop => exact ⟨[], hcall.1.wake, Nat.le_succ_of_le hcall.1.steps, hcall.1.took⟩
    case leave res =>
      cases res with
      | item v => exact ⟨[v], hcall⟩
      | none => exact ⟨[], hcall⟩
      | pending => exact ⟨[], hcall.1⟩
  obtain ⟨took, hends⟩ := hends
  have hwake := hends.wake
  have hsteps := hends.steps
  unfold Call.passes
  omega

/-- The iterator neither loses, repeats nor reorders values, and always returns. -/
structure Iterates (s : State V) : Prop where
  order : s.hist.handed <+: s.hist.pushed
  /-- What has not been handed out is in the queue, but for a value that a `next` is about to return. -/
  kept : s.hist.pushed = s.hist.handed ++ s.carried ++ s.items
  removes : ∀ i res c, (i, .next res c) ∈ s.hist.returns → res = .none ∨ res = .poke → c.took = []
  passes : ∀ i res c, (i, .next res c) ∈ s.hist.returns → c.passes ≤ 21
  poke : ∀ i c, (i, .next .poke c) ∈ s.hist.returns → c.polls = List.replicate 21 []
  /-- A call in progress is in its 21st pass at most; it takes not more than six steps in each, -/
  bounded : ∀ i c, (s.pc i).call = some c → c.passes ≤ 21 ∧ c.steps < 6 * 21
  /-- and nobody but the thread in the lock has to take a step for it to go on. -/
  returns : ∀ i, (s.pc i).call ≠ none →
    ∃ t, Run step (fun s a => a = .run i ∨ ∃ j, s.writer = some j ∧ a = .run j) s t ∧ (t.pc i).call = none

theorem iterates_of_run (h : Run step Any .init s) : Iterates s := by
  have hi := inv_of_run h
  refine ⟨?_, hi.kept, fun i res c hr => (hi.returned i res c hr).took,
    fun i res c hr => (hi.returned i res c hr).passes, fun i c hr => (hi.returned i .poke c hr).poke rfl,
    fun i c => hi.bounded, fun i => hi.finishes⟩
  rw [hi.kept, List.append_assoc]
  exact List.prefix_append _ _

/-- Thread 1 calls `next` and takes `n` steps of it. -/
def nextCall (n : Nat) : List (Act Nat) := .next 1 :: List.replicate n (.run 1)

/-- Thread 1 iterates twice; the second time it finds nothing. -/
def iterSchedule : List (Act Nat) := .push 0 7 :: .sendOuter .spin :: (nextCall 6 ++ nextCall 105)

theorem poked_iterates : ∃ s : State Nat, Run step Any .init s ∧ s.hist.handed = [7] ∧
    (∃ c, (1, .next .poke c) ∈ s.hist.returns) ∧ Iterates s := by
  have hexec : (exec step Any .init iterSchedule).map (fun s => (s.hist.handed, s.hist.returns.map fun r =>
      match r with
      | (i, .next .poke _) => some i
      | _ => none)) = some ([7], [none, none, some 1]) := by
    decide +kernel
  obtain ⟨s, hrun, hs⟩ := Run.of_exec_map hexec
  rw [Prod.mk.injEq] at hs
  refine ⟨s, hrun, hs.1, ?_, iterates_of_run hrun⟩
  have hmem : some 1 ∈ [none, none, some 1] := by decide
  rw [← hs.2] at hmem
  obtain ⟨⟨i, r⟩, hr, heq⟩ := List.mem_map.1 hmem
  split at heq
  · rename_i c heq'
    cases heq
    cases heq'
    exact ⟨c, hr⟩
  · cases heq

end CoQueue.Blocking
