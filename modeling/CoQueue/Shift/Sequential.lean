import Mathlib.Data.List.MinMax
import CoQueue.Shift.Fifo

/-!
# Sequential runs and the `threads` parameter

One thread makes a list of calls, each of which runs to its end before the next one starts. Every
state between two calls has a list of values behind `head` (`Rest`), and each call treats it as the
FIFO queue `fifo` does, with one exception: `threads` is the capacity of the guards, and a guard of
capacity `0` is at the same time full and empty, so the `_pop` that claims a value finds no room for
the old head after emptying `pop_guard` and its `assert!` fires.
-/

namespace CoQueue.Shift

open Linked Schedule

section
variable {V : Type} {s t : State V} {m : Mem V} {h : Hist V} {pc : Pc} {threads : Nat}

inductive Op (V : Type)
  | push (val : V)
  | tryPop
  | isEmpty

inductive Res (V : Type)
  | push
  | tryPop (res : Option V)
  | isEmpty (res : Bool)
deriving DecidableEq, Repr

/-- The address that the allocator gives out to a push here: one it has not given out before. -/
def Mem.fresh (m : Mem V) : Addr := m.born.foldr max 0 + 1

theorem Mem.fresh_notMem (m : Mem V) : m.fresh ∉ m.born :=
  fun h => Nat.not_succ_le_self _ (List.le_max_of_le' 0 h (Nat.le_refl _))

def Op.act (addr : Addr) : Op V → Act V
  | .push val => .push 0 val addr
  | .tryPop => .tryPop 0
  | .isEmpty => .isEmpty 0

def Ret.res : Ret V → Res V
  | .push _ => .push
  | .tryPop r => .tryPop (r.map Prod.snd)
  | .isEmpty b => .isEmpty b

/-- A call by thread `0`, given `n` steps; `none` when it has not returned then. -/
def State.call (n : Nat) (s : State V) (op : Op V) : Option (State V) :=
  (step s (op.act s.mem.fresh)).bind fun t =>
    let u := follow (fun s => step s (.run 0)) n t
    if u.pc 0 = .idle then some u else none

def State.calls (n : Nat) : State V → List (Op V) → Option (State V)
  | s, [] => some s
  | s, op :: ops => (s.call n op).bind fun t => t.calls n ops

/-- What the calls on a fresh queue return, with `n` steps for each; `none` when one of them does
not return. -/
def results (n threads : Nat) (ops : List (Op V)) : Option (List (Res V)) :=
  ((State.init threads).calls n ops).map fun s => s.hist.returns.map fun r => r.2.res

/-! ### The FIFO queue -/

def fifo : List V → List (Op V) → List (Res V)
  | _, [] => []
  | q, .push v :: ops => .push :: fifo (q ++ [v]) ops
  | [], .tryPop :: ops => .tryPop none :: fifo [] ops
  | v :: q, .tryPop :: ops => .tryPop (some v) :: fifo q ops
  | q, .isEmpty :: ops => .isEmpty q.isEmpty :: fifo q ops

def Op.isTryPop : Op V → Bool
  | .tryPop => true
  | _ => false

def popsAfterPush : List (Op V) → Bool
  | [] => false
  | .push _ :: ops => ops.any Op.isTryPop
  | _ :: ops => popsAfterPush ops

/-- No call of `ops` takes a value out of the queue `q`. -/
def takesNone (q : List V) (ops : List (Op V)) : Bool :=
  if q.isEmpty then !popsAfterPush ops else !ops.any Op.isTryPop

/-! ### Thread `0` by itself -/

def solo (m : Mem V) (h : Hist V) (pc : Pc) : State V :=
  ⟨m, Function.update (fun _ => Pc.idle) (0 : Tid) pc, h⟩

@[simp] theorem solo_pc : (solo m h pc).pc 0 = pc := by simp [solo]

theorem solo_run {r : Mem V × Pc × Event V} (hr : stepPc m pc = some r) :
    step (solo m h pc) (.run 0) = some (solo r.1 (h.log 0 r.2.2) r.2.1) := by
  simp only [step, solo_pc]
  rw [show (solo m h pc).mem = m from rfl, hr]
  simp only [Option.map_some, State.put, solo, Function.update_idem]

/-- Thread `0`, on its own at `pc`, gets to `pc'`. -/
abbrev Goes (m : Mem V) (h : Hist V) (pc : Pc) (m' : Mem V) (h' : Hist V) (pc' : Pc) : Prop :=
  Leads (fun s => step s (.run 0)) (solo m h pc) (solo m' h' pc')

theorem goes_step {m' m'' : Mem V} {h'' : Hist V} {pc' pc'' : Pc} {e : Event V}
    (hr : stepPc m pc = some (m', pc', e)) (h' : Goes m' (h.log 0 e) pc' m'' h'' pc'') :
    Goes m h pc m'' h'' pc'' :=
  Leads.head (solo_run hr) h'

theorem goes_silent {m' m'' : Mem V} {h'' : Hist V} {pc' pc'' : Pc}
    (hr : stepPc m pc = some (m', pc', .silent)) (h' : Goes m' h pc' m'' h'' pc'') :
    Goes m h pc m'' h'' pc'' :=
  goes_step hr h'

/-- A state between two calls; `q` are the values behind `head`. -/
structure Rest (s : State V) (q : List V) : Prop where
  inv : Inv s
  solo : s = solo s.mem s.hist .idle
  queue : (s.hist.linked.drop s.hist.claims.length).map s.mem.data = q.map some
  lock : s.mem.popLock = false
  len : s.mem.popGuard.len ≤ s.mem.popGuard.cap

theorem rest_init (threads : Nat) : Rest (State.init (V := V) threads) [] where
  inv := inv_init threads
  solo := by
    show _ = Shift.solo _ _ _
    simp only [Shift.solo, State.init, Function.update_eq_self_iff.2]
  queue := rfl
  lock := rfl
  len := Nat.zero_le _

theorem Rest.idle {q : List V} (hR : Rest s q) (j : Tid) : s.pc j = .idle := by
  rw [hR.solo]
  simp [Shift.solo]

theorem Rest.sole {q : List V} (hR : Rest s q) : Sole s where
  one j _ h := by rw [hR.idle j] at h; cases h
  tail j _ h := by rw [hR.idle j] at h; cases h
  common j h := by rw [hR.idle j] at h; cases h

theorem Rest.next_tail {q : List V} (hR : Rest s q) : s.mem.next s.mem.tail = none :=
  hR.inv.next_tail fun j a t hj => by rw [hR.idle j] at hj; cases hj

theorem Rest.next_head {q : List V} (hR : Rest s q) :
    (q = [] ∧ s.mem.next s.mem.head = none) ∨
    ∃ b v q', q = v :: q' ∧ s.mem.next s.mem.head = some b ∧ s.mem.data b = some v ∧
      (s.hist.linked.drop (s.hist.claims.length + 1)).map s.mem.data = q'.map some := by
  have hpath := hR.inv.chain
  have hq := hR.queue
  rw [← List.drop_drop]
  cases hl : s.hist.linked.drop s.hist.claims.length with
  | nil =>
    rw [hl] at hpath hq
    exact .inl ⟨by simpa using hq.symm, hpath⟩
  | cons b l =>
    rw [hl] at hpath hq
    cases q with
    | nil => cases hq
    | cons v q' =>
      simp only [List.map_cons, List.cons.injEq] at hq
      exact .inr ⟨b, v, q', rfl, hpath.1, hq.1, hq.2⟩

/-! ### The calls, one by one -/

/-- The nodes that a thread which empties `pop_guard` drops: `pop` reads the slots from `len` down to `1`. -/
def swept (slot : Nat → Option Addr) : Nat → List Addr
  | 0 => []
  | n + 1 => (slot (n + 1)).toList ++ swept slot n

/-- The memory behind a claim once `_pop` has parked its old head `a`. -/
def Mem.retire (m : Mem V) (a : Addr) : Mem V :=
  if m.popGuard.len = m.popGuard.cap then
    { m with
      popGuard := { m.popGuard with len := 1, slot := Function.update m.popGuard.slot 0 (some a) }
      freed := m.freed ++ [a] ++ swept m.popGuard.slot m.popGuard.len }
  else { m with popGuard := (m.popGuard.push a).2 }

@[simp] theorem retire_data (m : Mem V) (a : Addr) : (m.retire a).data = m.data := by
  unfold Mem.retire; split <;> rfl

@[simp] theorem retire_popLock (m : Mem V) (a : Addr) : (m.retire a).popLock = m.popLock := by
  unfold Mem.retire; split <;> rfl

@[simp] theorem retire_cap (m : Mem V) (a : Addr) : (m.retire a).popGuard.cap = m.popGuard.cap := by
  unfold Mem.retire
  split
  · rfl
  · simp [PtrGuard.push, *]

theorem retire_len_le {m : Mem V} (a : Addr) (hlen : m.popGuard.len ≤ m.popGuard.cap)
    (hcap : m.popGuard.cap ≠ 0) : (m.retire a).popGuard.len ≤ (m.retire a).popGuard.cap := by
  rw [retire_cap]
  unfold Mem.retire
  split
  · exact Nat.pos_of_ne_zero hcap
  · simp only [PtrGuard.push, if_neg ‹_›, PtrGuard.compareAndSwap_len, PtrGuard.write_len, if_true]
    omega

theorem goes_sweep (h : Hist V) (a b : Addr) (n : Nat) (m : Mem V) (hn : m.popGuard.len = n) :
    Goes m h (.sweepLen a b)
      { m with
        popGuard := { m.popGuard with len := 0 }
        freed := m.freed ++ swept m.popGuard.slot n } h (.refillLen a b) := by
  induction n generalizing m with
  | zero =>
    have hm : { m with popGuard := { m.popGuard with len := 0 }, freed := m.freed ++ [] } = m := by
      rw [List.append_nil, ← hn]
    rw [swept, hm]
    exact goes_silent (by simp only [stepPc, hn, if_true]) (Leads.refl _)
  | succ n ih =>
    have hgo := ih
      { m with
        popGuard := m.popGuard.compareAndSwap (n + 1) n
        freed := m.freed ++ (m.popGuard.slot (n + 1)).toList }
      (by simp [PtrGuard.compareAndSwap_len, hn])
    refine goes_silent (by simp only [stepPc, hn, Nat.add_one_ne_zero, if_false]; rfl) ?_
    refine goes_silent rfl ?_
    refine goes_silent rfl ?_
    simpa [PtrGuard.compareAndSwap, hn, swept] using hgo

/-- Behind a claim, `_pop` parks the old head and goes on to read the value, if there is any room. -/
theorem goes_retire (h : Hist V) (a b : Addr) (m : Mem V) (hlock : m.popLock = false)
    (hcap : m.popGuard.cap ≠ 0) : Goes m h (.retireLen a b) (m.retire a) h (.readData b) := by
  unfold Mem.retire
  split
  · rename_i hfull
    have hgo := goes_sweep h a b _ { m with popLock := true, freed := m.freed ++ [a] } rfl
    refine goes_silent (by simp only [stepPc, hfull, if_true]; rfl) ?_
    refine goes_silent (by simp only [stepPc, hlock]; rfl) ?_
    refine hgo.trans ?_
    refine goes_silent (by simp only [stepPc, hcap.symm, if_false]; rfl) ?_
    refine goes_silent rfl ?_
    refine goes_silent rfl ?_
    refine goes_silent rfl ?_
    simp only [PtrGuard.compareAndSwap, PtrGuard.write, if_true, ← hlock]
    exact Leads.refl _
  · rename_i hroom
    rw [PtrGuard.push, if_neg hroom]
    refine goes_silent (by simp only [stepPc, hroom, if_false]; rfl) ?_
    refine goes_silent rfl ?_
    refine goes_silent rfl ?_
    exact Leads.refl _

/-- With a guard of capacity `0` the `assert!` behind the overflow branch fires. -/
theorem goes_panic (h : Hist V) (a b : Addr) (m : Mem V) (hlock : m.popLock = false)
    (hlen : m.popGuard.len ≤ m.popGuard.cap) (hcap : m.popGuard.cap = 0) :
    ∃ m', Goes m h (.retireLen a b) m' h (.panicked .refill) := by
  have hfull : m.popGuard.len = m.popGuard.cap := by omega
  have hgo := goes_sweep h a b _ { m with popLock := true, freed := m.freed ++ [a] } rfl
  refine ⟨{ m with
    popLock := false
    popGuard := { m.popGuard with len := 0 }
    freed := m.freed ++ [a] ++ swept m.popGuard.slot m.popGuard.len ++ [a] }, ?_⟩
  refine goes_silent (by simp only [stepPc, hfull, if_true]; rfl) ?_
  refine goes_silent (by simp only [stepPc, hlock]; rfl) ?_
  refine hgo.trans ?_
  exact goes_silent (by simp only [stepPc, hcap, if_true]) (Leads.refl _)

theorem goes_push (h : Hist V) (a : Addr) (m : Mem V) (hn : m.next m.tail = none)
    (hg : m.pushGuard.len = 0) :
    Goes m h (.loadTail a) { m with next := Function.update m.next m.tail (some a), tail := a }
      ⟨h.linked ++ [a], h.claims, h.returns ++ [(0, .push a)]⟩ .idle := by
  refine goes_silent rfl ?_
  refine goes_silent (by simp only [stepPc, hn]; rfl) ?_
  refine goes_silent (by simp only [stepPc, PtrGuard.isEmpty, hg]; rfl) ?_
  refine goes_silent (by simp only [stepPc, hn]; rfl) ?_
  refine goes_step (by simp only [stepPc, hn]; rfl) ?_
  refine goes_step (by simp only [stepPc, if_true]; rfl) ?_
  exact Leads.refl _

/-- What a call that returns leaves behind. -/
inductive Done (s : State V) : Op V → Mem V → Hist V → Prop
  | push (v : V) :
      Done s (.push v)
        { s.mem.alloc s.mem.fresh v with
          next := Function.update (s.mem.alloc s.mem.fresh v).next s.mem.tail (some s.mem.fresh)
          tail := s.mem.fresh }
        ⟨s.hist.linked ++ [s.mem.fresh], s.hist.claims, s.hist.returns ++ [(0, .push s.mem.fresh)]⟩
  | isEmpty :
      Done s .isEmpty s.mem
        ⟨s.hist.linked, s.hist.claims, s.hist.returns ++ [(0, .isEmpty (s.mem.next s.mem.head).isNone)]⟩
  | none (hn : s.mem.next s.mem.head = none) :
      Done s .tryPop s.mem ⟨s.hist.linked, s.hist.claims, s.hist.returns ++ [(0, .tryPop none)]⟩
  | some (b : Addr) (v : V) (hn : s.mem.next s.mem.head = some b) (hv : s.mem.data b = some v) :
      Done s .tryPop ({ s.mem with head := b }.retire s.mem.head)
        ⟨s.hist.linked, s.hist.claims ++ [b], s.hist.returns ++ [(0, .tryPop (some (b, v)))]⟩

/-- The call returns `r`, the guards keep their capacity, and the next call finds the queue `q`. -/
structure Returns (s : State V) (op : Op V) (r : Res V) (q : List V) (u t : State V) : Prop where
  enter : step s (op.act s.mem.fresh) = some u
  leads : Leads (fun s => step s (.run 0)) u t
  rest : Rest t q
  done : Done s op t.mem t.hist
  returned : t.hist.returns.map (fun r => r.2.res) = s.hist.returns.map (fun r => r.2.res) ++ [r]
  cap : t.mem.popGuard.cap = s.mem.popGuard.cap

theorem Rest.enter {q : List V} (hR : Rest s q) (m : Mem V) (pc : Pc) :
    s.enter 0 m pc = some (Shift.solo m s.hist pc) := by
  have hpc : s.pc = Function.update (fun _ => Pc.idle) (0 : Tid) .idle := congrArg State.pc hR.solo
  rw [State.enter, if_pos (hR.idle 0), hpc]
  simp only [Shift.solo, Function.update_idem]

theorem Rest.inv_of_leads {q : List V} {a : Act V} {u : State V} (hR : Rest s q)
    (hu : unused s a = true) (hs : step s a = some u) (hl : Leads (fun s => step s (.run 0)) u t) : Inv t := by
  have ha : alone s a := by
    cases a with
    | push i val b => intro j; rw [hR.idle j]; rfl
    | _ => trivial
  refine (hl.invariant (P := fun s => Inv s ∧ Sole s) ?_
    ⟨hR.inv.step (hR.sole.orderly hR.inv a) hu hs, hR.sole.step hR.inv ha hs⟩).1
  intro s t ⟨hI, hS⟩ hs
  exact ⟨hI.step (hS.orderly hI _) rfl hs, hS.step hI (a := .run 0) trivial hs⟩

theorem Rest.push {q : List V} (hR : Rest s q) (v : V) :
    ∃ u t, Returns s (.push v) .push (q ++ [v]) u t := by
  have hnew := s.mem.fresh_notMem
  have hgo := goes_push s.hist s.mem.fresh (s.mem.alloc s.mem.fresh v)
    (by rw [hR.inv.next_alloc hnew]; exact hR.next_tail) hR.inv.guard
  have henter : step s (.push 0 v s.mem.fresh) = _ :=
    (if_neg fun h => hnew h.1).trans (hR.enter (s.mem.alloc s.mem.fresh v) (.loadTail s.mem.fresh))
  refine ⟨_, _, henter, hgo, ⟨hR.inv_of_leads (by simpa [unused] using hnew) henter hgo, rfl, ?_, hR.lock,
    hR.len⟩, .push v, ?_, rfl⟩
  · -- the old nodes keep their values, the new one holds `v`
    have hold : ∀ a ∈ s.hist.linked.drop s.hist.claims.length,
        Function.update s.mem.data s.mem.fresh (some v) a = s.mem.data a := by
      intro a ha
      have hborn := hR.inv.born a (List.mem_cons_of_mem _ (List.mem_of_mem_drop ha))
      have hne : a ≠ s.mem.fresh := fun h => hnew (h ▸ hborn)
      exact Function.update_of_ne hne _ _
    show ((s.hist.linked ++ [s.mem.fresh]).drop s.hist.claims.length).map
      (Function.update s.mem.data s.mem.fresh (some v)) = (q ++ [v]).map some
    rw [List.drop_append_of_le_length hR.inv.claims.length_le, List.map_append,
      List.map_congr_left hold, hR.queue]
    simp
  · simp [Shift.solo, Ret.res]

theorem Rest.isEmpty {q : List V} (hR : Rest s q) :
    ∃ u t, Returns s .isEmpty (.isEmpty q.isEmpty) q u t := by
  have hgo : Goes s.mem s.hist .emptyHead s.mem
      ⟨s.hist.linked, s.hist.claims, s.hist.returns ++ [(0, .isEmpty (s.mem.next s.mem.head).isNone)]⟩
      .idle :=
    goes_silent rfl (goes_step rfl (Leads.refl _))
  have henter : step s (.isEmpty 0) = _ := hR.enter s.mem .emptyHead
  refine ⟨_, _, henter, hgo, ⟨hR.inv_of_leads rfl henter hgo, rfl, hR.queue, hR.lock, hR.len⟩, .isEmpty, ?_, rfl⟩
  have hb : (s.mem.next s.mem.head).isNone = q.isEmpty := by
    rcases hR.next_head with ⟨rfl, hn⟩ | ⟨b, v, q', rfl, hn, -⟩ <;> rw [hn] <;> rfl
  simp [Shift.solo, Ret.res, hb]

theorem Rest.tryPop_nil (hR : Rest s []) : ∃ u t, Returns s .tryPop (.tryPop none) [] u t := by
  have hn : s.mem.next s.mem.head = none := by
    rcases hR.next_head with ⟨-, hn⟩ | ⟨b, v, q', hq, -⟩
    · exact hn
    · cases hq
  have hgo : Goes s.mem s.hist .loadHead s.mem
      ⟨s.hist.linked, s.hist.claims, s.hist.returns ++ [(0, .tryPop none)]⟩ .idle := by
    refine goes_silent rfl ?_
    refine goes_step (by simp only [stepPc, hn]; rfl) ?_
    exact Leads.refl _
  have henter : step s (.tryPop 0) = _ := hR.enter s.mem .loadHead
  refine ⟨_, _, henter, hgo, ⟨hR.inv_of_leads rfl henter hgo, rfl, hR.queue, hR.lock, hR.len⟩, .none hn, ?_, rfl⟩
  simp [Shift.solo, Ret.res]

theorem goes_claim (h : Hist V) (b : Addr) (m : Mem V) (hn : m.next m.head = some b) :
    Goes m h .loadHead { m with head := b } ⟨h.linked, h.claims ++ [b], h.returns⟩
      (.retireLen m.head b) := by
  refine goes_silent rfl ?_
  refine goes_silent (by simp only [stepPc, hn]; rfl) ?_
  refine goes_step (by simp only [stepPc, if_true]; rfl) ?_
  exact Leads.refl _

theorem Rest.tryPop_cons {v : V} {q : List V} (hR : Rest s (v :: q)) (hcap : s.mem.popGuard.cap ≠ 0) :
    ∃ u t, Returns s .tryPop (.tryPop (some v)) q u t := by
  rcases hR.next_head with ⟨hq, -⟩ | ⟨b, w, q', hq, hn, hb, hrest⟩
  · cases hq
  obtain ⟨rfl, rfl⟩ : v = w ∧ q = q' := by simpa using hq
  have hgo' := goes_retire ⟨s.hist.linked, s.hist.claims ++ [b], s.hist.returns⟩ s.mem.head b
    { s.mem with head := b } hR.lock hcap
  have hgo : Goes s.mem s.hist .loadHead ({ s.mem with head := b }.retire s.mem.head)
      ⟨s.hist.linked, s.hist.claims ++ [b], s.hist.returns ++ [(0, .tryPop (some (b, v)))]⟩ .idle := by
    refine (goes_claim s.hist b s.mem hn).trans (hgo'.trans ?_)
    refine goes_step (by simp only [stepPc, retire_data, hb]; rfl) ?_
    exact Leads.refl _
  have henter : step s (.tryPop 0) = _ := hR.enter s.mem .loadHead
  refine ⟨_, _, henter, hgo, ⟨hR.inv_of_leads rfl henter hgo, rfl, ?_, ?_, ?_⟩, .some b v hn hb, ?_, ?_⟩
  · simpa [Shift.solo] using hrest
  · exact (retire_popLock _ _).trans hR.lock
  · exact retire_len_le _ hR.len hcap
  · simp [Shift.solo, Ret.res]
  · exact retire_cap _ _

theorem Rest.tryPop_panics {v : V} {q : List V} (hR : Rest s (v :: q))
    (hcap : s.mem.popGuard.cap = 0) : ∃ u t, step s (.tryPop 0) = some u ∧
      Leads (fun s => step s (.run 0)) u t ∧ t.pc 0 = .panicked .refill := by
  rcases hR.next_head with ⟨hq, -⟩ | ⟨b, w, q', -, hn, -⟩
  · cases hq
  obtain ⟨m', hgo⟩ := goes_panic ⟨s.hist.linked, s.hist.claims ++ [b], s.hist.returns⟩ s.mem.head b
    { s.mem with head := b } hR.lock hR.len hcap
  exact ⟨_, _, hR.enter s.mem .loadHead, (goes_claim s.hist b s.mem hn).trans hgo, solo_pc⟩

/-! ### Whole runs -/

theorem run_none_of_idle (hpc : s.pc 0 = .idle) : step s (.run 0) = none := by
  simp only [step, hpc, stepPc, Option.map_none]

theorem Returns.call {op : Op V} {r : Res V} {q : List V} {u : State V} (h : Returns s op r q u t) :
    ∃ N, ∀ n, N ≤ n → s.call n op = some t := by
  have hidle := h.rest.idle 0
  obtain ⟨N, hN⟩ := h.leads.enough (run_none_of_idle hidle)
  refine ⟨N, fun n hn => ?_⟩
  simp only [State.call, h.enter, Option.bind_some, hN n hn, if_pos hidle]

theorem call_eq {op : Op V} {u t' : State V} {n : Nat} (henter : step s (op.act s.mem.fresh) = some u)
    (hl : Leads (fun s => step s (.run 0)) u t) (ht : step t (.run 0) = none)
    (hc : s.call n op = some t') : t' = t ∧ t'.pc 0 = .idle := by
  simp only [State.call, henter, Option.bind_some] at hc
  split at hc
  · rename_i hidle
    cases hc
    exact ⟨hl.stop_unique ht (run_none_of_idle hidle), hidle⟩
  · cases hc

/-- A call does what `fifo` does, or the guards have no capacity and it panics on a value it took. -/
theorem Rest.first {q : List V} (hR : Rest s q) (op : Op V) (ops : List (Op V)) :
    (∃ r q' u t, Returns s op r q' u t ∧ fifo q (op :: ops) = r :: fifo q' ops ∧
      (s.mem.popGuard.cap ≠ 0 ∨ takesNone q (op :: ops) = takesNone q' ops)) ∨
    (s.mem.popGuard.cap = 0 ∧ takesNone q (op :: ops) = false ∧ ∃ u t, step s (op.act s.mem.fresh) = some u ∧
      Leads (fun s => step s (.run 0)) u t ∧ t.pc 0 = .panicked .refill) := by
  cases op with
  | push v =>
    obtain ⟨u, t, hret⟩ := hR.push v
    exact .inl ⟨_, _, u, t, hret, rfl, .inr (by cases q <;> simp [takesNone, popsAfterPush, Op.isTryPop])⟩
  | isEmpty =>
    obtain ⟨u, t, hret⟩ := hR.isEmpty
    exact .inl ⟨_, _, u, t, hret, by simp [fifo],
      .inr (by cases q <;> simp [takesNone, popsAfterPush, Op.isTryPop])⟩
  | tryPop =>
    cases q with
    | nil =>
      obtain ⟨u, t, hret⟩ := hR.tryPop_nil
      exact .inl ⟨_, _, u, t, hret, rfl, .inr (by simp [takesNone, popsAfterPush])⟩
    | cons v q =>
      by_cases hcap : s.mem.popGuard.cap = 0
      · exact .inr ⟨hcap, by simp [takesNone, Op.isTryPop], hR.tryPop_panics hcap⟩
      · obtain ⟨u, t, hret⟩ := hR.tryPop_cons hcap
        exact .inl ⟨_, _, u, t, hret, rfl, .inl hcap⟩

/-- With capacity in the guards, or if no value is taken, all calls return; what holds of no calls and is
passed on by one that returns holds of all of them. -/
theorem Rest.calls_rec {P : State V → List V → List (Op V) → State V → Prop} {q : List V} {ops : List (Op V)}
    (nil : ∀ s q, Rest s q → P s q [] s)
    (cons : ∀ s q op ops r q' u t w, Rest s q → Returns s op r q' u t →
      fifo q (op :: ops) = r :: fifo q' ops → P t q' ops w → P s q (op :: ops) w)
    (hR : Rest s q) (h : s.mem.popGuard.cap ≠ 0 ∨ takesNone q ops = true) :
    ∃ t, P s q ops t ∧ ∃ N, ∀ n, N ≤ n → s.calls n ops = some t := by
  induction ops generalizing s q with
  | nil => exact ⟨s, nil s q hR, 0, fun _ _ => rfl⟩
  | cons op ops ih =>
    rcases hR.first op ops with ⟨r, q', u, t, hret, hfifo, htake⟩ | ⟨hcap, htake, -⟩
    · have h' : t.mem.popGuard.cap ≠ 0 ∨ takesNone q' ops = true := by
        rw [hret.cap]
        rcases htake with hcap | htake
        · exact .inl hcap
        · rw [← htake]; exact h
      obtain ⟨N₁, h₁⟩ := hret.call
      obtain ⟨w, hw, N₂, h₂⟩ := ih hret.rest h'
      refine ⟨w, cons s q op ops r q' u t w hR hret hfifo hw, max N₁ N₂, fun n hn => ?_⟩
      simp only [State.calls, h₁ n (by omega), Option.bind_some]
      exact h₂ n (by omega)
    · rcases h with h | h
      · exact absurd hcap h
      · rw [htake] at h; cases h

theorem Rest.calls {q : List V} {ops : List (Op V)} (hR : Rest s q)
    (h : s.mem.popGuard.cap ≠ 0 ∨ takesNone q ops = true) :
    ∃ t, t.hist.returns.map (fun r => r.2.res) = s.hist.returns.map (fun r => r.2.res) ++ fifo q ops ∧
      ∃ N, ∀ n, N ≤ n → s.calls n ops = some t := by
  refine hR.calls_rec (P := fun s q ops t =>
    t.hist.returns.map (fun r => r.2.res) = s.hist.returns.map (fun r => r.2.res) ++ fifo q ops) ?_ ?_ h
  · intro s q _
    exact (List.append_nil _).symm
  · intro s q op ops r q' u t w _ hret hfifo hw
    rw [hw, hret.returned, hfifo, List.append_assoc]; rfl

theorem Rest.calls_none {q : List V} {ops : List (Op V)} (hR : Rest s q)
    (hcap : s.mem.popGuard.cap = 0) (h : takesNone q ops = false) (n : Nat) : s.calls n ops = none := by
  induction ops generalizing s q with
  | nil => cases q <;> cases h
  | cons op ops ih =>
    cases hc : s.call n op with
    | none => simp only [State.calls, hc, Option.bind_none]
    | some t' =>
      simp only [State.calls, hc, Option.bind_some]
      rcases hR.first op ops with ⟨r, q', u, t, hret, -, htake⟩ | ⟨-, -, u, t, henter, hl, hpc⟩
      · obtain ⟨rfl, -⟩ := call_eq hret.enter hret.leads (run_none_of_idle (hret.rest.idle 0)) hc
        refine ih hret.rest (hret.cap.trans hcap) ?_
        rw [← htake.resolve_left (not_not_intro hcap)]; exact h
      · have hstop : step t (.run 0) = none := by simp only [step, hpc, stepPc, Option.map_none]
        obtain ⟨rfl, hidle⟩ := call_eq henter hl hstop hc
        cases hpc.symm.trans hidle

theorem results_eq_fifo {ops : List (Op V)} (h : threads ≠ 0 ∨ popsAfterPush ops = false) :
    ∃ N, ∀ n, N ≤ n → results n threads ops = some (fifo [] ops) := by
  have hcap : (State.init (V := V) threads).mem.popGuard.cap ≠ 0 ∨ takesNone [] ops = true :=
    h.imp_right fun h => by simp [takesNone, h]
  obtain ⟨t, hres, N, hN⟩ := (rest_init threads).calls hcap
  refine ⟨N, fun n hn => ?_⟩
  rw [results, hN n hn, Option.map_some, hres]; rfl

theorem results_zero {ops : List (Op V)} (h : popsAfterPush ops = true) (n : Nat) :
    results n 0 ops = none := by
  rw [results, (rest_init (V := V) 0).calls_none rfl (by simp [takesNone, h]) n]; rfl

/-- Two queues give the same results in a sequential run, and none of them panics, exactly when both
have room in their guards or no `try_pop` of the run comes after a `push`. -/
theorem same_results_iff (t₁ t₂ : Nat) (ops : List (Op V)) :
    (∃ N, ∀ n, N ≤ n → ∃ rs, results n t₁ ops = some rs ∧ results n t₂ ops = some rs) ↔
      (t₁ ≠ 0 ∧ t₂ ≠ 0) ∨ popsAfterPush ops = false := by
  constructor
  · rintro ⟨N, hN⟩
    obtain ⟨rs, h₁, h₂⟩ := hN N (Nat.le_refl N)
    by_contra hno
    rw [not_or, Bool.not_eq_false, not_and_or, not_not, not_not] at hno
    obtain ⟨rfl | rfl, hp⟩ := hno
    · rw [results_zero hp] at h₁; cases h₁
    · rw [results_zero hp] at h₂; cases h₂
  · intro h
    obtain ⟨N₁, h₁⟩ := results_eq_fifo (h.imp_left And.left)
    obtain ⟨N₂, h₂⟩ := results_eq_fifo (h.imp_left And.right)
    exact ⟨max N₁ N₂, fun n hn => ⟨_, h₁ n (by omega), h₂ n (by omega)⟩⟩

/-- A queue for no threads panics on its first value, one for four threads returns it. -/
theorem zero_threads_differ :
    ¬ ∀ (t₁ t₂ : Nat) (ops : List (Op Nat)),
      ∃ N, ∀ n, N ≤ n → ∃ rs, results n t₁ ops = some rs ∧ results n t₂ ops = some rs := by
  intro h
  obtain ⟨N, hN⟩ := h 4 0 [.push 10, .tryPop]
  obtain ⟨rs, -, h₂⟩ := hN N (Nat.le_refl N)
  rw [results_zero rfl] at h₂
  cases h₂

end

end CoQueue.Shift
