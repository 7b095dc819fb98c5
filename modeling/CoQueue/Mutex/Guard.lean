import CoQueue.Mutex.Exclusion
import CoQueue.Mutex.TryLock

/-!
# The guards of a `Mootex` (`mutex/mod.rs`)

`SmallMutex::lock` returns a `MutexGuard` when `RawMutex::lock` has returned. Both `map`s forget the guard
they are given and make a `MapMutexGuard`. `MutexGuard` has a `Drop` that calls `unlock`; `MapMutexGuard`
has none. So dropping the guard releases the mutex as long as it was not mapped, and after a `map` the
mutex is never released: the thread keeps it for good (`Lost`) and no `lock` returns again.

The system is the one of `RawMutex` with the guards its threads have; a thread calls `unlock` through a
guard only, which is what makes every thread unlock only what it holds. `Chain` counts, for the guard
that a thread has got of a mutex last, the calls of `map` and of `unlock` since. A guard's pointer to the
data plays no part in this and is left out.
-/

namespace CoQueue.Mutex

open Schedule

variable {s t : State} {i j : Tid} {key k : Key}

/-! ### Guards -/

inductive Guard
  /-- `MutexGuard`. -/
  | mutex
  /-- `MapMutexGuard`. -/
  | mapped
deriving DecidableEq

/-- `MutexGuard::map` and `MapMutexGuard::map`. -/
def Guard.map : Guard → Guard
  | .mutex => .mapped
  | .mapped => .mapped

structure Chain where
  guard : Option Guard
  maps : Nat
  unlocks : Nat

structure Guarded where
  raw : State
  chain : Tid → Key → Chain

def Guarded.init : Guarded := ⟨.init, fun _ _ => ⟨none, 0, 0⟩⟩

def Guarded.setChain (g : Guarded) (i : Tid) (key : Key) (c : Chain) : Guarded :=
  { g with chain := Function.update g.chain i (Function.update (g.chain i) key c) }

/-- The mutex whose `lock` the thread is in. -/
def Pc.locking : Pc → Option Key
  | .lockFast k | .slowLoad k _ | .slowBarge k _ _ | .slowMark k _ _ | .slowPark k _ | .asleep k _ => some k
  | _ => none

/-- In this step `RawMutex::lock` returns. -/
def Returns (s : State) (i : Tid) (key : Key) (t : State) : Prop :=
  (s.pc i).locking = some key ∧ t.pc i = .idle

inductive GuardAct
  | lock (i : Tid) (key : Key)
  | map (i : Tid) (key : Key)
  | drop (i : Tid) (key : Key)
  | run (i : Tid) (spurious fair : Bool)
  | grow (numThreads : Nat)

def guardStep (g : Guarded) : GuardAct → Option Guarded
  | .lock i key => (step g.raw (.lock i key)).map fun t => { g with raw := t }
  | .map i key =>
    match (g.chain i key).guard with
    | some x =>
      if g.raw.pc i = .idle then
        some (g.setChain i key ⟨some x.map, (g.chain i key).maps + 1, (g.chain i key).unlocks⟩)
      else none
    | none => none
  | .drop i key =>
    match (g.chain i key).guard with
    -- `self.mutex.raw.unlock()`
    | some .mutex => (step g.raw (.unlock i key)).map fun t =>
        { g with raw := t }.setChain i key ⟨none, (g.chain i key).maps, (g.chain i key).unlocks + 1⟩
    | some .mapped =>
      if g.raw.pc i = .idle then
        some (g.setChain i key ⟨none, (g.chain i key).maps, (g.chain i key).unlocks⟩)
      else none
    | none => none
  -- `lock` makes the guard when `RawMutex::lock` returns
  | .run i spurious fair => (step g.raw (.run i spurious fair)).map fun t =>
      match (g.raw.pc i).locking with
      | some key =>
        if t.pc i = .idle then { g with raw := t }.setChain i key ⟨some .mutex, 0, 0⟩ else { g with raw := t }
      | none => { g with raw := t }
  | .grow n => (step g.raw (.grow n)).map fun t => { g with raw := t }

/-- A call of `lock` can still return. -/
def Relockable (g : Guarded) (key : Key) : Prop :=
  ∃ u v i spurious fair, Run guardStep Any g u ∧ guardStep u (.run i spurious fair) = some v ∧
    Returns u.raw i key v.raw

/-- Dropping the guard that thread `i` has of the mutex calls `unlock`, which nobody has done before on
behalf of this guard, and makes the mutex available. -/
structure ReleasedOnce (g g' : Guarded) (i : Tid) (key : Key) : Prop where
  before : (g.chain i key).unlocks = 0
  after : (g'.chain i key).unlocks = 1
  relock : Relockable g' key

/-! ### What a step does to the resources of the threads -/

theorem resources_unparkOne (key : Key) (fair : Bool) (j : Tid) :
    ((s.unparkOne key fair).thread j).resources = (s.thread j).resources := by
  unfold State.unparkOne
  dsimp only
  split
  · rename_i l more rest _
    simp only [State.setWord, State.setThread, Function.update_apply]
    split
    · subst j; rfl
    · rfl
  · rfl

theorem slowLoop_ne_idle (k : Key) (w : Nat) (st : UInt8) : slowLoop k w st ≠ .idle := by
  intro h
  have := (slowLoop_cases k w st).2.2
  rw [h] at this
  cases this

/-- `lock` returns with the mutex among the resources of the thread; no other step changes them. -/
theorem run_resources {spurious fair : Bool} (htry : (s.pc i).trying = false)
    (hs : step s (.run i spurious fair) = some t) :
    (∃ key, Returns s i key t ∧ t.thread = Function.update s.thread i ((s.thread i).acquireResource key)) ∨
      ((∀ key, ¬Returns s i key t) ∧ ∀ j, (t.thread j).resources = (s.thread j).resources) := by
  have hgo : ∀ {u : State} {pc : Pc}, pc ≠ .idle → ∀ key, ¬Returns s i key (u.goto i pc) := by
    rintro u pc hne key ⟨-, hidle⟩
    exact hne ((Function.update_self ..).symm.trans hidle)
  simp only [step] at hs
  cases hpc : s.pc i <;> rw [hpc] at hs htry <;> simp only [stepPc] at hs
  case idle => cases hs
  case lockFast k =>
    split at hs <;> cases hs
    · exact .inl ⟨k, ⟨by rw [hpc]; rfl, Function.update_self ..⟩, rfl⟩
    · exact .inr ⟨hgo (by rintro ⟨⟩), fun _ => rfl⟩
  case slowLoad k w => cases hs; exact .inr ⟨hgo (slowLoop_ne_idle _ _ _), fun _ => rfl⟩
  case slowBarge k w st =>
    split at hs <;> cases hs
    · exact .inl ⟨k, ⟨by rw [hpc]; rfl, Function.update_self ..⟩, rfl⟩
    · exact .inr ⟨hgo (slowLoop_ne_idle _ _ _), fun _ => rfl⟩
  case slowMark k w st =>
    split at hs <;> cases hs
    · exact .inr ⟨hgo (by rintro ⟨⟩), fun _ => rfl⟩
    · exact .inr ⟨hgo (slowLoop_ne_idle _ _ _), fun _ => rfl⟩
  case slowPark k w =>
    cases hs
    unfold State.park
    split
    · refine .inr ⟨hgo (by rintro ⟨⟩), fun j => ?_⟩
      simp only [State.goto, State.setThread, Function.update_apply]
      split
      · subst j; rfl
      · rfl
    · exact .inr ⟨hgo (by rintro ⟨⟩), fun _ => rfl⟩
  case asleep k w =>
    split at hs
    · cases hs
    · split at hs <;> cases hs
      · exact .inl ⟨k, ⟨by rw [hpc]; rfl, Function.update_self ..⟩, rfl⟩
      · exact .inr ⟨hgo (by rintro ⟨⟩), fun _ => rfl⟩
  case unlockFast k =>
    refine .inr ⟨fun key h => ?_, fun j => ?_⟩
    · rw [Returns, hpc] at h; cases h.1
    · split at hs <;> cases hs <;> rfl
  case unlockSlow k =>
    cases hs
    refine .inr ⟨fun key h => ?_, resources_unparkOne k fair⟩
    rw [Returns, hpc] at h; cases h.1
  case tryLoad | tryMark => cases htry

/-! ### A thread has the mutexes it has guards of -/

/-- What is known of the guard of a mutex, with the resources of the thread that has it. -/
structure ChainOk (c : Chain) (key : Key) (resources : List Key) : Prop where
  held : c.guard ≠ none → key ∈ resources
  kind : c.guard ≠ none → (c.guard = some .mutex ↔ c.maps = 0)
  quiet : c.guard ≠ none → c.unlocks = 0

structure Guards (g : Guarded) : Prop where
  queued : Queued g.raw
  owned : Owned g.raw
  chain : ∀ i key, ChainOk (g.chain i key) key (g.raw.thread i).resources

variable {g g' : Guarded} {a : GuardAct} {c : Chain} {resources resources' : List Key}

theorem setChain_chain (g : Guarded) (i j : Tid) (key k : Key) (c : Chain) :
    (g.setChain i key c).chain j k = if j = i ∧ k = key then c else g.chain j k := by
  simp only [Guarded.setChain, Function.update_apply]
  by_cases hj : j = i
  · subst hj; by_cases hk : k = key <;> simp [hk]
  · simp [hj]

theorem ChainOk.none {maps unlocks : Nat} : ChainOk ⟨none, maps, unlocks⟩ key resources :=
  ⟨fun h => absurd rfl h, fun h => absurd rfl h, fun h => absurd rfl h⟩

theorem ChainOk.mono (h : ChainOk c key resources) (hr : key ∈ resources → key ∈ resources') :
    ChainOk c key resources' :=
  ⟨fun hc => hr (h.held hc), h.kind, h.quiet⟩

/-- The kinds of steps there are, with what they do to the resources. -/
inductive GuardMove (g : Guarded) : Guarded → Prop
  | quiet (b : Act) (t : State) (hb : noTry b) (hu : holderUnlocks g.raw b) (hs : step g.raw b = some t)
      (hr : ∀ j, (t.thread j).resources = (g.raw.thread j).resources) : GuardMove g { g with raw := t }
  /-- `lock` returns. -/
  | locked (i : Tid) (key : Key) (b : Act) (t : State) (hb : noTry b) (hu : holderUnlocks g.raw b)
      (hs : step g.raw b = some t)
      (ht : t.thread = Function.update g.raw.thread i ((g.raw.thread i).acquireResource key)) :
      GuardMove g ({ g with raw := t }.setChain i key ⟨some .mutex, 0, 0⟩)
  | map (i : Tid) (key : Key) (x : Guard) (hx : (g.chain i key).guard = some x) :
      GuardMove g (g.setChain i key ⟨some x.map, (g.chain i key).maps + 1, (g.chain i key).unlocks⟩)
  /-- A `MutexGuard` is dropped. -/
  | unlock (i : Tid) (key : Key) (t : State) (hx : (g.chain i key).guard = some .mutex)
      (hs : step g.raw (.unlock i key) = some t)
      (ht : t.thread = Function.update g.raw.thread i ((g.raw.thread i).releaseResource key)) :
      GuardMove g ({ g with raw := t }.setChain i key
        ⟨none, (g.chain i key).maps, (g.chain i key).unlocks + 1⟩)
  /-- A `MapMutexGuard` is dropped. -/
  | forget (i : Tid) (key : Key) (hx : (g.chain i key).guard = some .mapped) :
      GuardMove g (g.setChain i key ⟨none, (g.chain i key).maps, (g.chain i key).unlocks⟩)

theorem unlock_eq (hs : step s (.unlock i key) = some t) :
    s.pc i = .idle ∧
      t = (s.goto i (.unlockFast key)).setThread i ((s.thread i).releaseResource key) := by
  obtain ⟨u, hu, rfl⟩ := Option.map_eq_some_iff.1 hs
  obtain ⟨hpc, rfl⟩ := enter_eq hu
  exact ⟨hpc, rfl⟩

theorem run_move {spurious fair : Bool} (htry : (g.raw.pc i).trying = false)
    (hs : step g.raw (.run i spurious fair) = some t) :
    GuardMove g (match (g.raw.pc i).locking with
      | some key =>
        if t.pc i = .idle then { g with raw := t }.setChain i key ⟨some .mutex, 0, 0⟩ else { g with raw := t }
      | none => { g with raw := t }) := by
  rcases run_resources htry hs with ⟨key, ⟨hkey, hidle⟩, ht⟩ | ⟨hno, hr⟩
  · rw [hkey]
    simp only [if_pos hidle]
    exact .locked i key (.run i spurious fair) t trivial trivial hs ht
  · have hquiet : GuardMove g { g with raw := t } := .quiet (.run i spurious fair) t trivial trivial hs hr
    split
    · rename_i key hkey
      rw [if_neg fun hidle => hno key ⟨hkey, hidle⟩]
      exact hquiet
    · exact hquiet

theorem move_of_guardStep (htry : ∀ i, (g.raw.pc i).trying = false) (hs : guardStep g a = some g') :
    GuardMove g g' := by
  cases a with
  | lock i key =>
    obtain ⟨t, ht, rfl⟩ := Option.map_eq_some_iff.1 hs
    obtain ⟨-, rfl⟩ := enter_eq ht
    exact .quiet (.lock i key) _ trivial trivial ht fun _ => rfl
  | map i key =>
    simp only [guardStep] at hs
    split at hs
    · split at hs <;> cases hs
      exact .map i key _ ‹_›
    · cases hs
  | drop i key =>
    simp only [guardStep] at hs
    split at hs
    · rename_i hx
      obtain ⟨t, ht, rfl⟩ := Option.map_eq_some_iff.1 hs
      exact .unlock i key t hx ht (by rw [(unlock_eq ht).2]; rfl)
    · split at hs <;> cases hs
      exact .forget i key ‹_›
    · cases hs
  | run i spurious fair =>
    obtain ⟨t, ht, rfl⟩ := Option.map_eq_some_iff.1 hs
    exact run_move (htry i) ht
  | grow n =>
    cases hs
    exact .quiet (.grow n) _ trivial trivial rfl fun _ => rfl

theorem Guards.change {b : Act} (h : Guards g) (hb : noTry b) (hu : holderUnlocks g.raw b)
    (hs : step g.raw b = some t) (hr : ∀ j, (t.thread j).resources = (g.raw.thread j).resources) :
    Guards { g with raw := t } := by
  have hm := h.owned.move_of_step h.queued hu hb hs
  exact ⟨h.queued.move hm, h.owned.move h.queued hm, fun j k => by rw [hr]; exact h.chain j k⟩

theorem Guards.put {b : Act} (h : Guards g) (hb : noTry b) (hu : holderUnlocks g.raw b)
    (hs : step g.raw b = some t) (hc : ChainOk c key (t.thread i).resources)
    (hr : ∀ j k, ¬(j = i ∧ k = key) → k ∈ (g.raw.thread j).resources → k ∈ (t.thread j).resources) :
    Guards ({ g with raw := t }.setChain i key c) := by
  have hm := h.owned.move_of_step h.queued hu hb hs
  refine ⟨h.queued.move hm, h.owned.move h.queued hm, fun j k => ?_⟩
  rw [setChain_chain]
  split
  · rename_i heq
    rw [heq.1, heq.2]
    exact hc
  · exact (h.chain j k).mono (hr j k ‹_›)

theorem Guards.set (h : Guards g) (hc : ChainOk c key (g.raw.thread i).resources) :
    Guards (g.setChain i key c) := by
  refine ⟨h.queued, h.owned, fun j k => ?_⟩
  rw [setChain_chain]
  split
  · rename_i heq
    rw [heq.1, heq.2]
    exact hc
  · exact h.chain j k

theorem mem_acquire {d : ThreadData} (h : k ∈ d.resources) : k ∈ (d.acquireResource key).resources :=
  List.mem_append_left _ h

theorem mem_release {d : ThreadData} (h : k ∈ d.resources) (hk : k ≠ key) (hd : key ∈ d.resources) :
    k ∈ (d.releaseResource key).resources :=
  (List.mem_cons.1 ((d.releaseResource_perm hd).subset h)).resolve_left hk

theorem Guards.move (h : Guards g) (hm : GuardMove g g') : Guards g' := by
  cases hm with
  | quiet b t hb hu hs hr => exact h.change hb hu hs hr
  | locked i key b t hb hu hs ht =>
    refine h.put hb hu hs ⟨fun _ => ?_, fun _ => ⟨fun _ => rfl, fun _ => rfl⟩, fun _ => rfl⟩ ?_
    · rw [ht, Function.update_self]
      exact List.mem_append_right _ (List.mem_singleton_self _)
    · intro j k _ hk
      rw [ht, Function.update_apply]
      split
      · subst j; exact mem_acquire hk
      · exact hk
  | map i key x hx =>
    have hne : (g.chain i key).guard ≠ none := by rw [hx]; nofun
    refine h.set ⟨fun _ => (h.chain i key).held hne, fun _ => ?_, fun _ => (h.chain i key).quiet hne⟩
    cases x <;> exact ⟨nofun, nofun⟩
  | unlock i key t hx hs ht =>
    have hheld := (h.chain i key).held (by rw [hx]; nofun)
    refine h.put (b := .unlock i key) trivial hheld hs .none fun j k hjk hk => ?_
    rw [ht, Function.update_apply]
    split
    · rename_i hji
      subst j
      exact mem_release hk (fun heq => hjk ⟨rfl, heq⟩) hheld
    · exact hk
  | forget i key hx => exact h.set .none

theorem guards_init : Guards .init := ⟨queued_init, owned_init, fun _ _ => .none⟩

theorem guards_of_run {C : Guarded → GuardAct → Prop} (h : Run guardStep C .init g) : Guards g :=
  h.invariant guards_init fun _ _ _ hg _ hs => hg.move (move_of_guardStep hg.owned.calls hs)

/-! ### A mutex whose guard was mapped is lost -/

/-- The thread has the mutex and no guard of it. -/
structure Lost (g : Guarded) (i : Tid) (key : Key) : Prop where
  guards : Guards g
  held : key ∈ (g.raw.thread i).resources
  gone : (g.chain i key).guard = none

theorem Guards.not_twice (h : Guards g) (i : Tid) (key : Key) : (g.raw.thread i).resources.count key ≤ 1 := by
  refine Nat.le_trans ?_ ((h.owned.held key).le_one i)
  exact Nat.le_trans (Nat.le_add_right _ _) (Nat.le_add_right _ _)

theorem Guards.unique (h : Guards g) (hi : key ∈ (g.raw.thread i).resources)
    (hj : key ∈ (g.raw.thread j).resources) : i = j :=
  (h.owned.held key).unique (owns_pos.2 (.inl (.inl hi))) (owns_pos.2 (.inl (.inl hj)))

/-- Nobody gets it any more: the thread itself would have it twice. -/
theorem Lost.not_acquired (h : Lost g i key) (hg : Guards g')
    (ht : g'.raw.thread = Function.update g.raw.thread j ((g.raw.thread j).acquireResource key)) : False := by
  have hj : key ∈ (g'.raw.thread j).resources := by
    rw [ht, Function.update_self]
    exact List.mem_append_right _ (List.mem_singleton_self key)
  by_cases hij : i = j
  · subst hij
    have hcount := hg.not_twice i key
    rw [ht, Function.update_self, ThreadData.acquireResource, List.count_append, List.count_singleton_self]
      at hcount
    have := List.count_pos_iff.2 h.held
    omega
  · have hi : key ∈ (g'.raw.thread i).resources := by
      rw [ht, Function.update_of_ne hij]
      exact h.held
    exact hij (hg.unique hi hj)

theorem Lost.move (h : Lost g i key) (hm : GuardMove g g') : Lost g' i key := by
  have hg := h.guards.move hm
  cases hm with
  | quiet b t hb hu hs hr => exact ⟨hg, by rw [hr]; exact h.held, h.gone⟩
  | locked j k b t hb hu hs ht =>
    have hk : k ≠ key := fun hk => h.not_acquired hg (hk ▸ ht)
    refine ⟨hg, ?_, ?_⟩
    · show key ∈ (t.thread i).resources
      rw [ht, Function.update_apply]
      split
      · subst j; exact mem_acquire h.held
      · exact h.held
    · rw [setChain_chain, if_neg fun heq => hk heq.2.symm]
      exact h.gone
  | map j k x hx =>
    refine ⟨hg, h.held, ?_⟩
    rw [setChain_chain, if_neg ?_]
    · exact h.gone
    · rintro ⟨rfl, rfl⟩
      rw [h.gone] at hx
      cases hx
  | unlock j k t hx hs ht =>
    have hne : ¬(i = j ∧ key = k) := by
      rintro ⟨rfl, rfl⟩
      rw [h.gone] at hx
      cases hx
    refine ⟨hg, ?_, ?_⟩
    · show key ∈ (t.thread i).resources
      rw [ht, Function.update_apply]
      split
      · rename_i hij
        subst j
        exact mem_release h.held (fun heq => hne ⟨rfl, heq⟩)
          ((h.guards.chain i k).held (by rw [hx]; nofun))
      · exact h.held
    · rw [setChain_chain, if_neg hne]
      exact h.gone
  | forget j k hx =>
    refine ⟨hg, h.held, ?_⟩
    rw [setChain_chain]
    split
    · rfl
    · exact h.gone

theorem run_raw {spurious fair : Bool} (hs : guardStep g (.run i spurious fair) = some g') :
    step g.raw (.run i spurious fair) = some g'.raw := by
  obtain ⟨t, ht, rfl⟩ := Option.map_eq_some_iff.1 hs
  refine ht.trans (congrArg some ?_)
  split
  · split <;> rfl
  · rfl

theorem Lost.not_relockable (h : Lost g i key) : ¬Relockable g key := by
  rintro ⟨u, v, j, spurious, fair, hrun, hs, hret⟩
  have hu : Lost u i key := hrun.invariant (P := fun u => Lost u i key) h fun _ _ _ hl _ hs =>
    hl.move (move_of_guardStep hl.guards.owned.calls hs)
  have htry := hu.guards.owned.calls
  have hv := hu.guards.move (move_of_guardStep htry hs)
  rcases run_resources (htry j) (run_raw hs) with ⟨k, hk, ht⟩ | ⟨hno, -⟩
  · obtain rfl : k = key := Option.some.inj (hk.1.symm.trans hret.1)
    exact hu.not_acquired hv ht
  · exact hno key hret

/-! ### A guard that was not mapped gives the mutex back -/

/-- `unlock` returns on the steps of its own thread, with the mutex unlocked if nobody is handed it. -/
theorem unlock_returns (hpc : s.pc i = .unlockFast key) :
    ∃ t, Run step (fun _ a => a = .run i false false) s t ∧ t.pc i = .idle ∧
      locked (t.word key) = false := by
  by_cases hw : s.word key = lockedBit
  · have h1 : step s (.run i false false) = some ((s.setWord key 0).goto i .idle) := by
      simp [step, hpc, stepPc, hw]
    refine ⟨(s.setWord key 0).goto i .idle, .single rfl h1, Function.update_self .., ?_⟩
    simp only [State.goto, State.setWord, Function.update_self]
    decide
  · have h1 : step s (.run i false false) = some (s.goto i (.unlockSlow key)) := by
      simp [step, hpc, stepPc, hw]
    have h2 : step (s.goto i (.unlockSlow key)) (.run i false false) =
        some (((s.goto i (.unlockSlow key)).unparkOne key false).goto i .idle) := by
      simp [step, State.goto, stepPc]
    refine ⟨((s.goto i (.unlockSlow key)).unparkOne key false).goto i .idle,
      .tail (.single rfl h1) rfl h2, Function.update_self .., ?_⟩
    show locked (((s.goto i (.unlockSlow key)).unparkOne key false).word key) = false
    unfold State.unparkOne
    dsimp only
    split
    · rw [State.setWord, unlockCallback_unfair]
      simp only [Function.update_self]
      split <;> decide
    · simp only [State.setWord, unlockCallback_unfair, Function.update_self]
      decide

theorem lift_step {b : Act} (hb : (∃ i key, b = .lock i key) ∨ ∃ i spurious fair, b = .run i spurious fair)
    (hs : step g.raw b = some t) : ∃ a g', guardStep g a = some g' ∧ g'.raw = t := by
  rcases hb with ⟨i, key, rfl⟩ | ⟨i, spurious, fair, rfl⟩
  · exact ⟨.lock i key, { g with raw := t }, by simp [guardStep, hs], rfl⟩
  · obtain ⟨g', hg'⟩ : ∃ g', guardStep g (.run i spurious fair) = some g' := by
      rw [guardStep, hs]
      exact ⟨_, rfl⟩
    exact ⟨_, g', hg', Option.some.inj ((run_raw hg').symm.trans hs)⟩

theorem lift_run {C : State → Act → Prop}
    (hC : ∀ s b, C s b → (∃ i key, b = .lock i key) ∨ ∃ i spurious fair, b = .run i spurious fair)
    (h : Run step C g.raw t) : ∃ g', Run guardStep Any g g' ∧ g'.raw = t := by
  induction h with
  | refl => exact ⟨g, .refl, rfl⟩
  | tail _ hb hs ih =>
    obtain ⟨g₁, hrun, rfl⟩ := ih
    obtain ⟨a, g₂, ha, rfl⟩ := lift_step (hC _ _ hb) hs
    exact ⟨g₂, hrun.tail trivial ha, rfl⟩

theorem relockable_of_unlocking (hpc : g.raw.pc i = .unlockFast key) : Relockable g key := by
  obtain ⟨t, hrun, hidle, hw⟩ := unlock_returns hpc
  obtain ⟨u, v, hrun', hbarge, hs, hidle', -⟩ := lock_of_unlocked hidle hw
  obtain ⟨g₁, h₁, rfl⟩ := lift_run (fun _ _ hb => .inr ⟨_, _, _, hb⟩) hrun
  obtain ⟨g₂, h₂, rfl⟩ := lift_run
    (fun _ b hb => hb.imp (fun h => ⟨_, _, h⟩) fun ⟨spurious, h⟩ => ⟨_, spurious, _, h⟩) hrun'
  obtain ⟨g₃, h₃⟩ : ∃ g₃, guardStep g₂ (.run i false false) = some g₃ := by
    rw [guardStep, hs]
    exact ⟨_, rfl⟩
  obtain rfl : g₃.raw = v := Option.some.inj ((run_raw h₃).symm.trans hs)
  exact ⟨g₂, g₃, i, false, false, h₁.trans h₂, h₃, by rw [hbarge]; rfl, hidle'⟩

theorem Guards.drop_mutex (h : Guards g) (hx : (g.chain i key).guard = some .mutex)
    (hidle : g.raw.pc i = .idle) :
    ∃ g', guardStep g (.drop i key) = some g' ∧ ReleasedOnce g g' i key := by
  have hs : step g.raw (.unlock i key) =
      some ((g.raw.goto i (.unlockFast key)).setThread i ((g.raw.thread i).releaseResource key)) := by
    simp [step, State.enter, hidle]
  have hquiet := (h.chain i key).quiet (by rw [hx]; exact Option.some_ne_none _)
  refine ⟨_, by simp only [guardStep, hx, hs, Option.map_some]; rfl, hquiet, ?_, ?_⟩
  · rw [setChain_chain, if_pos ⟨rfl, rfl⟩, hquiet]
  · exact relockable_of_unlocking (i := i) (Function.update_self ..)

theorem Guards.drop_mapped (h : Guards g) (hx : (g.chain i key).guard = some .mapped)
    (hs : guardStep g (.drop i key) = some g') : Lost g' i key := by
  have hheld := (h.chain i key).held (by rw [hx]; nofun)
  simp only [guardStep, hx] at hs
  split at hs <;> cases hs
  refine ⟨h.set .none, hheld, ?_⟩
  rw [setChain_chain, if_pos ⟨rfl, rfl⟩]

/-- Whenever a thread drops a guard, the drop calls `unlock`, once, and the mutex can be locked again
exactly when the guard was never mapped. -/
theorem drop_unlocks_iff (h : Run guardStep Any .init g) (hx : (g.chain i key).guard ≠ none)
    (hidle : g.raw.pc i = .idle) :
    (∃ g', guardStep g (.drop i key) = some g' ∧ ReleasedOnce g g' i key) ↔ (g.chain i key).maps = 0 := by
  have hg := guards_of_run h
  rw [← (hg.chain i key).kind hx]
  constructor
  · rintro ⟨g', hs, hrel⟩
    obtain ⟨x, hx⟩ := Option.ne_none_iff_exists'.1 hx
    cases x with
    | mutex => exact hx
    | mapped => exact absurd hrel.relock (hg.drop_mapped hx hs).not_relockable
  · intro hmutex
    exact hg.drop_mutex hmutex hidle

/-- Thread 0 locks the mutex at address 8. -/
def guardSchedule : List GuardAct := [.lock 0 8, .run 0 false false]

theorem fresh_guard_drop_unlocks_iff : ∃ g, Run guardStep Any .init g ∧ (g.chain 0 8).guard ≠ none ∧
    g.raw.pc 0 = .idle ∧
    ((∃ g', guardStep g (.drop 0 8) = some g' ∧ ReleasedOnce g g' 0 8) ↔ (g.chain 0 8).maps = 0) := by
  have hexec : (exec guardStep Any .init guardSchedule).map
      (fun g => ((g.chain 0 8).guard, g.raw.pc 0)) = some (some .mutex, .idle) := by decide
  obtain ⟨g, hrun, hg⟩ := Run.of_exec_map hexec
  rw [Prod.mk.injEq] at hg
  have hx : (g.chain 0 8).guard ≠ none := by rw [hg.1]; nofun
  exact ⟨g, hrun, hx, hg.2, drop_unlocks_iff hrun hx hg.2⟩

/-- The guard is mapped once: its drop leaves the mutex locked for good. -/
theorem mapped_guard_keeps_lock : ∃ g, Run guardStep Any .init g ∧ (g.chain 0 8).guard ≠ none ∧
    g.raw.pc 0 = .idle ∧ ¬∃ g', guardStep g (.drop 0 8) = some g' ∧ ReleasedOnce g g' 0 8 := by
  have hexec : (exec guardStep Any .init (guardSchedule ++ [.map 0 8])).map
      (fun g => ((g.chain 0 8).guard, g.raw.pc 0)) = some (some .mapped, .idle) := by decide
  obtain ⟨g, hrun, hg⟩ := Run.of_exec_map hexec
  rw [Prod.mk.injEq] at hg
  refine ⟨g, hrun, by rw [hg.1]; nofun, hg.2, ?_⟩
  rintro ⟨g', hs, hrel⟩
  exact ((guards_of_run hrun).drop_mapped hg.1 hs).not_relockable hrel.relock

end CoQueue.Mutex
