import CoQueue.Lib.Path
import CoQueue.Shift.RawQueue

/-!
# The chain invariant of orderly runs

A step is `orderly` when it is not one of the two places where `_push` leaves its common path
because of another push: finding `tail.next` set at its first look (the half-finished insert that it
"helps" by moving `tail` to its own unlinked node), and losing the `compare_set` on `tail.next` (after
which the node goes to `push_guard` although its own push will try it again). Pushes may still
overlap in every other way.

`Inv s` is what orderly runs keep, as long as no address is given out twice. The dummy and the linked
nodes form one chain (`path`), `head` is the last node claimed, `tail` is the last node linked except
while the one thread that linked it has yet to swing `tail` (`swing`), and nobody has loaded that node
as its tail (`seen`). The nodes a thread works with were on the chain when it read them (`Ok`), and the
chain only ever grows behind them, so no step of another thread touches what `Ok` says.
-/

namespace CoQueue.Shift

open Linked Schedule

section
variable {V : Type}

/-- The step is not the help path of `_push` and not a failing `compare_set` on `tail.next`. -/
def orderly (s : State V) : Act V → Bool
  | .run i =>
    match s.pc i with
    | .loadNext _ tail | .link _ tail => (s.mem.next tail).isNone
    | _ => true
  | _ => true

def Hist.nodes (h : Hist V) : List Addr := 0 :: h.linked

def Hist.passed (h : Hist V) : List Addr := 0 :: h.claims

/-- What a thread may rely on at each program point. -/
def Ok (m : Mem V) (h : Hist V) : Pc → Prop
  | .helpTail _ _ | .stashLen _ _ | .stashWrite _ _ | .stashCas _ _ | .stealCas _ _ _
  | .stealRead _ _ _ | .stolenCheck _ _ _ | .stolenNext _ _ _ | .stolenLink _ _ _ _
  | .stolenSwing _ _ _ | .undefined => False
  | .panicked site => site = .refill
  | .loadNext _ t | .isEmpty _ t | .recheck _ t | .link _ t | .lockPush _ t | .stealLen _ t =>
    t ∈ h.nodes
  | .headNext a | .emptyNext a => a ∈ h.passed
  | .casHead a b => a ∈ h.passed ∧ m.next a = some b
  | .retireLen a b | .retireWrite a b _ | .retireCas a b _ | .lockPop a b | .sweepLen a b
  | .sweepCas a b _ | .sweepRead a b _ | .refillLen a b | .refillWrite a b _ | .refillCas a b _ =>
    a ∈ h.passed.dropLast ∧ b ∈ h.claims
  | .unlockPop b | .readData b => b ∈ h.claims
  | _ => True

structure Inv (s : State V) : Prop where
  path : Path s.mem.next (some 0) s.hist.nodes
  born : ∀ a ∈ s.hist.nodes, a ∈ s.mem.born
  unborn : ∀ a, a ∉ s.mem.born → s.mem.next a = none
  data : ∀ a, 0 < a → a ∈ s.mem.born → (s.mem.data a).isSome
  claims : s.hist.claims <+: s.hist.linked
  head : s.hist.passed.getLast? = some s.mem.head
  guard : s.mem.pushGuard.len = 0
  ok : ∀ i, Ok s.mem s.hist (s.pc i)
  /-- A node on its way in is allocated, on nobody else's way in, and not linked yet. -/
  new : ∀ i a, (s.pc i).new = some a → a ∈ s.mem.born ∧ a ∉ s.hist.nodes ∧ s.mem.next a = none
  new_inj : ∀ i j a, (s.pc i).new = some a → (s.pc j).new = some a → i = j
  tail_mem : s.mem.tail ∈ s.hist.nodes
  tail_last : (∀ i a t, s.pc i ≠ .swing a t) → s.hist.nodes.getLast? = some s.mem.tail
  swing : ∀ i a t, s.pc i = .swing a t →
    t = s.mem.tail ∧ s.hist.nodes.getLast? = some a ∧ a ∈ s.hist.linked ∧ a ≠ t
  swing_inj : ∀ i j a b t u, s.pc i = .swing a t → s.pc j = .swing b u → i = j
  seen : ∀ i t, (s.pc i).tail = some t → ∀ j a u, s.pc j = .swing a u → a ≠ t
  /-- A claimed value is returned at most once, by the thread that claimed it. -/
  taking : ∀ i a, (s.pc i).taking = some a → a ∉ s.hist.popped.map Prod.fst
  taking_inj : ∀ i j a, (s.pc i).taking = some a → (s.pc j).taking = some a → i = j
  popped : ∀ p ∈ s.hist.popped, p.1 ∈ s.hist.claims ∧ s.mem.data p.1 = some p.2
  popped_nodup : (s.hist.popped.map Prod.fst).Nodup
  pushed : ∀ a ∈ s.hist.pushed, a ∈ s.hist.linked

/-! ### How `Ok` survives the steps of other threads -/

/-- The chain has grown: old links and old entries of the log are still there. -/
structure Ext (m : Mem V) (h : Hist V) (m' : Mem V) (h' : Hist V) : Prop where
  next : ∀ a b, m.next a = some b → m'.next a = some b
  linked : h.linked <+: h'.linked
  claims : h.claims <+: h'.claims

variable {s : State V} {m m' : Mem V} {h h' : Hist V} {i : Tid}

theorem Ext.nodes_subset (e : Ext m h m' h') : h.nodes ⊆ h'.nodes :=
  List.cons_subset_cons 0 e.linked.subset

theorem Ext.passed_mono (e : Ext m h m' h') : h.passed <+: h'.passed :=
  List.cons_prefix_cons.2 ⟨rfl, e.claims⟩

theorem subset_dropLast {l l' : List Addr} (h : l <+: l') : l.dropLast ⊆ l'.dropLast := by
  obtain ⟨r, rfl⟩ := h
  rcases List.eq_nil_or_concat r with rfl | ⟨r, x, rfl⟩
  · rw [List.append_nil]; exact List.Subset.refl _
  · rw [List.concat_eq_append, ← List.append_assoc, List.dropLast_concat]
    exact fun a ha => List.mem_append_left _ ((List.dropLast_sublist _).subset ha)

theorem Ext.dropLast_subset (e : Ext m h m' h') : h.passed.dropLast ⊆ h'.passed.dropLast :=
  subset_dropLast e.passed_mono

theorem Ok.ext {pc : Pc} (e : Ext m h m' h') (hok : Ok m h pc) : Ok m' h' pc := by
  cases pc <;> simp only [Ok] at hok ⊢ <;> try exact hok
  all_goals first
    | exact e.nodes_subset hok
    | exact e.passed_mono.subset hok
    | exact e.claims.subset hok
    | exact ⟨e.passed_mono.subset hok.1, e.next _ _ hok.2⟩
    | exact ⟨e.dropLast_subset hok.1, e.claims.subset hok.2⟩

/-! ### One lemma per kind of step -/

def Mem.core (m : Mem V) := (m.next, m.data, m.born, m.head, m.tail, m.pushGuard.len)

/-- `pc'` continues `pc` without linking, claiming or returning a node. -/
structure Follows (m : Mem V) (pc pc' : Pc) : Prop where
  new : ∀ a, pc'.new = some a → pc.new = some a
  taking : ∀ a, pc'.taking = some a → pc.taking = some a
  tail : ∀ t, pc'.tail = some t → pc.tail = some t ∨ t = m.tail
  swing : ∀ a t, pc ≠ .swing a t
  swing' : ∀ a t, pc' ≠ .swing a t

/-- The thread has linked its node and has yet to move `tail`. -/
def Pc.swings : Pc → Bool
  | .swing _ _ => true
  | _ => false

theorem Follows.of_eq {pc pc' : Pc} (hnew : pc'.new = pc.new)
    (htak : pc'.taking = pc.taking ∨ pc'.taking = none)
    (htail : pc'.tail = pc.tail ∨ pc'.tail = none ∨ pc'.tail = some m.tail)
    (hsw : pc.swings = false) (hsw' : pc'.swings = false) : Follows m pc pc' where
  new a ha := hnew ▸ ha
  taking a ha := by
    rcases htak with h | h
    · exact h ▸ ha
    · rw [h] at ha; cases ha
  tail t ht := by
    rcases htail with h | h | h
    · exact .inl (h ▸ ht)
    · rw [h] at ht; cases ht
    · rw [h] at ht; exact .inr (Option.some.inj ht).symm
  swing a t h := by rw [h] at hsw; cases hsw
  swing' a t h := by rw [h] at hsw'; cases hsw'

theorem swing_update {pc' : Pc} {j : Tid} {a t : Addr} (hi : ∀ a t, s.pc i ≠ .swing a t)
    (hi' : ∀ a t, pc' ≠ .swing a t) :
    Function.update s.pc i pc' j = .swing a t ↔ s.pc j = .swing a t := by
  constructor
  · intro hj
    exact (of_update (P := fun q : Pc => q = .swing a t) hj (hi' a t)).2
  · intro hj
    have hji : j ≠ i := by rintro rfl; exact hi a t hj
    rw [Function.update_of_ne hji]
    exact hj

theorem Inv.quiet {pc' : Pc} (hI : Inv s) (hf : Follows s.mem (s.pc i) pc')
    (hok : Ok s.mem s.hist pc') (hm : m'.core = s.mem.core) (hl : h'.linked = s.hist.linked)
    (hc : h'.claims = s.hist.claims) (hpu : h'.pushed = s.hist.pushed)
    (hpo : h'.popped = s.hist.popped) : Inv ⟨m', Function.update s.pc i pc', h'⟩ := by
  simp only [Mem.core, Prod.mk.injEq] at hm
  obtain ⟨hnext, hdata, hborn, hhead, htail, hguard⟩ := hm
  have hnodes : h'.nodes = s.hist.nodes := by simp only [Hist.nodes, hl]
  have hpassed : h'.passed = s.hist.passed := by simp only [Hist.passed, hc]
  have hext : Ext s.mem s.hist m' h' :=
    ⟨fun a b hab => by rw [hnext]; exact hab, hl ▸ List.prefix_rfl, hc ▸ List.prefix_rfl⟩
  have hsw : ∀ j a t, Function.update s.pc i pc' j = .swing a t ↔ s.pc j = .swing a t :=
    fun j a t => swing_update hf.swing hf.swing'
  have hnew : ∀ j a, (Function.update s.pc i pc' j).new = some a → (s.pc j).new = some a := by
    intro j a hj
    rcases at_update (P := fun q : Pc => q.new = some a) hj with ⟨rfl, hj'⟩ | ⟨-, hj'⟩
    · exact hf.new a hj'
    · exact hj'
  have htak : ∀ j a, (Function.update s.pc i pc' j).taking = some a → (s.pc j).taking = some a := by
    intro j a hj
    rcases at_update (P := fun q : Pc => q.taking = some a) hj with ⟨rfl, hj'⟩ | ⟨-, hj'⟩
    · exact hf.taking a hj'
    · exact hj'
  constructor <;> simp only [hnodes, hpassed, hnext, hdata, hborn, hhead, htail, hguard, hl, hc,
    hpu, hpo]
  · exact hI.path
  · exact hI.born
  · exact hI.unborn
  · exact hI.data
  · exact hI.claims
  · exact hI.head
  · exact hI.guard
  · exact (Function.forall_update_iff s.pc _).2
      ⟨hok.ext hext, fun j _ => (hI.ok j).ext hext⟩
  · exact fun j a hj => hI.new j a (hnew j a hj)
  · exact fun j k a hj hk => hI.new_inj j k a (hnew j a hj) (hnew k a hk)
  · exact hI.tail_mem
  · exact fun hno => hI.tail_last fun j a t hj => hno j a t ((hsw j a t).2 hj)
  · exact fun j a t hj => hI.swing j a t ((hsw j a t).1 hj)
  · exact fun j k a b t u hj hk => hI.swing_inj j k a b t u ((hsw j a t).1 hj) ((hsw k b u).1 hk)
  · intro j t hj k a u hk
    have hk' := (hsw k a u).1 hk
    rcases at_update (P := fun q : Pc => q.tail = some t) hj with ⟨rfl, hj'⟩ | ⟨-, hj'⟩
    · rcases hf.tail t hj' with ht | rfl
      · exact hI.seen j t ht k a u hk'
      · obtain ⟨rfl, -, -, hne⟩ := hI.swing k a u hk'
        exact hne
    · exact hI.seen j t hj' k a u hk'
  · exact fun j a hj => hI.taking j a (htak j a hj)
  · exact fun j k a hj hk => hI.taking_inj j k a (htak j a hj) (htak k a hk)
  · exact hI.popped
  · exact hI.popped_nodup
  · exact hI.pushed

theorem Inv.next_alloc {b : Addr} (hI : Inv s) (hb : b ∉ s.mem.born) (val : V) :
    (s.mem.alloc b val).next = s.mem.next :=
  Function.update_eq_self_iff.2 (hI.unborn b hb).symm

theorem Inv.alloc {b : Addr} (hI : Inv s) (hpc : s.pc i = .idle) (hb : b ∉ s.mem.born) (val : V) :
    Inv ⟨s.mem.alloc b val, Function.update s.pc i (.loadTail b), s.hist⟩ := by
  have hnext := hI.next_alloc hb val
  have hold : ∀ a ∈ s.mem.born, a ∈ (s.mem.alloc b val).born := fun a ha => List.mem_append_left _ ha
  have hext : Ext s.mem s.hist (s.mem.alloc b val) s.hist :=
    ⟨fun a b hab => by rw [hnext]; exact hab, List.prefix_rfl, List.prefix_rfl⟩
  have hsw : ∀ j a t, Function.update s.pc i (.loadTail b) j = .swing a t ↔
      s.pc j = .swing a t := fun j a t => swing_update (by rw [hpc]; nofun) nofun
  have htak : ∀ j a, (Function.update s.pc i (.loadTail b) j).taking = some a →
      (s.pc j).taking = some a := fun j a hj =>
    (of_update (P := fun q : Pc => q.taking = some a) hj nofun).2
  refine { hI with
    path := by rw [hnext]; exact hI.path
    born := fun a ha => hold a (hI.born a ha)
    unborn := fun a ha => by rw [hnext]; exact hI.unborn a fun h => ha (hold a h)
    data := fun a h0 ha => ?_
    ok := (Function.forall_update_iff s.pc _).2 ⟨trivial, fun j _ => (hI.ok j).ext hext⟩
    new := fun j a hj => ?_
    new_inj := fun j k a => inj_update (F := Pc.new) (fun j k => hI.new_inj j k a) ?_
    tail_last := fun hno => hI.tail_last fun j a t hj => hno j a t ((hsw j a t).2 hj)
    swing := fun j a t hj => hI.swing j a t ((hsw j a t).1 hj)
    swing_inj := fun j k a b t u hj hk => hI.swing_inj j k a b t u ((hsw j a t).1 hj) ((hsw k b u).1 hk)
    seen := fun j t hj k a u hk => ?_
    taking := fun j a hj => hI.taking j a (htak j a hj)
    taking_inj := fun j k a hj hk => hI.taking_inj j k a (htak j a hj) (htak k a hk)
    popped := fun p hp => ?_ }
  · show (Function.update s.mem.data b (some val) a).isSome
    rw [Function.update_apply]
    split
    · rfl
    · exact hI.data a h0 ((List.mem_append.1 ha).resolve_right fun h => ‹a ≠ b› (List.mem_singleton.1 h))
  · rcases at_update (P := fun q : Pc => q.new = some a) hj with ⟨-, hj'⟩ | ⟨-, hj'⟩
    · obtain rfl := Option.some.inj hj'
      refine ⟨List.mem_append_right _ (List.mem_singleton_self _), fun ha => hb (hI.born _ ha), ?_⟩
      rw [hnext]; exact hI.unborn _ hb
    · obtain ⟨h1, h2, h3⟩ := hI.new j a hj'
      exact ⟨hold a h1, h2, by rw [hnext]; exact h3⟩
  · intro ha l hl
    obtain rfl := Option.some.inj ha
    exact absurd (hI.new l _ hl).1 hb
  · have hj' := (of_update (P := fun q : Pc => q.tail = some t) hj nofun).2
    exact hI.seen j t hj' k a u ((hsw k a u).1 hk)
  · obtain ⟨h1, h2⟩ := hI.popped p hp
    refine ⟨h1, ?_⟩
    have hborn := hI.born p.1 (List.mem_cons_of_mem _ (hI.claims.subset h1))
    have hne : p.1 ≠ b := fun h => hb (h ▸ hborn)
    show Function.update s.mem.data b (some val) p.1 = some p.2
    rw [Function.update_of_ne hne]; exact h2

theorem Inv.next_tail (hI : Inv s) (hno : ∀ j a u, s.pc j ≠ .swing a u) :
    s.mem.next s.mem.tail = none := by
  have hpath : Path s.mem.next (some 0) (s.hist.nodes ++ []) := by rw [List.append_nil]; exact hI.path
  exact hpath.next_of_append (hI.tail_last hno)

/-- A thread about to link at the end of the chain works on `tail`, and nobody has yet to swing. -/
theorem Inv.link_at_tail {new t : Addr} (hI : Inv s) (hpc : s.pc i = .link new t)
    (hn : s.mem.next t = none) :
    s.hist.nodes.getLast? = some t ∧ s.mem.tail = t ∧ ∀ j a u, s.pc j ≠ .swing a u := by
  have hok := hI.ok i
  rw [hpc] at hok
  have hlast := hI.path.getLast?_of_next hok hn
  have hno : ∀ j a u, s.pc j ≠ .swing a u := fun j a u hj =>
    hI.seen i t (by rw [hpc]; rfl) j a u hj
      (Option.some.inj ((hI.swing j a u hj).2.1.symm.trans hlast))
  exact ⟨hlast, Option.some.inj ((hI.tail_last hno).symm.trans hlast), hno⟩

/-- The successful `compare_set` on `tail.next`. -/
theorem Inv.link {new t : Addr} (hI : Inv s) (hpc : s.pc i = .link new t)
    (hn : s.mem.next t = none) :
    Inv ⟨{ s.mem with next := Function.update s.mem.next t (some new) },
      Function.update s.pc i (.swing new t), { s.hist with linked := s.hist.linked ++ [new] }⟩ := by
  obtain ⟨hlast, rfl, hno⟩ := hI.link_at_tail hpc hn
  obtain ⟨hborn, hnotin, hnull⟩ := hI.new i new (by rw [hpc]; rfl)
  have hmem := hI.tail_mem
  have hne : new ≠ s.mem.tail := fun h => hnotin (h ▸ hmem)
  have hext : Ext s.mem s.hist { s.mem with next := Function.update s.mem.next s.mem.tail (some new) }
      { s.hist with linked := s.hist.linked ++ [new] } := by
    refine ⟨fun a b hab => ?_, List.prefix_append _ _, List.prefix_rfl⟩
    have hat : a ≠ s.mem.tail := by rintro rfl; rw [hn] at hab; cases hab
    exact (Function.update_of_ne hat _ _).trans hab
  have hsw : ∀ j a u, Function.update s.pc i (.swing new s.mem.tail) j = .swing a u →
      j = i ∧ a = new ∧ u = s.mem.tail := by
    intro j a u hj
    rcases at_update (P := fun q : Pc => q = .swing a u) hj with ⟨hji, hj'⟩ | ⟨-, hj'⟩
    · cases hj'; exact ⟨hji, rfl, rfl⟩
    · exact absurd hj' (hno j a u)
  have hnew : ∀ j a, (Function.update s.pc i (.swing new s.mem.tail) j).new = some a →
      j ≠ i ∧ (s.pc j).new = some a := fun j a hj =>
    of_update (P := fun q : Pc => q.new = some a) hj nofun
  have htak : ∀ j a, (Function.update s.pc i (.swing new s.mem.tail) j).taking = some a →
      (s.pc j).taking = some a := fun j a hj =>
    (of_update (P := fun q : Pc => q.taking = some a) hj nofun).2
  refine { hI with
    path := hI.path.snoc hlast hnotin hnull
    born := fun a ha => ?_
    unborn := fun a ha => ?_
    claims := hI.claims.trans (List.prefix_append _ _)
    ok := (Function.forall_update_iff s.pc _).2 ⟨trivial, fun j _ => (hI.ok j).ext hext⟩
    new := fun j a hj => ?_
    new_inj := fun j k a hj hk => hI.new_inj j k a (hnew j a hj).2 (hnew k a hk).2
    tail_mem := hext.nodes_subset hmem
    tail_last := fun h => absurd (Function.update_self i _ s.pc) (h i new s.mem.tail)
    swing := fun j a u hj => ?_
    swing_inj := fun j k a b u w hj hk => (hsw j a u hj).1.trans (hsw k b w hk).1.symm
    seen := fun j t hj k a u hk => ?_
    taking := fun j a hj => hI.taking j a (htak j a hj)
    taking_inj := fun j k a hj hk => hI.taking_inj j k a (htak j a hj) (htak k a hk)
    pushed := fun a ha => List.mem_append_left _ (hI.pushed a ha) }
  · rcases List.mem_append.1 (show a ∈ s.hist.nodes ++ [new] from ha) with ha | ha
    · exact hI.born a ha
    · rw [List.mem_singleton.1 ha]; exact hborn
  · have hat : a ≠ s.mem.tail := by rintro rfl; exact ha (hI.born _ hmem)
    exact (Function.update_of_ne hat _ _).trans (hI.unborn a ha)
  · obtain ⟨hji, hj'⟩ := hnew j a hj
    obtain ⟨h1, h2, h3⟩ := hI.new j a hj'
    have hat : a ≠ s.mem.tail := fun h => h2 (h ▸ hmem)
    have han : a ≠ new := fun h => hji (hI.new_inj j i a hj' (by rw [hpc, h]; rfl))
    exact ⟨h1, fun ha => (List.mem_append.1 (show a ∈ s.hist.nodes ++ [new] from ha)).elim h2
      fun ha => han (List.mem_singleton.1 ha), (Function.update_of_ne hat _ _).trans h3⟩
  · obtain ⟨-, rfl, rfl⟩ := hsw j a u hj
    exact ⟨rfl, List.getLast?_concat (l := s.hist.nodes),
      List.mem_append_right _ (List.mem_singleton_self _), hne⟩
  · obtain ⟨-, rfl, rfl⟩ := hsw k a u hk
    rcases at_update (P := fun q : Pc => q.tail = some t) hj with ⟨-, hj'⟩ | ⟨-, hj'⟩
    · cases hj'
    · -- the copy was loaded from the chain, the node was not on it
      rintro rfl
      have hj := hI.ok j
      cases hpj : s.pc j <;> rw [hpj] at hj hj' <;> simp only [Pc.tail, Option.some.injEq,
        reduceCtorEq, Ok] at hj hj' <;> exact hnotin (hj' ▸ hj)

/-- The `compare_set` on `tail` behind a link; it succeeds and the push returns. -/
theorem Inv.swung {a t : Addr} (hI : Inv s) (hpc : s.pc i = .swing a t) :
    Inv ⟨{ s.mem with tail := a }, Function.update s.pc i .idle,
      s.hist.log i (.returned (.push a))⟩ := by
  obtain ⟨rfl, hlast, hlinked, -⟩ := hI.swing i a t hpc
  have hno : ∀ j b u, Function.update s.pc i .idle j ≠ .swing b u := by
    intro j b u hj
    rcases at_update (P := fun q : Pc => q = .swing b u) hj with ⟨-, hj'⟩ | ⟨hji, hj'⟩
    · cases hj'
    · exact hji (hI.swing_inj j i b a u _ hj' hpc)
  have hnew : ∀ j b, (Function.update s.pc i .idle j).new = some b → (s.pc j).new = some b :=
    fun j b hj =>
      (of_update (P := fun q : Pc => q.new = some b) hj nofun).2
  have htak : ∀ j b, (Function.update s.pc i .idle j).taking = some b → (s.pc j).taking = some b :=
    fun j b hj =>
      (of_update (P := fun q : Pc => q.taking = some b) hj nofun).2
  have hpo : (s.hist.log i (.returned (.push a))).popped = s.hist.popped := by
    simp [Hist.popped, Hist.log]
  refine { hI with
    ok := (Function.forall_update_iff s.pc _).2
      ⟨trivial, fun j _ => (hI.ok j).ext ⟨fun _ _ h => h, List.prefix_rfl, List.prefix_rfl⟩⟩
    new := fun j b hj => hI.new j b (hnew j b hj)
    new_inj := fun j k b hj hk => hI.new_inj j k b (hnew j b hj) (hnew k b hk)
    tail_mem := List.mem_of_getLast? hlast
    tail_last := fun _ => hlast
    swing := fun j b u hj => absurd hj (hno j b u)
    swing_inj := fun j k b c u w hj => absurd hj (hno j b u)
    seen := fun _ _ _ k b u hk => absurd hk (hno k b u)
    taking := fun j b hj => by rw [hpo]; exact hI.taking j b (htak j b hj)
    taking_inj := fun j k b hj hk => hI.taking_inj j k b (htak j b hj) (htak k b hk)
    popped := by rw [hpo]; exact hI.popped
    popped_nodup := by rw [hpo]; exact hI.popped_nodup
    pushed := fun b hb => ?_ }
  simp only [Hist.pushed, Hist.log, List.filterMap_append, List.mem_append] at hb
  rcases hb with hb | hb
  · exact hI.pushed b hb
  · simp at hb; rw [hb]; exact hlinked

theorem Inv.next_head {b : Addr} (hI : Inv s) (hn : s.mem.next s.mem.head = some b) :
    s.hist.claims ++ [b] <+: s.hist.linked := by
  obtain ⟨rest, hrest⟩ := hI.claims
  have hpath := hI.path
  rw [Hist.nodes, ← hrest, ← List.cons_append] at hpath
  have hhead := (hpath.next_of_append hI.head).symm.trans hn
  cases rest with
  | nil => cases hhead
  | cons c rest =>
    obtain rfl : c = b := Option.some.inj hhead
    exact ⟨rest, by rw [← hrest]; simp⟩

theorem Inv.claim_of_taking {a : Addr} (hI : Inv s) (h : (s.pc i).taking = some a) :
    a ∈ s.hist.claims := by
  have hok := hI.ok i
  cases hpc : s.pc i <;> rw [hpc] at hok h <;> simp only [Pc.taking, Option.some.injEq,
    reduceCtorEq, Ok] at hok h <;> subst h <;> first | exact hok.2 | exact hok

/-- The successful `compare_set` on `head`. -/
theorem Inv.claim {a b : Addr} (hI : Inv s) (hpc : s.pc i = .casHead a b) (hh : s.mem.head = a) :
    Inv ⟨{ s.mem with head := b }, Function.update s.pc i (.retireLen a b),
      { s.hist with claims := s.hist.claims ++ [b] }⟩ := by
  subst hh
  have hok := hI.ok i
  rw [hpc] at hok
  have hpre := hI.next_head hok.2
  have hfresh : b ∉ s.hist.claims := by
    have hnd := hI.path.nodup.sublist (List.cons_prefix_cons.2 ⟨rfl, hpre⟩).sublist
    rw [← List.cons_append] at hnd
    exact fun hb => List.disjoint_of_nodup_append hnd (List.mem_cons_of_mem _ hb)
      (List.mem_singleton_self b)
  have hext : Ext s.mem s.hist { s.mem with head := b }
      { s.hist with claims := s.hist.claims ++ [b] } :=
    ⟨fun _ _ h => h, List.prefix_rfl, List.prefix_append _ _⟩
  have hsw : ∀ j c u, Function.update s.pc i (.retireLen s.mem.head b) j = .swing c u ↔
      s.pc j = .swing c u := fun j c u => swing_update (by rw [hpc]; nofun) nofun
  have hnew : ∀ j c, (Function.update s.pc i (.retireLen s.mem.head b) j).new = some c →
      (s.pc j).new = some c := fun j c hj =>
    (of_update (P := fun q : Pc => q.new = some c) hj nofun).2
  refine { hI with
    claims := hpre
    head := List.getLast?_concat (l := s.hist.passed)
    ok := (Function.forall_update_iff s.pc _).2
      ⟨⟨?_, List.mem_append_right _ (List.mem_singleton_self b)⟩, fun j _ => (hI.ok j).ext hext⟩
    new := fun j c hj => hI.new j c (hnew j c hj)
    new_inj := fun j k c hj hk => hI.new_inj j k c (hnew j c hj) (hnew k c hk)
    tail_last := fun hno => hI.tail_last fun j c u hj => hno j c u ((hsw j c u).2 hj)
    swing := fun j c u hj => hI.swing j c u ((hsw j c u).1 hj)
    swing_inj := fun j k c d u w hj hk => hI.swing_inj j k c d u w ((hsw j c u).1 hj) ((hsw k d w).1 hk)
    seen := fun j t hj k c u hk => ?_
    taking := fun j c hj => ?_
    taking_inj := fun j k c => inj_update (F := Pc.taking) (fun j k => hI.taking_inj j k c) ?_
    popped := fun p hp => ⟨List.mem_append_left _ (hI.popped p hp).1, (hI.popped p hp).2⟩ }
  · show s.mem.head ∈ (s.hist.passed ++ [b]).dropLast
    rw [List.dropLast_concat]
    exact List.mem_of_getLast? hI.head
  · have hj' := (of_update (P := fun q : Pc => q.tail = some t) hj nofun).2
    exact hI.seen j t hj' k c u ((hsw k c u).1 hk)
  · rcases at_update (P := fun q : Pc => q.taking = some c) hj with ⟨-, hj'⟩ | ⟨-, hj'⟩
    · obtain rfl := Option.some.inj hj'
      intro hc
      obtain ⟨p, hp, rfl⟩ := List.mem_map.1 hc
      exact hfresh (hI.popped p hp).1
    · exact hI.taking j c hj'
  · intro hc l hl
    obtain rfl := Option.some.inj hc
    exact hfresh (hI.claim_of_taking hl)

theorem Inv.take {b : Addr} {v : V} (hI : Inv s) (hpc : s.pc i = .readData b)
    (hv : s.mem.data b = some v) :
    Inv ⟨s.mem, Function.update s.pc i .idle,
      s.hist.log i (.returned (.tryPop (some (b, v))))⟩ := by
  have hok := hI.ok i
  rw [hpc] at hok
  have htaki : (s.pc i).taking = some b := by rw [hpc]; rfl
  have hsw : ∀ j c u, Function.update s.pc i .idle j = .swing c u ↔ s.pc j = .swing c u :=
    fun j c u => swing_update (by rw [hpc]; nofun) nofun
  have hnew : ∀ j c, (Function.update s.pc i .idle j).new = some c → (s.pc j).new = some c :=
    fun j c hj =>
      (of_update (P := fun q : Pc => q.new = some c) hj nofun).2
  have htak : ∀ j c, (Function.update s.pc i .idle j).taking = some c →
      j ≠ i ∧ (s.pc j).taking = some c := fun j c hj =>
    of_update (P := fun q : Pc => q.taking = some c) hj nofun
  have hpo : (s.hist.log i (.returned (.tryPop (some (b, v))))).popped =
      s.hist.popped ++ [(b, v)] := by
    simp [Hist.popped, Hist.log]
  have hpu : (s.hist.log i (.returned (.tryPop (some (b, v))))).pushed = s.hist.pushed := by
    simp [Hist.pushed, Hist.log]
  refine { hI with
    ok := (Function.forall_update_iff s.pc _).2
      ⟨trivial, fun j _ => (hI.ok j).ext ⟨fun _ _ h => h, List.prefix_rfl, List.prefix_rfl⟩⟩
    new := fun j c hj => hI.new j c (hnew j c hj)
    new_inj := fun j k c hj hk => hI.new_inj j k c (hnew j c hj) (hnew k c hk)
    tail_last := fun hno => hI.tail_last fun j c u hj => hno j c u ((hsw j c u).2 hj)
    swing := fun j c u hj => hI.swing j c u ((hsw j c u).1 hj)
    swing_inj := fun j k c d u w hj hk => hI.swing_inj j k c d u w ((hsw j c u).1 hj) ((hsw k d w).1 hk)
    seen := fun j t hj k c u hk => ?_
    taking := fun j c hj hc => ?_
    taking_inj := fun j k c hj hk => hI.taking_inj j k c (htak j c hj).2 (htak k c hk).2
    popped := fun p hp => ?_
    popped_nodup := ?_
    pushed := by rw [hpu]; exact hI.pushed }
  · have hj' := (of_update (P := fun q : Pc => q.tail = some t) hj nofun).2
    exact hI.seen j t hj' k c u ((hsw k c u).1 hk)
  · obtain ⟨hji, hj'⟩ := htak j c hj
    rw [hpo, List.map_append, List.mem_append] at hc
    rcases hc with hc | hc
    · exact hI.taking j c hj' hc
    · obtain rfl : c = b := by simpa using hc
      exact hji (hI.taking_inj j i c hj' htaki)
  · rw [hpo, List.mem_append] at hp
    rcases hp with hp | hp
    · exact hI.popped p hp
    · obtain rfl : p = (b, v) := by simpa using hp
      exact ⟨hok, hv⟩
  · rw [hpo, List.map_append]
    refine List.Nodup.append hI.popped_nodup (List.nodup_singleton b) ?_
    simpa using hI.taking i b htaki

/-! ### Every orderly step -/

theorem Inv.silent {pc pc' : Pc} (hI : Inv s) (hpc : s.pc i = pc) (hf : Follows s.mem pc pc')
    (hok : Ok s.mem s.hist pc') (hm : m'.core = s.mem.core) : Inv (s.put i (m', pc', .silent)) :=
  hI.quiet (hpc ▸ hf) hok hm rfl rfl rfl rfl

theorem Inv.data_of_claim {a : Addr} (hI : Inv s) (ha : a ∈ s.hist.claims) :
    ∃ v, s.mem.data a = some v := by
  have hmem := hI.claims.subset ha
  have h0 : a ≠ 0 := fun h => (List.nodup_cons.1 hI.path.nodup).1 (h ▸ hmem)
  exact Option.isSome_iff_exists.1
    (hI.data a (Nat.pos_of_ne_zero h0) (hI.born a (List.mem_cons_of_mem _ hmem)))

theorem Inv.put {r : Mem V × Pc × Event V} (hI : Inv s) (ho : orderly s (.run i) = true)
    (hs : stepPc s.mem (s.pc i) = some r) : Inv (s.put i r) := by
  have hok := hI.ok i
  simp only [orderly] at ho
  cases hpc : s.pc i <;> rw [hpc] at hs ho hok <;> simp only [stepPc] at hs
  case idle | panicked | undefined => cases hs
  case helpTail | stashLen | stashWrite | stashCas | stealCas | stealRead | stolenCheck | stolenNext
    | stolenLink | stolenSwing => exact hok.elim
  case loadTail new =>
    cases hs
    exact hI.silent hpc (.of_eq rfl (.inl rfl) (.inr (.inr rfl)) rfl rfl) hI.tail_mem rfl
  case loadNext new t =>
    rw [Option.isNone_iff_eq_none.1 ho] at hs
    cases hs
    exact hI.silent hpc (.of_eq rfl (.inl rfl) (.inl rfl) rfl rfl) hok rfl
  case isEmpty new t =>
    split at hs <;> cases hs <;>
      exact hI.silent hpc (.of_eq rfl (.inl rfl) (.inl rfl) rfl rfl) hok rfl
  case recheck new t =>
    split at hs <;> cases hs <;>
      exact hI.silent hpc (.of_eq rfl (.inl rfl) (.inl rfl) rfl rfl) hok rfl
  case link new t =>
    have hn := Option.isNone_iff_eq_none.1 ho
    rw [hn] at hs
    cases hs
    exact hI.link hpc hn
  case swing a t =>
    rw [if_pos (hI.swing i a t hpc).1.symm] at hs
    cases hs
    exact hI.swung hpc
  case lockPush new t =>
    split at hs <;> cases hs
    exact hI.silent hpc (.of_eq rfl (.inl rfl) (.inl rfl) rfl rfl) hok rfl
  case stealLen new t =>
    rw [if_pos hI.guard] at hs
    cases hs
    exact hI.silent hpc (.of_eq rfl (.inl rfl) (.inr (.inl rfl)) rfl rfl) trivial rfl
  case unlockPush new =>
    cases hs
    exact hI.silent hpc (.of_eq rfl (.inl rfl) (.inl rfl) rfl rfl) trivial rfl
  case loadHead =>
    cases hs
    exact hI.silent hpc (.of_eq rfl (.inl rfl) (.inl rfl) rfl rfl) (List.mem_of_getLast? hI.head) rfl
  case headNext a =>
    split at hs <;> cases hs
    · exact hI.quiet (hpc ▸ .of_eq rfl (.inl rfl) (.inl rfl) rfl rfl) trivial rfl rfl rfl
        (by simp [Hist.log, Hist.pushed]) (by simp [Hist.log, Hist.popped])
    · exact hI.silent hpc (.of_eq rfl (.inl rfl) (.inl rfl) rfl rfl) ⟨hok, ‹_›⟩ rfl
  case casHead a b =>
    split at hs <;> cases hs
    · exact hI.claim hpc ‹_›
    · exact hI.silent hpc (.of_eq rfl (.inl rfl) (.inl rfl) rfl rfl) trivial rfl
  case retireLen a b | sweepLen a b =>
    split at hs <;> cases hs <;>
      exact hI.silent hpc (.of_eq rfl (.inl rfl) (.inl rfl) rfl rfl) hok rfl
  case retireWrite | sweepCas | sweepRead | refillWrite =>
    cases hs
    exact hI.silent hpc (.of_eq rfl (.inl rfl) (.inl rfl) rfl rfl) hok rfl
  case retireCas | refillCas =>
    cases hs
    exact hI.silent hpc (.of_eq rfl (.inl rfl) (.inl rfl) rfl rfl) hok.2 rfl
  case lockPop a b =>
    split at hs <;> cases hs
    exact hI.silent hpc (.of_eq rfl (.inl rfl) (.inl rfl) rfl rfl) hok rfl
  case refillLen a b =>
    split at hs <;> cases hs
    · exact hI.silent hpc (.of_eq rfl (.inr rfl) (.inl rfl) rfl rfl) rfl rfl
    · exact hI.silent hpc (.of_eq rfl (.inl rfl) (.inl rfl) rfl rfl) hok rfl
  case unlockPop b =>
    cases hs
    exact hI.silent hpc (.of_eq rfl (.inl rfl) (.inl rfl) rfl rfl) hok rfl
  case readData b =>
    obtain ⟨v, hv⟩ := hI.data_of_claim hok
    rw [hv] at hs
    cases hs
    exact hI.take hpc hv
  case emptyHead =>
    cases hs
    exact hI.silent hpc (.of_eq rfl (.inl rfl) (.inl rfl) rfl rfl) (List.mem_of_getLast? hI.head) rfl
  case emptyNext a =>
    cases hs
    exact hI.quiet (hpc ▸ .of_eq rfl (.inl rfl) (.inl rfl) rfl rfl) trivial rfl rfl rfl
      (by simp [Hist.log, Hist.pushed]) (by simp [Hist.log, Hist.popped])

theorem Inv.fmt (hI : Inv s) : Inv { s with mem := s.mem.fmt.2 } := { hI with }

theorem Inv.step {a : Act V} {s' : State V} (hI : Inv s) (ho : orderly s a = true)
    (hu : unused s a = true) (hs : step s a = some s') : Inv s' := by
  cases a with
  | push i val b =>
    obtain ⟨hpc, rfl⟩ := step_push hs
    exact hI.alloc hpc (by simpa [unused] using hu) val
  | tryPop i =>
    obtain ⟨hpc, rfl⟩ := enter_eq hs
    exact hI.quiet (hpc ▸ .of_eq rfl (.inl rfl) (.inl rfl) rfl rfl) trivial rfl rfl rfl rfl rfl
  | isEmpty i =>
    obtain ⟨hpc, rfl⟩ := enter_eq hs
    exact hI.quiet (hpc ▸ .of_eq rfl (.inl rfl) (.inl rfl) rfl rfl) trivial rfl rfl rfl rfl rfl
  | run i =>
    obtain ⟨r, hr, rfl⟩ := step_run hs
    exact hI.put ho hr
  | print i =>
    obtain ⟨-, rfl⟩ := step_print hs
    exact hI.fmt

theorem inv_init (threads : Nat) : Inv (State.init (V := V) threads) where
  path := ⟨rfl, rfl⟩
  born := by simp [State.init, Mem.withThreads, Hist.nodes]
  unborn _ _ := rfl
  data a h0 h1 := absurd (List.mem_singleton.1 h1) (Nat.ne_of_gt h0)
  claims := List.prefix_rfl
  head := rfl
  guard := rfl
  ok _ := trivial
  new _ _ h := nomatch h
  new_inj _ _ _ h := nomatch h
  tail_mem := List.mem_cons_self ..
  tail_last _ := rfl
  swing _ _ _ h := nomatch h
  swing_inj _ _ _ _ _ _ h := nomatch h
  seen _ _ h := nomatch h
  taking _ _ h := nomatch h
  taking_inj _ _ _ h := nomatch h
  popped := by simp [State.init, Hist.popped]
  popped_nodup := by simp [State.init, Hist.popped]
  pushed := by simp [State.init, Hist.pushed]

theorem inv_of_run {threads : Nat} {s : State V}
    (h : Run Shift.step (fun s a => orderly s a = true ∧ unused s a = true) (.init threads) s) : Inv s :=
  h.invariant (inv_init threads) fun _ _ _ hI ha hs => hI.step ha.1 ha.2 hs

end

end CoQueue.Shift
