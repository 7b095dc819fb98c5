import CoQueue.Mutex.LotSafety

/-!
# The size of the hash table

`NUM_THREADS` counts the threads that have a `ThreadData`, and whenever no thread is in `ThreadData::new`, the
current table has at least `LOAD_FACTOR` buckets for each of them. A table that has been published is never freed,
and the ones published later are not smaller.
-/

namespace CoQueue.Mutex.Lot

open Bucket Schedule

variable {s s' : State} {i j : Tid} {pc : Pc} {t : Addr} {e : Option Event} {bits : Nat}

theorem le_of_doubling {n : Nat} (go : (power : Nat) → power > 0 → Nat)
    (hgo : ∀ power h, go power h = if power < n then go (power * 2) (Nat.mul_pos h (by decide)) else power)
    (power : Nat) (h : power > 0) : n ≤ go power h := by
  induction hd : n - power using Nat.strong_induction_on generalizing power with
  | _ d ih =>
    rw [hgo]
    split
    · exact ih (n - power * 2) (by omega) (power * 2) _ rfl
    · omega

theorem le_nextPowerOfTwo (n : Nat) : n ≤ n.nextPowerOfTwo := by
  unfold Nat.nextPowerOfTwo
  refine le_of_doubling _ (fun power h => ?_) 1 _
  -- the equation of the loop, which has no name outside of its file
  with_unfolding_all refine (WellFounded.Nat.fix_eq _ _ (⟨power, h⟩ : PSigma fun power : Nat => power > 0)).trans ?_
  by_cases hlt : power < n
  · rw [if_pos hlt]
    with_unfolding_all exact dif_pos hlt
  · rw [if_neg hlt]
    exact dif_neg hlt

theorem loadFactor_le (numThreads : Nat) : loadFactor * numThreads ≤ 2 ^ hashBits numThreads := by
  obtain ⟨k, hk⟩ := Nat.isPowerOfTwo_nextPowerOfTwo (numThreads * loadFactor)
  rw [hashBits, hk, Nat.log2_two_pow, ← hk, Nat.mul_comm]
  exact le_nextPowerOfTwo _

/-- In `ThreadData::new`. -/
def Pc.starting : Pc → Bool
  | .count | .get (.grow _) | .create (.grow _) _ | .growLock _ _ _ | .growBack _ _ _ | .growMove _ _ _
  | .growUnlock _ _ => true
  | _ => false

def Caller.Grows (n : Nat) : Caller → Prop
  | .grow numThreads => n ≤ numThreads
  | .lock _ _ | .relock => False

/-- The thread will leave a table that is large enough for `n` threads. -/
def Pc.Grows (table : Addr → Option Nat) (n : Nat) : Pc → Prop
  | .get caller | .create caller _ => caller.Grows n
  | .growLock numThreads _ _ | .growBack numThreads _ _ => n ≤ numThreads
  | .growMove _ new _ => ∃ bits, table new = some bits ∧ loadFactor * n ≤ 2 ^ bits
  | _ => False

/-- The current table is large enough for `n` threads. -/
def Enough (s : State) (n : Nat) : Prop :=
  ∃ t bits, s.hashtable = some t ∧ s.table t = some bits ∧ loadFactor * n ≤ 2 ^ bits

structure Load (s : State) : Prop where
  locks : Locks s
  small : ∀ i numThreads t c bits, s.pc i = .growLock numThreads t c → s.table t = some bits →
    2 ^ bits < loadFactor * numThreads
  larger : ∀ i t new c bits bits', s.pc i = .growMove t new c → s.table t = some bits → s.table new = some bits' →
    bits ≤ bits'
  enough : s.numThreads = 0 ∨ Enough s s.numThreads ∨ ∃ i, (s.pc i).Grows s.table s.numThreads
  counted : ∃ l : List Tid, l.Nodup ∧ l.length = s.numThreads ∧ ∀ i, i ∈ l ↔ s.data i = true
  fresh : ∀ i, s.pc i = .count → s.data i = false

/-! ### Tables stay -/

theorem Step.table_same (hs : Step s i e s') (ht : s.table t ≠ none) (hnew : ∀ j, (s.pc j).new ≠ some t) :
    s'.table t = s.table t ∧ ∀ j, (s'.pc j).new ≠ some t := by
  have hto : ∀ pc : Pc, pc.new ≠ some t → ∀ j, (Function.update s.pc i pc j).new ≠ some t := by
    intro pc hpc j hj
    rcases at_update (P := fun pc : Pc => pc.new = some t) hj with ⟨-, hj⟩ | ⟨-, hj⟩
    · exact hpc hj
    · exact hnew j hj
  have hnone : ∀ pc : Pc, pc.new = none → pc.new ≠ some t := fun pc h => by rw [h]; rintro ⟨⟩
  cases hs with
  | move hm => exact ⟨rfl, hto _ (hnone _ hm.todo.2.2.2.1)⟩
  | exit => exact ⟨rfl, hnew⟩
  | count | publish | inside | woken => exact ⟨rfl, hto _ (hnone _ rfl)⟩
  | @alloc caller a now hpc hh ha | @growAlloc numThreads c bits now t' a hpc hb hle hh ha =>
    have hta : t ≠ a := by
      rintro rfl
      exact ht ha
    exact ⟨Function.update_of_ne hta _ _, hto _ fun hj => hta (Option.some.inj hj).symm⟩
  | won hpc hh hg => exact ⟨rfl, hto _ (hnone _ (got_spec hg).1)⟩
  | @lost caller t' new pc hpc hh hg =>
    refine ⟨Function.update_of_ne ?_ _ _, hto _ (hnone _ (got_spec hg).1)⟩
    rintro rfl
    exact hnew i (by rw [hpc]; rfl)
  | acquire ha => exact ⟨rfl, hto _ (hnone _ ha.todo.2.2.1)⟩
  | release hr => exact ⟨rfl, hto _ (hnone _ hr.todo.2.2.1)⟩
  | @rehash t' new c bits bits' n mem hpc => exact ⟨rfl, hto _ fun hj => hnew i (by rw [hpc]; exact hj)⟩

theorem Load.table_old (h : Load s) (hs : Step s i e s') (ht : (s.pc j).old = some t) : s'.table t = s.table t :=
  (hs.table_same (h.locks.old j t ht) fun k hk => h.locks.fresh k j t hk ht).1

theorem Load.table_new (h : Load s) (hs : Step s i e s') (hji : j ≠ i) (ht : (s.pc j).new = some t) :
    s'.table t = s.table t := by
  have hne := (h.locks.new j t ht).1
  cases hs with
  | @alloc caller a now hpc hh ha | @growAlloc numThreads c bits now t' a hpc hb hle hh ha =>
    exact Function.update_of_ne (by rintro rfl; exact hne ha) _ _
  | @lost caller t' new pc hpc hh hg =>
    refine Function.update_of_ne ?_ _ _
    rintro rfl
    exact hji (h.locks.newInj t j i ht (by rw [hpc]; rfl))
  | _ => rfl

/-! ### Enough buckets -/

theorem Pc.Grows.mono {table : Addr → Option Nat} {n n' : Nat} (hn : n' ≤ n) (h : pc.Grows table n) :
    pc.Grows table n' := by
  have hmul : loadFactor * n' ≤ loadFactor * n := Nat.mul_le_mul_left _ hn
  cases pc with
  | get caller | create caller => cases caller <;> first | exact Nat.le_trans hn h | exact h.elim
  | growLock | growBack => exact Nat.le_trans hn h
  | growMove =>
    obtain ⟨bits, hb, hle⟩ := h
    exact ⟨bits, hb, Nat.le_trans hmul hle⟩
  | _ => exact h.elim

theorem Pc.Grows.congr {table table' : Addr → Option Nat} {n : Nat} (h : pc.Grows table n)
    (ht : ∀ a, pc.new = some a → table' a = table a) : pc.Grows table' n := by
  cases pc with
  | growMove =>
    obtain ⟨bits, hb, hle⟩ := h
    exact ⟨bits, (ht _ rfl).trans hb, hle⟩
  | _ => exact h

theorem got_grows {caller : Caller} {n : Nat} (hg : s.got i t caller = some pc)
    (h : caller.Grows n) :
    (∃ bits, s.table t = some bits ∧ loadFactor * n ≤ 2 ^ bits) ∨ ∀ table, pc.Grows table n := by
  cases caller with
  | grow numThreads =>
    have hn : n ≤ numThreads := h
    obtain ⟨bits, hb, rfl⟩ := Option.map_eq_some_iff.1 hg
    split
    · rename_i hle
      exact .inl ⟨bits, hb, Nat.le_trans (Nat.mul_le_mul_left _ hn) hle⟩
    · exact .inr fun _ => hn
  | lock | relock => exact h.elim

theorem got_small {caller : Caller} {numThreads c : Nat} {t' : Addr}
    (hg : s.got i t caller = some (.growLock numThreads t' c)) (hb : s.table t' = some bits) :
    2 ^ bits < loadFactor * numThreads := by
  cases caller with
  | grow n =>
    obtain ⟨bits', hb', heq⟩ := Option.map_eq_some_iff.1 hg
    split at heq
    · cases heq
    · rename_i hlt
      cases heq
      cases hb.symm.trans hb'
      exact Nat.not_le.1 hlt
  | lock | relock => cases hg

theorem got_ne_count {caller : Caller} (hg : s.got i t caller = some pc) : pc ≠ .count := by
  cases caller with
  | grow n =>
    obtain ⟨bits, -, rfl⟩ := Option.map_eq_some_iff.1 hg
    split <;> rintro ⟨⟩
  | lock | relock =>
    cases hg
    rintro ⟨⟩

theorem Load.grows (h : Load s) (hs : Step s i e s') (hN : s'.numThreads = s.numThreads)
    (hi : (s.pc i).Grows s.table s.numThreads) :
    Enough s' s'.numThreads ∨ (s'.pc i).Grows s'.table s'.numThreads := by
  rw [hN]
  have hpi : ∀ (s : State) (pc : Pc), (s.goto i pc).pc i = pc := fun s pc => Function.update_self ..
  cases hs with
  | move hm =>
    rw [hpi]
    generalize s.pc i = pc₀ at hm hi
    cases hm with
    | @get caller t pc ht hg =>
      rcases got_grows hg hi with ⟨bits, hb, hle⟩ | hgr
      · exact .inl ⟨t, bits, ht, hb, hle⟩
      · exact .inr (hgr _)
    | stale | again => exact .inr hi
    | start | park | unparkOne | grown | enter | wrong | expired => exact hi.elim
  | exit hpc => exact .inr hi
  | count hpc =>
    rw [hpc] at hi
    exact hi.elim
  | alloc hpc =>
    rw [hpc] at hi
    rw [hpi]
    exact .inr hi
  | @won caller new pc hpc ht hg =>
    rw [hpc] at hi
    rw [hpi]
    rcases got_grows hg hi with ⟨bits, hb, hle⟩ | hgr
    · exact .inl ⟨new, bits, rfl, hb, hle⟩
    · exact .inr (hgr _)
  | @lost caller t new pc hpc ht hg =>
    rw [hpc] at hi
    rw [hpi]
    rcases got_grows hg hi with ⟨bits, hb, hle⟩ | hgr
    · refine .inl ⟨t, bits, ht, (Function.update_of_ne ?_ _ _).trans hb, hle⟩
      rintro rfl
      exact (h.locks.new i t (by rw [hpc]; rfl)).2 ht
    · exact .inr (hgr _)
  | acquire ha =>
    rw [hpi]
    generalize s.pc i = pc₀ at ha hi
    cases ha with
    | growLock => exact .inr hi
    | lock => exact hi.elim
  | release hr =>
    rw [hpi]
    generalize s.pc i = pc₀ at hr hi
    cases hr with
    | growBack => exact .inr hi
    | growUnlock | back | sleep | leave => exact hi.elim
  | @growAlloc numThreads c bits now t a hpc hb hle ht ha =>
    rw [hpc] at hi
    rw [hpi]
    refine .inr ⟨hashBits numThreads, Function.update_self .., ?_⟩
    exact Nat.le_trans (Nat.mul_le_mul_left _ hi) (loadFactor_le numThreads)
  | rehash hpc =>
    rw [hpc] at hi
    rw [hpi]
    exact .inr hi
  | @publish t new c bits bits' hpc hb hb' hle =>
    rw [hpc] at hi
    obtain ⟨bits'', hb'', hle'⟩ := hi
    exact .inl ⟨new, bits'', rfl, hb'', hle'⟩
  | inside hpc | woken hpc =>
    rw [hpc] at hi
    exact hi.elim

theorem Load.current_step (h : Load s) (hs : Step s i e s') (ht : s.hashtable = some t)
    (hb : s.table t = some bits) :
    ∃ t' bits', s'.hashtable = some t' ∧ s'.table t' = some bits' ∧ bits ≤ bits' := by
  have htab : s'.table t = some bits := by
    rw [(hs.table_same (h.locks.cur t ht) fun k hk => (h.locks.new k t hk).2 ht).1]
    exact hb
  cases hs with
  | won hpc hh => cases hh.symm.trans ht
  | @publish t' new c bits₁ bits' hpc hb₁ hb' hle₁ =>
    -- the thread has moved the queues of the current table
    cases ht.symm.trans (h.locks.current i t' (by rw [hpc]; rfl))
    exact ⟨new, bits', rfl, hb', h.larger i t new c bits bits' hpc hb hb'⟩
  | _ => exact ⟨t, bits, ht, htab, Nat.le_refl _⟩

theorem Load.enough_step (h : Load s) (hs : Step s i e s') {n : Nat} (hn : Enough s n) : Enough s' n := by
  obtain ⟨t, bits, ht, hb, hle⟩ := hn
  obtain ⟨t', bits', ht', hb', hbits⟩ := h.current_step hs ht hb
  exact ⟨t', bits', ht', hb', Nat.le_trans hle (Nat.pow_le_pow_right (by decide) hbits)⟩

theorem Step.count_cases (hs : Step s i e s') :
    (s'.numThreads = s.numThreads ∧ s'.data = s.data) ∨
      (s.pc i = .count ∧ s'.numThreads = s.numThreads + 1 ∧ s'.data = Function.update s.data i true ∧
        s'.pc i = .get (.grow (s.numThreads + 1))) ∨
      (s.data i = true ∧ s'.numThreads = s.numThreads - 1 ∧ s'.data = Function.update s.data i false ∧
        s'.table = s.table ∧ s'.pc = s.pc) := by
  cases hs with
  | count hpc => exact .inr (.inl ⟨hpc, rfl, rfl, Function.update_self ..⟩)
  | exit hpc hd => exact .inr (.inr ⟨hd, rfl, rfl, rfl, rfl⟩)
  | _ => exact .inl ⟨rfl, rfl⟩

theorem Load.small_step (h : Load s) (hs : Step s i e s') {numThreads c : Nat}
    (hj : s'.pc j = .growLock numThreads t c) (hb : s'.table t = some bits) :
    2 ^ bits < loadFactor * numThreads := by
  by_cases hji : j = i
  · subst hji
    have hpi : ∀ (s : State) (pc : Pc), (s.goto j pc).pc j = pc := fun s pc => Function.update_self ..
    cases hs with
    | move hm =>
      rw [hpi] at hj
      subst hj
      generalize s.pc j = pc₀ at hm
      cases hm with
      | get ht hg => exact got_small hg hb
    | won hpc ht hg =>
      rw [hpi] at hj
      subst hj
      exact got_small hg hb
    | @lost caller t' new pc hpc ht hg =>
      rw [hpi] at hj
      subst hj
      refine got_small hg ?_
      have hb : Function.update s.table new none t = some bits := hb
      rcases at_update (P := (· = some bits)) hb with ⟨-, hb⟩ | ⟨-, hb⟩
      · cases hb
      · exact hb
    | acquire ha =>
      rw [hpi] at hj
      subst hj
      generalize hpc : s.pc j = pc₀ at ha
      cases ha with
      | growLock => exact h.small j numThreads t _ bits hpc hb
    | release hr =>
      rw [hpi] at hj
      subst hj
      generalize s.pc j = pc₀ at hr
      cases hr
    | exit hpc => exact h.small j numThreads t c bits hj hb
    | count | alloc | growAlloc | rehash | publish | inside | woken =>
      rw [hpi] at hj
      cases hj
  · rw [hs.pc_other hji] at hj
    rw [h.table_old hs (j := j) (by rw [hj]; rfl)] at hb
    exact h.small j numThreads t c bits hj hb

theorem Load.larger_step (h : Load s) (hs : Step s i e s') {new : Addr} {c bits' : Nat}
    (hj : s'.pc j = .growMove t new c) (hb : s'.table t = some bits) (hb' : s'.table new = some bits') :
    bits ≤ bits' := by
  by_cases hji : j = i
  · subst hji
    have hpi : ∀ (s : State) (pc : Pc), (s.goto j pc).pc j = pc := fun s pc => Function.update_self ..
    cases hs with
    | @growAlloc numThreads c' bits₁ now t' a hpc hb₁ hle ht ha =>
      rw [hpi] at hj
      cases hj
      have hb₂ : s.table t = some bits := (alloc_table (h.locks.cur t ht) ha numThreads now).symm.trans hb
      have hsize : hashBits numThreads = bits' := Option.some.inj
        ((show (s.alloc new numThreads now).table new = _ from Function.update_self ..).symm.trans hb')
      have hlt : 2 ^ bits < 2 ^ bits' := by
        rw [← hsize]
        exact Nat.lt_of_lt_of_le (h.small j numThreads t c' bits hpc hb₂) (loadFactor_le numThreads)
      exact Nat.le_of_lt ((Nat.pow_lt_pow_iff_right (by decide)).1 hlt)
    | @rehash t' new' c' bits₁ bits₂ n mem hpc =>
      rw [hpi] at hj
      cases hj
      exact h.larger j t new c' bits bits' hpc hb hb'
    | exit hpc => exact h.larger j t new c bits bits' hj hb hb'
    | move hm =>
      rw [hpi] at hj
      have hnew := hm.todo.2.2.2.1
      rw [hj] at hnew
      cases hnew
    | won hpc ht hg | lost hpc ht hg =>
      rw [hpi] at hj
      have hnew := (got_spec hg).1
      rw [hj] at hnew
      cases hnew
    | acquire ha =>
      rw [hpi] at hj
      have hnew := ha.todo.2.2.1
      rw [hj] at hnew
      cases hnew
    | release hr =>
      rw [hpi] at hj
      have hnew := hr.todo.2.2.1
      rw [hj] at hnew
      cases hnew
    | count | alloc | publish | inside | woken =>
      rw [hpi] at hj
      cases hj
  · rw [hs.pc_other hji] at hj
    rw [h.table_old hs (j := j) (by rw [hj]; rfl)] at hb
    rw [h.table_new hs hji (by rw [hj]; rfl)] at hb'
    exact h.larger j t new c bits bits' hj hb hb'

theorem Load.step (h : Load s) (hs : Step s i e s') : Load s' := by
  refine ⟨h.locks.step hs, fun j n t c bits hj hb => h.small_step hs hj hb,
    fun j t new c bits bits' hj hb hb' => h.larger_step hs hj hb hb', ?_, ?_, ?_⟩
  · rcases hs.count_cases with ⟨hN, -⟩ | ⟨-, hN, -, hpc⟩ | ⟨-, hN, -, htab, hpc⟩
    · rcases h.enough with h0 | hE | ⟨j, hj⟩
      · exact .inl (hN.trans h0)
      · rw [hN]
        exact .inr (.inl (h.enough_step hs hE))
      · by_cases hji : j = i
        · subst hji
          exact .inr ((h.grows hs hN hj).imp_right fun hg => ⟨j, hg⟩)
        · refine .inr (.inr ⟨j, ?_⟩)
          rw [hs.pc_other hji, hN]
          exact hj.congr fun a => h.table_new hs hji
    · refine .inr (.inr ⟨i, ?_⟩)
      rw [hpc, hN]
      exact Nat.le_refl _
    · rcases h.enough with h0 | hE | ⟨j, hj⟩
      · exact .inl (by omega)
      · obtain ⟨t, bits, ht, hb, hle⟩ := h.enough_step hs hE
        refine .inr (.inl ⟨t, bits, ht, hb, Nat.le_trans (Nat.mul_le_mul_left _ ?_) hle⟩)
        omega
      · refine .inr (.inr ⟨j, ?_⟩)
        rw [hpc, htab]
        exact hj.mono (by omega)
  · obtain ⟨l, hnd, hlen, hmem⟩ := h.counted
    rcases hs.count_cases with ⟨hN, hd⟩ | ⟨hpc, hN, hd, -⟩ | ⟨hdata, hN, hd, -⟩
    · rw [hN, hd]
      exact ⟨l, hnd, hlen, hmem⟩
    · have hi : i ∉ l := fun hi => by
        have hfresh := h.fresh i hpc
        rw [(hmem i).1 hi] at hfresh
        cases hfresh
      refine ⟨i :: l, List.nodup_cons.2 ⟨hi, hnd⟩, by rw [hN, List.length_cons, hlen], fun j => ?_⟩
      rw [List.mem_cons, hmem, hd, Function.update_apply]
      split
      · exact iff_of_true (.inl ‹_›) rfl
      · exact or_iff_right ‹_›
    · have hi : i ∈ l := (hmem i).2 hdata
      refine ⟨l.erase i, hnd.erase i, by rw [hN, List.length_erase_of_mem hi, hlen], fun j => ?_⟩
      rw [hnd.mem_erase_iff, hmem, hd, Function.update_apply]
      split
      · exact iff_of_false (fun hj => hj.1 ‹_›) (by rintro ⟨⟩)
      · exact and_iff_right ‹_›
  · intro j hj
    by_cases hji : j = i
    · subst hji
      have hpi : ∀ (s : State) (pc : Pc), (s.goto j pc).pc j = pc := fun s pc => Function.update_self ..
      cases hs with
      | move hm =>
        rw [hpi] at hj
        subst hj
        generalize s.pc j = pc₀ at hm
        cases hm with
        | start hd => exact hd
        | get ht hg => exact absurd rfl (got_ne_count hg)
      | won hpc ht hg | lost hpc ht hg =>
        rw [hpi] at hj
        exact absurd hj (got_ne_count hg)
      | acquire ha =>
        rw [hpi] at hj
        subst hj
        generalize s.pc j = pc₀ at ha
        cases ha
      | release hr =>
        rw [hpi] at hj
        subst hj
        generalize s.pc j = pc₀ at hr
        cases hr
      | exit hpc => cases hpc.symm.trans hj
      | count | alloc | growAlloc | rehash | publish | inside | woken =>
        rw [hpi] at hj
        cases hj
    · rw [hs.pc_other hji] at hj
      have hd := h.fresh j hj
      rcases hs.count_cases with ⟨-, hd'⟩ | ⟨-, -, hd', -⟩ | ⟨-, -, hd', -⟩
      · rw [hd']
        exact hd
      · rw [hd', Function.update_of_ne hji]
        exact hd
      · rw [hd', Function.update_of_ne hji]
        exact hd

theorem load_of_run (h : Run step Any .init s) : Load s := by
  refine h.invariant (P := Load) ?_ fun t a u hload _ hs => hload.step (step_cases hs)
  exact ⟨Locks.init, by rintro i n t c bits ⟨⟩, by rintro i t new c bits bits' ⟨⟩, .inl rfl,
    ⟨[], List.nodup_nil, rfl, fun i => ⟨by rintro ⟨⟩, by rintro ⟨⟩⟩⟩, by rintro i ⟨⟩⟩

theorem Pc.starting_of_grows {table : Addr → Option Nat} {n : Nat} (h : pc.Grows table n) : pc.starting = true := by
  cases pc with
  | get caller | create caller => cases caller <;> first | rfl | exact h.elim
  | growLock | growBack | growMove => rfl
  | _ => exact h.elim

/-- When no thread is in `ThreadData::new`, the table has `LOAD_FACTOR` buckets for each `ThreadData`. -/
theorem load_factor (h : Run step Any .init s) (hs : ∀ i, (s.pc i).starting = false) :
    ∃ l : List Tid, l.Nodup ∧ (∀ i, i ∈ l ↔ s.data i = true) ∧ l.length = s.numThreads ∧
      (l ≠ [] → ∃ t bits, s.hashtable = some t ∧ s.table t = some bits ∧ loadFactor * l.length ≤ 2 ^ bits) := by
  have hload := load_of_run h
  obtain ⟨l, hnd, hlen, hmem⟩ := hload.counted
  refine ⟨l, hnd, hmem, hlen, fun hl => ?_⟩
  rw [hlen]
  rcases hload.enough with h0 | hE | ⟨i, hi⟩
  · rw [h0] at hlen
    exact absurd (List.length_eq_zero_iff.1 hlen) hl
  · exact hE
  · have hst := Pc.starting_of_grows hi
    rw [hs i] at hst
    cases hst

theorem exec_pc_other {l : List Act} (h : exec step Any s l = some s') (hl : ∀ a ∈ l, a.thread ≠ i) :
    s'.pc i = s.pc i := by
  induction l generalizing s with
  | nil =>
    cases h
    rfl
  | cons a l ih =>
    rw [exec, if_pos (show Any s a from trivial)] at h
    obtain ⟨u, hu, h⟩ := Option.bind_eq_some_iff.1 h
    rw [ih h fun b hb => hl b (List.mem_cons_of_mem _ hb)]
    exact (step_cases hu).pc_other (hl a List.mem_cons_self).symm

/-- Thread 5 has grown the table. -/
theorem load_factor_crowd : ∃ s, Run step Any .init s ∧ s.numThreads = 6 ∧ s.hashtable = some 5 ∧
    ∃ l : List Tid, l.Nodup ∧ (∀ i, i ∈ l ↔ s.data i = true) ∧ l.length = 6 := by
  obtain ⟨s, hexec, heq⟩ := Option.map_eq_some_iff.1
    (show (exec step Any .init (crowd 5 53)).map (fun s : State =>
      (s.numThreads, s.hashtable, (List.range 6).all fun i => !(s.pc i).starting)) = some (6, some 5, true) by
      decide +kernel)
  simp only [Prod.mk.injEq, List.all_eq_true, List.mem_range, Bool.not_eq_true'] at heq
  obtain ⟨hN, ht, hpc⟩ := heq
  have hsmall : ∀ a ∈ crowd 5 53, a.thread < 6 := by
    have hall : (crowd 5 53).all (fun a => a.thread < 6) = true := by decide +kernel
    simpa using hall
  obtain ⟨l, hnd, hmem, hlen, -⟩ := load_factor (.of_exec hexec) fun i => by
    by_cases hi : i < 6
    · exact hpc i hi
    · rw [exec_pc_other (i := i) hexec fun a ha hai => hi (hai ▸ hsmall a ha)]
      rfl
  exact ⟨s, .of_exec hexec, hN, ht, l, hnd, hmem, hlen.trans hN⟩

/-- A table that has been in `HASHTABLE` stays as it is for good, and the tables only become larger. -/
theorem table_forever (h : Run step Any .init s) (ht : s.hashtable = some t) (h' : Run step Any s s') :
    ∃ bits, s.table t = some bits ∧ s'.table t = some bits ∧
      ∃ t' bits', s'.hashtable = some t' ∧ s'.table t' = some bits' ∧ bits ≤ bits' := by
  have hload := load_of_run h
  obtain ⟨bits, hb⟩ := Option.ne_none_iff_exists'.1 (hload.locks.cur t ht)
  refine ⟨bits, hb, ?_⟩
  have hinv : Load s' ∧ s'.table t = some bits ∧ (∀ j, (s'.pc j).new ≠ some t) ∧
      ∃ t' bits', s'.hashtable = some t' ∧ s'.table t' = some bits' ∧ bits ≤ bits' := by
    refine h'.invariant (P := fun s' => Load s' ∧ s'.table t = some bits ∧ (∀ j, (s'.pc j).new ≠ some t) ∧
      ∃ t' bits', s'.hashtable = some t' ∧ s'.table t' = some bits' ∧ bits ≤ bits') ?_ ?_
    · exact ⟨hload, hb, fun j hj => (hload.locks.new j t hj).2 ht, t, bits, ht, hb, Nat.le_refl _⟩
    · rintro u a u' ⟨hload, hb, hnew, t', bits', ht', hb', hle⟩ - hs
      have hstep := step_cases hs
      obtain ⟨hsame, hnew'⟩ := hstep.table_same (by rw [hb]; exact Option.some_ne_none _) hnew
      obtain ⟨t₁, bits₁, ht₁, hb₁, hle₁⟩ := hload.current_step hstep ht' hb'
      exact ⟨hload.step hstep, hsame.trans hb, hnew', t₁, bits₁, ht₁, hb₁, Nat.le_trans hle hle₁⟩
  exact ⟨hinv.2.1, hinv.2.2.2⟩

/-- The first table is there still after thread 5 has published a larger one. -/
theorem table_forever_crowd : ∃ s s', Run step Any .init s ∧ s.hashtable = some 0 ∧ Run step Any s s' ∧
    s'.hashtable = some 5 ∧ s'.table 0 = some 4 := by
  obtain ⟨s, hs, heq⟩ := Option.map_eq_some_iff.1
    (show (exec step Any .init (crowd 5 0)).map (fun s : State => (s.hashtable, s.table 0)) =
      some (some 0, some 4) by decide +kernel)
  obtain ⟨s', hs', heq'⟩ := Option.map_eq_some_iff.1
    (show ((exec step Any .init (crowd 5 0)).bind fun s =>
      exec step Any s (List.replicate 53 (.run 5 ⟨5, 1, true, fun _ => 7, false, 2⟩))).map
        (fun s : State => s.hashtable) = some (some 5) by decide +kernel)
  rw [hs, Option.bind_some] at hs'
  obtain ⟨h0, h4⟩ := Prod.mk.inj heq
  obtain ⟨bits, hb, hb', -⟩ := table_forever (.of_exec hs) h0 (.of_exec hs')
  exact ⟨s, s', .of_exec hs, h0, .of_exec hs', heq', hb'.trans (hb.symm.trans h4)⟩

end CoQueue.Mutex.Lot
