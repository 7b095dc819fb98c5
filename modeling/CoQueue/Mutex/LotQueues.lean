import CoQueue.Lib.Files
import CoQueue.Mutex.LotTables

/-!
# The parking lot keeps one queue per key

`Spec` is what the parking lot is for: a queue of threads for every key, and the tokens that have been passed to
threads but not been read yet. In a state of the code, a key has its queue in one bucket (`Placed`): the one its
hash names in the current table, or, while a thread moves the queues, in the new table if its bucket has been
moved already.
-/

namespace CoQueue.Mutex.Lot

open Bucket Linked Schedule

/-! ### What the parking lot is for -/

structure Spec where
  queue : Key → List Tid
  token : Tid → Option UnparkToken

def Spec.empty : Spec := ⟨fun _ => [], fun _ => none⟩

inductive Spec.Step (Q : Spec) : Event → Spec → Prop
  | queued {i : Tid} {key : Key} (hi : ∀ k, i ∉ Q.queue k) (ht : Q.token i = none) :
      Step Q (.queued i key) { Q with queue := Function.update Q.queue key (Q.queue key ++ [i]) }
  | invalid (i : Tid) (key : Key) : Step Q (.invalid i key) Q
  | nobody {key : Key} (hq : Q.queue key = []) : Step Q (.unparked key none ⟨0, false, false⟩) Q
  | unparked {key : Key} {j : Tid} {l : List Tid} (token : UnparkToken) (fair : Bool) (hq : Q.queue key = j :: l) :
      Step Q (.unparked key (some (j, token)) ⟨1, !l.isEmpty, fair⟩)
        ⟨Function.update Q.queue key l, Function.update Q.token j (some token)⟩
  | woken {i : Tid} {token : UnparkToken} (ht : Q.token i = some token) :
      Step Q (.woken i token) { Q with token := Function.update Q.token i none }
  | timedOut {i : Tid} {key : Key} (hi : i ∈ Q.queue key) :
      Step Q (.timedOut i key ((Q.queue key).erase i).isEmpty)
        { Q with queue := Function.update Q.queue key ((Q.queue key).erase i) }

/-- With no event, nothing happens. -/
def Spec.Next (Q : Spec) : Option Event → Spec → Prop
  | none, Q' => Q' = Q
  | some e, Q' => Q.Step e Q'

/-- The events lead from the empty parking lot to `Q`. -/
inductive Spec.Trace : List Event → Spec → Prop
  | nil : Trace [] .empty
  | snoc {l : List Event} {Q Q' : Spec} {e : Event} (h : Trace l Q) (hs : Q.Step e Q') : Trace (l ++ [e]) Q'

/-! ### The threads of a key -/

section
variable {m m' : Mem Entry} {live live' : Entry → Prop} {loc loc' : Key → Entry} {F : Key → List Tid} {i : Tid}
  {key : Key} {b : Entry}

def Filed (m : Mem Entry) (live : Entry → Prop) (loc : Key → Entry) (F : Key → List Tid) : Prop :=
  ∃ L, m.Queues live L ∧ Files (fun i => (m.info i).key) loc L F

theorem Filed.nodup (h : Filed m live loc F) (key : Key) : (F key).Nodup := by
  obtain ⟨L, hQ, hF⟩ := h
  rw [hF.queue]
  refine List.Nodup.filter _ ?_
  by_cases hl : live (loc key)
  · exact (hQ.path _ hl).nodup
  · rw [List.eq_nil_iff_forall_not_mem.2 fun i hi => hl (hQ.sub i _ hi)]
    exact List.nodup_nil

theorem Filed.setNode {d : Node} (h : Filed m live loc F) (hi : ∀ k, i ∉ F k) :
    Filed (m.setNode i d) live loc F := by
  obtain ⟨L, hQ, hF⟩ := h
  have hne : ∀ b, ∀ j ∈ L b, j ≠ i := by
    rintro b j hj rfl
    exact hi _ (hF.mem_key hj)
  refine ⟨L, hQ.congr (fun b j hj => ?_) (fun _ _ => rfl) (fun _ _ => rfl), hF.congr fun b j hj => ?_⟩
  · simp only [Mem.next, Mem.setNode, Function.update_of_ne (hne b j hj)]
  · simp only [Mem.info, Mem.setNode, Function.update_of_ne (hne b j hj)]

theorem Filed.park (h : Filed m live loc F) (hl : live (loc key)) (hi : ∀ k, i ∉ F k) (parkToken : Nat)
    (timeout : Bool) :
    ∃ m', m.park (loc key) i key parkToken timeout = some m' ∧
      Filed m' live loc (Function.update F key (F key ++ [i])) ∧
      m'.info = Function.update m.info i
        { m.info i with parkedWithTimeout := timeout, key, parkToken, futex := 1 } := by
  obtain ⟨L, hQ, hF⟩ := h
  have hiL : ∀ b, i ∉ L b := fun b hb => hi _ (hF.mem_key hb)
  obtain ⟨m', hm, hQ', hinfo, -⟩ := hQ.park hl hiL key parkToken timeout
  refine ⟨m', hm, ⟨_, hQ', ?_⟩, hinfo⟩
  have hkey : (fun j => (m'.info j).key) = Function.update (fun j => (m.info j).key) i key := by
    funext j
    rw [hinfo]
    by_cases hj : j = i
    · subst hj
      rw [Function.update_self, Function.update_self]
    · rw [Function.update_of_ne hj, Function.update_of_ne hj]
  rw [hkey]
  exact hF.snoc hiL

/-- What a function returns with enough fuel is all it can return. -/
theorem fuel_unique {γ : Type} {f : Nat → Option γ} {N n : Nat} {r r' : γ}
    (hmono : ∀ n n' r, n ≤ n' → f n = some r → f n' = some r) (h : ∀ n, N ≤ n → f n = some r)
    (hr : f n = some r') : r' = r := by
  have h1 := hmono n (max N n) r' (Nat.le_max_right N n) hr
  have h2 := h (max N n) (Nat.le_max_left N n)
  exact Option.some.inj (h1.symm.trans h2)

theorem Filed.unparkOne (h : Filed m live loc F) (hl : live (loc key)) (now : Nat)
    (callback : UnparkResult → UnparkToken) :
    ∃ N r, (∀ n, N ≤ n → m.unparkOne (loc key) n now key callback = some r) ∧
      ((F key = [] ∧ r = (m, none, ⟨0, false, false⟩)) ∨
        ∃ j l fair, F key = j :: l ∧ r.2 = (some j, ⟨1, !l.isEmpty, fair⟩) ∧
          Filed r.1 live loc (Function.update F key l) ∧
          r.1.info = Function.update m.info j
            { m.info j with unparkToken := callback ⟨1, !l.isEmpty, fair⟩, futex := 0 }) := by
  obtain ⟨L, hQ, hF⟩ := h
  have hrun := fun n (hn : (L (loc key)).length < n) =>
    hQ.unparkOne key hl hn now callback
  have hfilter : F key = (L (loc key)).filter fun j => (m.node j).key == key := by
    rw [hF.queue]
    rfl
  cases hs : scan (fun j => (m.node j).key == key) (L (loc key)) with
  | none =>
    simp only [hs] at hrun
    refine ⟨_, (m, none, ⟨0, false, false⟩), hrun, .inl ⟨?_, rfl⟩⟩
    rw [hfilter, List.filter_eq_nil_iff]
    intro j hj
    rw [scan_eq_none hs j hj]
    exact Bool.false_ne_true
  | some t =>
    obtain ⟨j, more, rest⟩ := t
    simp only [hs] at hrun
    obtain ⟨l, l', hL, rfl, -, hj, -⟩ := scan_split hs
    obtain ⟨hhead, hmore⟩ := scan_filter hs
    rw [← hfilter] at hhead
    obtain ⟨m', hm', hQ', hinfo, -⟩ := hrun _ (Nat.lt_succ_self _)
    refine ⟨_, _, fun n hn => Mem.unparkOne_mono hn hm', .inr ⟨j, _, _, hhead, by rw [← hmore], ⟨_, hQ', ?_⟩, ?_⟩⟩
    · have hkey : (fun i => (m'.info i).key) = fun i => (m.info i).key := by
        funext k
        rw [hinfo]
        by_cases hk : k = j
        · subst hk
          rw [Function.update_self]
        · rw [Function.update_of_ne hk]
      rw [hkey]
      exact hF.remove hL (eq_of_beq hj)
    · rw [hinfo, ← hmore]

theorem Filed.timedOut (h : Filed m live loc F) (hi : i ∈ F key) :
    ∃ N r, (∀ n, N ≤ n → m.timedOut (loc key) n i key = some r) ∧ r.2 = ((F key).erase i).isEmpty ∧
      Filed r.1 live loc (Function.update F key ((F key).erase i)) ∧ r.1.info = m.info := by
  obtain ⟨L, hQ, hF⟩ := h
  have hkey : (m.info i).key = key := (hF.mem_iff.1 hi).2
  have hiL : i ∈ L (loc key) := by
    rw [hF.queue] at hi
    exact (List.mem_filter.1 hi).1
  obtain ⟨m', hm, hQ', hinfo, -⟩ := hQ.timedOut key (hQ.sub i _ hiL) (Nat.lt_succ_self _) hiL
  refine ⟨_, _, fun n hn => Mem.timeoutLoop_mono hn hm, ?_, ⟨_, hQ', ?_⟩, hinfo⟩
  · rw [hF.queue, List.erase_filter, Bool.eq_iff_iff, Bool.not_eq_true', List.any_eq_false, List.isEmpty_iff,
      List.filter_eq_nil_iff]
    exact forall₂_congr fun j _ => not_congr (beq_iff_eq.trans decide_eq_true_iff.symm)
  · rw [hinfo]
    exact hF.erase hkey

theorem Filed.rehashBucketInto (entry : Nat → Entry) (bits : Nat) (h : Filed m live loc F) (hb : live b)
    (hlive : ∀ key, live (entry (hash key bits)) ∧ entry (hash key bits) ≠ b)
    (hloc : ∀ key, loc' key = if loc key = b then entry (hash key bits) else loc key) :
    ∃ N m', (∀ n, N ≤ n → m.rehashBucketInto n b entry bits = some m') ∧
      Filed m' (fun b' => live b' ∧ b' ≠ b) loc' F ∧ m'.info = m.info := by
  obtain ⟨L, hQ, hF⟩ := h
  obtain ⟨m', hm, hQ', hinfo, -⟩ := hQ.rehashBucketInto entry bits hb hlive (Nat.lt_succ_self _)
  refine ⟨_, m', fun n hn => Mem.rehashLoop_mono hn hm, ⟨_, hQ', ?_⟩, hinfo⟩
  rw [hinfo]
  exact hF.move (fun k => (hlive k).2) hloc

end

/-! ### Where the queue of a key is -/

variable {s s' : State} {Q : Spec} {i j : Tid} {pc : Pc} {t a : Addr} {b : Entry} {e : Option Event}
  {loc loc' : Key → Entry} {live live' : Entry → Prop}

structure Placed (s : State) (loc : Key → Entry) (live : Entry → Prop) : Prop where
  settled : ∀ t bits, s.hashtable = some t → s.table t = some bits → (∀ i new c, s.pc i ≠ .growMove t new c) →
    (∀ key, loc key = (t, hash key bits)) ∧ ∀ c, live (t, c)
  moving : ∀ i t new c bits bits', s.pc i = .growMove t new c → s.table t = some bits → s.table new = some bits' →
    (∀ key, loc key = if hash key bits < c then (new, hash key bits') else (t, hash key bits)) ∧
      (∀ d, c ≤ d → live (t, d)) ∧ ∀ d, live (new, d)
  created : ∀ i caller a, s.pc i = .create caller a → ∀ c, live (a, c)
  table : ∀ b, live b → s.table b.1 ≠ none

theorem Placed.at {bits : Nat} (hp : Placed s loc live) (hl : Locks s) (ht : (s.pc i).current = some t)
    (hi : ∀ t new c, s.pc i ≠ .growMove t new c) (hb : s.table t = some bits) :
    (∀ key, loc key = (t, hash key bits)) ∧ ∀ c, live (t, c) := by
  refine hp.settled t bits (hl.current i t ht) hb fun j new c hj => ?_
  obtain rfl := hl.mover hj (j := i) (by rw [ht]; exact Option.some_ne_none _)
  exact hi t new c hj

theorem Placed.loc_ne (hp : Placed s loc live) (hl : Locks s) (ht : s.hashtable = some t) {caller : Caller}
    (hi : s.pc i = .create caller a) (key : Key) : (loc key).1 ≠ a := by
  have hia : (s.pc i).new = some a := by rw [hi]; rfl
  have hta : t ≠ a := by
    rintro rfl
    exact (hl.new i t hia).2 ht
  obtain ⟨bits, hb⟩ := Option.ne_none_iff_exists'.1 (hl.cur t ht)
  by_cases hmove : ∃ j new c, s.pc j = .growMove t new c
  · obtain ⟨j, new, c, hj⟩ := hmove
    have hjn : (s.pc j).new = some new := by rw [hj]; rfl
    obtain ⟨bits', hb'⟩ := Option.ne_none_iff_exists'.1 (hl.new j new hjn).1
    rw [(hp.moving j t new c bits bits' hj hb hb').1 key]
    split
    · rintro rfl
      obtain rfl := hl.newInj _ i j hia hjn
      cases hi.symm.trans hj
    · exact hta
  · push Not at hmove
    rw [(hp.settled t bits ht hb hmove).1 key]
    exact hta

theorem Placed.same (hp : Placed s loc live) (hpc : s'.pc = Function.update s.pc i pc) (htab : s'.table = s.table)
    (hht : s'.hashtable = s.hashtable) (hi : (s.pc i).new = none) (hnew : pc.new = none) :
    Placed s' loc live where
  settled t bits ht hb hno := by
    rw [hht] at ht
    rw [htab] at hb
    refine hp.settled t bits ht hb fun j new c hj => hno j new c ?_
    rw [hpc, Function.update_of_ne _]
    · exact hj
    · rintro rfl
      rw [hj] at hi
      cases hi
  moving j t new c bits bits' hj hb hb' := by
    rw [htab] at hb hb'
    rw [hpc] at hj
    refine hp.moving j t new c bits bits' (of_update (P := (· = _)) hj ?_).2 hb hb'
    rintro rfl
    cases hnew
  created j caller a hj := by
    rw [hpc] at hj
    refine hp.created j caller a (of_update (P := (· = _)) hj ?_).2
    rintro rfl
    cases hnew
  table b hb := by
    rw [htab]
    exact hp.table b hb

/-! ### The tables change -/

/-- The queues `F` are in the buckets where they belong. -/
def Kept (s : State) (F : Key → List Tid) : Prop := ∃ loc live, Placed s loc live ∧ Filed s.mem live loc F

variable {F : Key → List Tid}

theorem Filed.alloc (h : Filed s.mem live loc F) (hlive : ∀ b, live b → b.1 ≠ a) (numThreads now : Nat) :
    Filed (s.alloc a numThreads now).mem (fun b => live b ∨ b.1 = a) loc F := by
  obtain ⟨L, hQ, hF⟩ := h
  refine ⟨L, ?_, hF⟩
  have hQ' : (s.alloc a numThreads now).mem.Queues live L :=
    hQ.congr (fun _ _ _ => rfl) (fun b hb => if_neg (hlive b hb)) fun b hb => if_neg (hlive b hb)
  refine hQ'.relive (fun b hb => .inl hb) fun b hb hn => ?_
  have hba : b.1 = a := hb.resolve_left hn
  exact ⟨if_pos hba, if_pos hba⟩

theorem alloc_table (ht : s.table t ≠ none) (ha : s.table a = none) (numThreads now : Nat) :
    (s.alloc a numThreads now).table t = s.table t :=
  Function.update_of_ne (by rintro rfl; exact ht ha) _ _

theorem Placed.alloc_table_ne (hp : Placed s loc live) (numThreads now : Nat) (b : Entry)
    (hb : live b ∨ b.1 = a) : (s.alloc a numThreads now).table b.1 ≠ none := by
  show Function.update s.table a (some (hashBits numThreads)) b.1 ≠ none
  rw [Function.update_apply]
  split
  · exact Option.some_ne_none _
  · rename_i hba
    exact hp.table b (hb.resolve_right hba)

theorem Kept.alloc {caller : Caller} (h : Kept s F) (hl : Locks s) (hpc : s.pc i = .get caller)
    (ha : s.table a = none) (numThreads now : Nat) :
    Kept ((s.alloc a numThreads now).goto i (.create caller a)) F := by
  obtain ⟨loc, live, hp, hF⟩ := h
  have hne : ∀ b, live b → b.1 ≠ a := by
    rintro b hb rfl
    exact hp.table b hb ha
  refine ⟨loc, fun b => live b ∨ b.1 = a, ⟨?_, ?_, ?_, hp.alloc_table_ne numThreads now⟩,
    hF.alloc hne numThreads now⟩
  · intro t bits ht hb hno
    have hb' : s.table t = some bits := (alloc_table (hl.cur t ht) ha numThreads now).symm.trans hb
    have hset := hp.settled t bits ht hb' fun j new c hj => hno j new c ?_
    · exact ⟨hset.1, fun c => .inl (hset.2 c)⟩
    · refine (Function.update_of_ne ?_ _ _).trans hj
      rintro rfl
      cases hj.symm.trans hpc
  · intro j t new c bits bits' hj hb hb'
    obtain ⟨-, hj⟩ := of_update (f := s.pc) (P := (· = _)) hj (by rintro ⟨⟩)
    have hold := hl.old j t (by rw [hj]; rfl)
    have hnew := (hl.new j new (by rw [hj]; rfl)).1
    have hmove := hp.moving j t new c bits bits' hj ((alloc_table hold ha numThreads now).symm.trans hb)
      ((alloc_table hnew ha numThreads now).symm.trans hb')
    exact ⟨hmove.1, fun d hd => .inl (hmove.2.1 d hd), fun d => .inl (hmove.2.2 d)⟩
  · intro j caller' a' hj c
    rcases at_update (f := s.pc) (P := (· = _)) hj with ⟨-, hj⟩ | ⟨-, hj⟩
    · cases hj
      exact .inr rfl
    · exact .inl (hp.created j caller' a' hj c)

/-- `compare_exchange` on the null pointer: nobody has parked yet. -/
theorem Kept.won {caller : Caller} {new : Addr} (h : Kept s F) (hl : Locks s) (hpc : s.pc i = .create caller new)
    (ht : s.hashtable = none) (hF : ∀ key, F key = []) (hnew : pc.new = none) :
    Kept ({ s with hashtable := some new }.goto i pc) F := by
  obtain ⟨loc, live, hp, L, hQ, hfiles⟩ := h
  obtain ⟨bits, hb⟩ := Option.ne_none_iff_exists'.1 (hl.new i new (by rw [hpc]; rfl)).1
  refine ⟨fun key => (new, hash key bits), live, ⟨?_, ?_, ?_, hp.table⟩, L, hQ, hfiles.nil hF _⟩
  · rintro t bits' ⟨⟩ hb' -
    cases hb.symm.trans hb'
    exact ⟨fun _ => rfl, hp.created i caller new hpc⟩
  · intro j t new' c bits bits' hj
    obtain ⟨-, hj⟩ := of_update (f := s.pc) (P := (· = _)) hj (by rintro rfl; cases hnew)
    cases ht.symm.trans (hl.current j t (by rw [hj]; rfl))
  · intro j caller' a' hj
    obtain ⟨-, hj⟩ := of_update (f := s.pc) (P := (· = _)) hj (by rintro rfl; cases hnew)
    exact hp.created j caller' a' hj

theorem Kept.lost {caller : Caller} {new : Addr} (h : Kept s F) (hl : Locks s) (hpc : s.pc i = .create caller new)
    (ht : s.hashtable = some t) (hnew : pc.new = none) : Kept ({ s with table := Function.update s.table new none }.goto i pc) F := by
  obtain ⟨loc, live, hp, L, hQ, hfiles⟩ := h
  have hi : (s.pc i).new = some new := by rw [hpc]; rfl
  have hkeep : ∀ t' bits, Function.update s.table new none t' = some bits → t' ≠ new ∧ s.table t' = some bits := by
    intro t' bits hb
    rcases at_update (P := (· = some bits)) hb with ⟨-, hb⟩ | hb
    · cases hb
    · exact hb
  refine ⟨loc, fun b => live b ∧ b.1 ≠ new, ⟨?_, ?_, ?_, ?_⟩, L, ?_, hfiles⟩
  · intro t' bits ht' hb hno
    obtain ⟨hne, hb⟩ := hkeep t' bits hb
    have hset := hp.settled t' bits ht' hb fun j new' c hj => hno j new' c ?_
    · exact ⟨hset.1, fun c => ⟨hset.2 c, hne⟩⟩
    · refine (Function.update_of_ne ?_ _ _).trans hj
      rintro rfl
      cases hj.symm.trans hpc
  · intro j t' new' c bits bits' hj hb hb'
    obtain ⟨-, hj⟩ := of_update (f := s.pc) (P := (· = _)) hj (by rintro rfl; cases hnew)
    obtain ⟨hne, hb⟩ := hkeep t' bits hb
    obtain ⟨hne', hb'⟩ := hkeep new' bits' hb'
    have hmove := hp.moving j t' new' c bits bits' hj hb hb'
    exact ⟨hmove.1, fun d hd => ⟨hmove.2.1 d hd, hne⟩, fun d => ⟨hmove.2.2 d, hne'⟩⟩
  · intro j caller' a' hj c
    obtain ⟨hji, hj'⟩ := of_update (f := s.pc) (P := (· = _)) hj (by rintro rfl; cases hnew)
    refine ⟨hp.created j caller' a' hj' c, ?_⟩
    rintro rfl
    exact hji (hl.newInj _ j i (by rw [hj']; rfl) hi)
  · rintro b ⟨hb, hne⟩
    show Function.update s.table new none b.1 ≠ none
    rw [Function.update_of_ne hne]
    exact hp.table b hb
  · refine hQ.unlive (fun b hb => hb.1) fun j b hj => ⟨hQ.sub j b hj, ?_⟩
    rw [← hfiles.place b j hj]
    exact hp.loc_ne hl ht hpc _

theorem Locks.no_mover (h : Locks s) {numThreads c bits : Nat} (hpc : s.pc i = .growLock numThreads t c)
    (hb : s.table t = some bits) (hle : 2 ^ bits ≤ c) (new : Addr) (d : Nat) : s.pc j ≠ .growMove t new d := by
  intro hj
  have hpos := Nat.two_pow_pos bits
  have hij : i = j := h.holds_inj (b := (t, 0)) (by rw [hpc]; exact ⟨rfl, Nat.lt_of_lt_of_le hpos hle⟩)
    (by rw [hj]; exact ⟨rfl, bits, hb, hpos⟩)
  subst hij
  cases hpc.symm.trans hj

theorem Kept.growAlloc {numThreads c bits : Nat} (h : Kept s F) (hl : Locks s)
    (hpc : s.pc i = .growLock numThreads t c) (hb : s.table t = some bits) (hle : 2 ^ bits ≤ c)
    (ht : s.hashtable = some t) (ha : s.table a = none) (now : Nat) :
    Kept ((s.alloc a numThreads now).goto i (.growMove t a 0)) F := by
  obtain ⟨loc, live, hp, hF⟩ := h
  have hne : ∀ b, live b → b.1 ≠ a := by
    rintro b hb rfl
    exact hp.table b hb ha
  have hmover := fun j => hl.no_mover (j := j) hpc hb hle
  obtain ⟨hloc, hlive⟩ := hp.settled t bits ht hb hmover
  refine ⟨loc, fun b => live b ∨ b.1 = a, ⟨?_, ?_, ?_, hp.alloc_table_ne numThreads now⟩,
    hF.alloc hne numThreads now⟩
  · intro t' bits' ht' _ hno
    cases ht.symm.trans ht'
    exact absurd (Function.update_self ..) (hno i a 0)
  · intro j t' new c' bits₁ bits' hj hb₁ hb'
    rcases at_update (f := s.pc) (P := (· = _)) hj with ⟨-, hj⟩ | ⟨-, hj⟩
    · cases hj
      cases (alloc_table (hl.cur t ht) ha numThreads now).symm.trans hb₁ |>.symm.trans hb
      refine ⟨fun key => ?_, fun d _ => .inl (hlive d), fun d => .inr rfl⟩
      rw [if_neg (Nat.not_lt_zero _)]
      exact hloc key
    · cases ht.symm.trans (hl.current j t' (by rw [hj]; rfl))
      exact absurd hj (hmover j new c')
  · intro j caller' a' hj c
    obtain ⟨-, hj⟩ := of_update (f := s.pc) (P := (· = _)) hj (by rintro ⟨⟩)
    exact .inl (hp.created j caller' a' hj c)

theorem Kept.rehash {new : Addr} {c bits bits' n : Nat} {mem : Mem Entry} (h : Kept s F) (hl : Locks s)
    (hpc : s.pc i = .growMove t new c) (hb : s.table t = some bits) (hb' : s.table new = some bits')
    (hm : s.mem.rehashBucketInto n (t, c) (fun h => (new, h)) bits' = some mem) :
    Kept ({ s with mem }.goto i (.growMove t new (c + 1))) F ∧ mem.info = s.mem.info := by
  obtain ⟨loc, live, hp, hF⟩ := h
  obtain ⟨hloc, hold, hnew⟩ := hp.moving i t new c bits bits' hpc hb hb'
  have hne : new ≠ t := by
    rintro rfl
    exact hl.fresh i i new (by rw [hpc]; rfl) (by rw [hpc]; rfl)
  have hne' : ∀ d d' : Nat, (new, d) ≠ (t, d') := fun d d' heq => hne (congrArg Prod.fst heq)
  -- the keys of bucket `c` get a new place
  have hloc' : ∀ key, (if hash key bits < c + 1 then (new, hash key bits') else (t, hash key bits)) =
      if loc key = (t, c) then (new, hash key bits') else loc key := by
    intro key
    rw [hloc key]
    rcases Nat.lt_trichotomy (hash key bits) c with hlt | heq | hgt
    · rw [if_pos hlt, if_pos (Nat.lt_succ_of_lt hlt), if_neg (hne' _ _)]
    · rw [heq, if_neg (Nat.lt_irrefl c), if_pos (Nat.lt_succ_self c), if_pos rfl]
    · have hne₂ : (t, hash key bits) ≠ (t, c) := fun heq => Nat.ne_of_gt hgt (congrArg Prod.snd heq)
      rw [if_neg (Nat.lt_asymm hgt), if_neg (Nat.not_lt.2 hgt), if_neg hne₂]
  obtain ⟨N, m', hrun, hF', hinfo⟩ := hF.rehashBucketInto (fun h => (new, h)) bits' (hold c (Nat.le_refl c))
    (fun key => ⟨hnew _, hne' _ _⟩) hloc'
  obtain rfl : mem = m' := fuel_unique (fun _ _ _ hn => Mem.rehashLoop_mono hn) hrun hm
  refine ⟨⟨_, _, ⟨?_, ?_, ?_, fun b hb => hp.table b hb.1⟩, hF'⟩, hinfo⟩
  · intro t' bits₁ ht' _ hno
    cases (hl.current i t (by rw [hpc]; rfl)).symm.trans ht'
    exact absurd (Function.update_self ..) (hno i new (c + 1))
  · intro j t' new₁ c' bits₁ bits₂ hj hb₁ hb₂
    rcases at_update (f := s.pc) (P := (· = _)) hj with ⟨-, hj⟩ | ⟨hji, hj⟩
    · cases hj
      cases hb.symm.trans hb₁
      cases hb'.symm.trans hb₂
      refine ⟨fun _ => rfl, fun d hd => ⟨hold d (by omega), ?_⟩, fun d => ⟨hnew d, hne' _ _⟩⟩
      rintro ⟨⟩
      exact Nat.not_succ_le_self _ hd
    · exact absurd (hl.mover hpc (j := j) (by rw [hj]; exact Option.some_ne_none _)) hji
  · intro j caller a hj d
    obtain ⟨-, hj⟩ := of_update (f := s.pc) (P := (· = _)) hj (by rintro ⟨⟩)
    refine ⟨hp.created j caller a hj d, ?_⟩
    rintro ⟨⟩
    exact hl.fresh j i t (by rw [hj]; rfl) (by rw [hpc]; rfl)

theorem Kept.publish {new : Addr} {c bits bits' : Nat} (h : Kept s F) (hl : Locks s)
    (hpc : s.pc i = .growMove t new c) (hb : s.table t = some bits) (hb' : s.table new = some bits')
    (hle : 2 ^ bits ≤ c) : Kept ({ s with hashtable := some new }.goto i (.growUnlock t 0)) F := by
  obtain ⟨loc, live, hp, hF⟩ := h
  obtain ⟨hloc, -, hnew⟩ := hp.moving i t new c bits bits' hpc hb hb'
  refine ⟨loc, live, ⟨?_, ?_, ?_, hp.table⟩, hF⟩
  · rintro t' bits₁ ⟨⟩ hb₁ -
    cases hb'.symm.trans hb₁
    refine ⟨fun key => ?_, hnew⟩
    -- every bucket has been moved
    rw [hloc key, if_pos (Nat.lt_of_lt_of_le (hash_lt key bits) hle)]
  · intro j t' new₁ c' bits₁ bits₂ hj
    obtain ⟨hji, hj⟩ := of_update (f := s.pc) (P := (· = _)) hj (by rintro ⟨⟩)
    exact absurd (hl.mover hpc (j := j) (by rw [hj]; exact Option.some_ne_none _)) hji
  · intro j caller a hj
    obtain ⟨-, hj⟩ := of_update (f := s.pc) (P := (· = _)) hj (by rintro ⟨⟩)
    exact hp.created j caller a hj

end CoQueue.Mutex.Lot
