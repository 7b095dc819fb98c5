import CoQueue.Mutex.LotRefines
import CoQueue.Mutex.Whole

/-!
# The mutex on the parking lot refines `RawMutex`

In `RawMutex`, `park` and `unpark_one` are single steps on a hash table of lists. Here they are the code of the
parking lot, with its locks, its pointers and its tables. `Sim s a Q` relates the two: `Q` are the queues of the
keys and the tokens, as the parking lot has them (`Lot.Inv`) and as the table of lists has them (`Files`), and
the words, the places in the code and the `resources` are the same. The table of lists need not grow.

`Sim.step`: a step of the mutex on the parking lot is a step of `RawMutex`, or it is none there: what a thread does
between the call of the parking lot and the section under the lock of the bucket, and behind it, is not seen.
-/

namespace CoQueue.Mutex.Whole

open Schedule Linked
open Lot (Choice Event Spec)

variable {s s' : State} {a a' : Mutex.State} {Q Q' : Spec} {i j : Tid} {key : Key} {pc pc' : Pc}
  {l l' : Lot.State} {lpc : Lot.Pc}

/-! ### Where a thread is in the parking lot -/

def sleeping : Pc → Bool
  | .asleep _ _ => true
  | _ => false

/-- A thread at `pc` has called for `work`. -/
def Serves (pc : Pc) (key : Key) : Lot.Work → Prop
  | .park _ timeout => timeout = false ∧ ∃ wait, pc = .slowPark key wait
  | .unpark => pc = .unlockSlow key
  | .expire => False

def Calls (pc : Pc) : Lot.Caller → Prop
  | .grow _ => sleeping pc = false
  | .lock key work => Serves pc key work
  | .relock => False

/-- A thread that is at `pc` in the mutex may be there in the parking lot. -/
def Fits (pc : Pc) : Lot.Pc → Prop
  | .get caller | .create caller _ => Calls pc caller
  | .lock key work _ | .check key work _ | .back key work _ | .inside key work _ => Serves pc key work
  | .leave _ (some timeout) | .asleep timeout => timeout = false ∧ sleeping pc = true
  | _ => sleeping pc = false

theorem Serves.awake {work : Lot.Work} (h : Serves pc key work) : sleeping pc = false ∧ work ≠ .expire := by
  cases work with
  | park =>
    obtain ⟨-, wait, rfl⟩ := h
    exact ⟨rfl, by rintro ⟨⟩⟩
  | unpark =>
    cases h
    exact ⟨rfl, by rintro ⟨⟩⟩
  | expire => exact h.elim

theorem Calls.awake {caller : Lot.Caller} (h : Calls pc caller) :
    sleeping pc = false ∧ caller.todo ≠ some .expire := by
  cases caller with
  | grow => exact ⟨h, by rintro ⟨⟩⟩
  | lock key work =>
    obtain ⟨hp, hw⟩ := Serves.awake h
    exact ⟨hp, fun heq => hw (Option.some.inj heq)⟩
  | relock => exact h.elim

theorem Fits.sleeping_iff (h : Fits pc lpc) : sleeping pc = true ↔ lpc.todo = some .expire := by
  have hawake : sleeping pc = false ∧ lpc.todo ≠ some .expire → (sleeping pc = true ↔ lpc.todo = some .expire) := by
    rintro ⟨hp, ht⟩
    exact iff_of_false (by rw [hp]; exact Bool.false_ne_true) ht
  cases lpc with
  | get | create => exact hawake (Calls.awake h)
  | lock | check | back | inside =>
    obtain ⟨hp, hw⟩ := Serves.awake h
    exact hawake ⟨hp, fun heq => hw (Option.some.inj heq)⟩
  | leave b sleep =>
    cases sleep with
    | none => exact hawake ⟨h, by rintro ⟨⟩⟩
    | some => exact iff_of_true h.2 rfl
  | asleep => exact iff_of_true h.2 rfl
  | _ => exact hawake ⟨h, by rintro ⟨⟩⟩

theorem Fits.got {t : Lot.Addr} {caller : Lot.Caller} (h : Calls pc caller) (hg : l.got i t caller = some lpc) :
    Fits pc lpc := by
  cases caller with
  | grow numThreads =>
    obtain ⟨bits, -, rfl⟩ := Option.map_eq_some_iff.1 hg
    split <;> exact h
  | lock key work =>
    cases hg
    exact h
  | relock => exact h.elim

/-- Between the call and the section under the lock of the bucket, and behind it. -/
theorem Fits.silent (hs : Lot.Step l i none l') (hi : l.pc i ≠ .idle) (h : Fits pc (l.pc i)) :
    Fits pc (l'.pc i) := by
  have hgoto : ∀ (l : Lot.State) (lpc : Lot.Pc), (l.goto i lpc).pc i = lpc := fun _ _ => Function.update_self ..
  generalize he : (none : Option Event) = e at hs
  cases hs with
  | inside | woken => cases he
  | exit hpc => exact absurd hpc hi
  | move hm =>
    rw [hgoto]
    generalize l.pc i = lpc₀ at hm hi h
    cases hm with
    | start | park | unparkOne => exact absurd rfl hi
    | get ht hg => exact Fits.got h hg
    | stale | again | grown => exact h
    | enter | wrong => exact h
    | expired => cases h.1
  | acquire ha =>
    rw [hgoto]
    generalize l.pc i = lpc₀ at ha h
    cases ha with
    | growLock | lock => exact h
  | release hr =>
    rw [hgoto]
    generalize l.pc i = lpc₀ at hr h
    cases hr with
    | growBack | growUnlock | sleep | leave => exact h
    | back key work b =>
      cases work with
      | park | unpark => exact h
      | expire => exact h.elim
  | count hpc =>
    rw [hpc] at h
    rw [hgoto]
    exact h
  | alloc hpc | growAlloc hpc | rehash hpc | publish hpc =>
    rw [hpc] at h
    rw [hgoto]
    exact h
  | won hpc ht hg | lost hpc ht hg =>
    rw [hpc] at h
    rw [hgoto]
    exact Fits.got h hg

/-! ### The relation -/

structure Sim (s : State) (a : Mutex.State) (Q : Spec) : Prop where
  lot : Lot.Inv s.lot Q
  fits : ∀ i, Fits (s.pc i) (s.lot.pc i)
  word : a.word = s.word
  pc : a.pc = s.pc
  resources : ∀ i, (a.thread i).resources = s.resources i
  files : Files (fun i => (a.thread i).key) a.table.bucket a.table.queue Q.queue
  token : ∀ i k, Q.token i = some k ↔
    sleeping (s.pc i) = true ∧ (a.thread i).futex = 0 ∧ (a.thread i).unparkToken = k

theorem Sim.setWord (h : Sim s a Q) (key : Key) (state : UInt8) :
    Sim (s.setWord key state) (a.setWord key state) Q := by
  refine ⟨h.lot, h.fits, ?_, h.pc, h.resources, h.files, h.token⟩
  show Function.update a.word key state = Function.update s.word key state
  rw [h.word]

theorem Sim.no_token (h : Sim s a Q) (hi : sleeping (s.pc i) = false) : Q.token i = none := by
  refine Option.eq_none_iff_forall_ne_some.2 fun k hk => ?_
  have hs := ((h.token i k).1 hk).1
  rw [hi] at hs
  cases hs

theorem Sim.fits_goto (h : Sim s a Q) (hother : ∀ j, j ≠ i → l.pc j = s.lot.pc j) (hfits : Fits pc (l.pc i))
    (j : Tid) : Fits (Function.update s.pc i pc j) (l.pc j) := by
  by_cases hji : j = i
  · subst hji
    rw [Function.update_self]
    exact hfits
  · rw [Function.update_of_ne hji, hother j hji]
    exact h.fits j

/-- The parking lot has changed its state without a change of the queues, and thread `i` goes on awake. -/
theorem Sim.move (h : Sim s a Q) (hinv : Lot.Inv l Q') (hqueue : Q'.queue = Q.queue) (htoken : Q'.token i = none)
    (hsame : ∀ j, j ≠ i → Q'.token j = Q.token j) (hother : ∀ j, j ≠ i → l.pc j = s.lot.pc j)
    (hpc : sleeping pc = false) (hfits : Fits pc (l.pc i)) :
    Sim ({ s with lot := l }.goto i pc) (a.goto i pc) Q' := by
  have hgoto : ∀ j, j ≠ i → Function.update s.pc i pc j = s.pc j := fun j hji => Function.update_of_ne hji _ _
  refine ⟨hinv, h.fits_goto hother hfits, h.word, ?_, h.resources, ?_, fun j k => ?_⟩
  · show Function.update a.pc i pc = Function.update s.pc i pc
    rw [h.pc]
  · rw [hqueue]
    exact h.files
  · show Q'.token j = some k ↔ sleeping (Function.update s.pc i pc j) = true ∧ _
    by_cases hji : j = i
    · subst hji
      rw [htoken, Function.update_self, hpc]
      exact iff_of_false (by rintro ⟨⟩) (by rintro ⟨⟨⟩, -⟩)
    · rw [hsame j hji, hgoto j hji]
      exact h.token j k

theorem Sim.goto (h : Sim s a Q) (hl : s.lot.pc i = .idle) (hpc : sleeping pc = false) :
    Sim (s.goto i pc) (a.goto i pc) Q := by
  have hi : sleeping (s.pc i) = false := by
    have hfits := h.fits i
    rw [hl] at hfits
    exact hfits
  refine h.move h.lot rfl (h.no_token hi) (fun _ _ => rfl) (fun _ _ => rfl) hpc ?_
  rw [hl]
  exact hpc

theorem Sim.setResources {d : ThreadData} {resources : List Key} (h : Sim s a Q) (hd : d.resources = resources)
    (hkey : d.key = (a.thread i).key) (hfutex : d.futex = (a.thread i).futex)
    (htoken : d.unparkToken = (a.thread i).unparkToken) :
    Sim (s.setResources i resources) (a.setThread i d) Q := by
  refine ⟨h.lot, h.fits, h.word, h.pc, fun j => ?_, ?_, fun j k => ?_⟩
  · show (Function.update a.thread i d j).resources = Function.update s.resources i resources j
    by_cases hji : j = i
    · subst hji
      rw [Function.update_self, Function.update_self]
      exact hd
    · rw [Function.update_of_ne hji, Function.update_of_ne hji]
      exact h.resources j
  · refine h.files.congr fun b j _ => ?_
    exact update_same (F := ThreadData.key) hkey j
  · rw [h.token j k]
    show _ ↔ sleeping (s.pc j) = true ∧ (Function.update a.thread i d j).futex = 0 ∧
      (Function.update a.thread i d j).unparkToken = k
    rw [update_same (F := ThreadData.futex) hfutex j, update_same (F := ThreadData.unparkToken) htoken j]

theorem Sim.silent (h : Sim s a Q) (hs : Lot.Step s.lot i none l) (hfits : Fits (s.pc i) (l.pc i)) :
    Sim { s with lot := l } a Q := by
  refine ⟨h.lot.silent hs, fun j => ?_, h.word, h.pc, h.resources, h.files, h.token⟩
  by_cases hji : j = i
  · subst hji
    exact hfits
  · show Fits (s.pc j) (l.pc j)
    rw [hs.pc_other hji]
    exact h.fits j

theorem Sim.withThreadData (h : Sim s a Q) (hl : s.lot.pc i = .idle) : Sim (s.withThreadData i) a Q := by
  unfold State.withThreadData
  split
  · exact h
  · rename_i hd
    refine h.silent (i := i) (.move ?_) ?_
    · rw [hl]
      exact .start (Bool.not_eq_true _ ▸ hd)
    · have hfits := h.fits i
      rw [hl] at hfits
      rw [show (s.lot.goto i .count).pc i = .count from Function.update_self ..]
      exact hfits

theorem Sim.acquire (h : Sim s a Q) (hl : s.lot.pc i = .idle) : Sim (s.acquire i key) (a.acquire i key) Q := by
  have hres : ((a.thread i).acquireResource key).resources = s.resources i ++ [key] := by
    rw [ThreadData.acquireResource, h.resources]
  exact ((h.setResources (i := i) hres rfl rfl rfl).goto hl rfl).withThreadData hl

/-! ### The sections under the lock of a bucket -/

theorem Sim.queued {wait : Nat} (h : Sim s a Q) (hpc : s.pc i = .slowPark key wait)
    (hw : s.word key = lockedBit ||| parkedBit) (hi : ∀ k, i ∉ Q.queue k)
    (hinv : Lot.Inv l { Q with queue := Function.update Q.queue key (Q.queue key ++ [i]) })
    (hother : ∀ j, j ≠ i → l.pc j = s.lot.pc j) (hfits : Fits (.asleep key wait) (l.pc i)) :
    Sim ({ s with lot := l }.goto i (.asleep key wait)) (a.park i key wait)
      { Q with queue := Function.update Q.queue key (Q.queue key ++ [i]) } := by
  have hgoto : ∀ j, j ≠ i → Function.update s.pc i (.asleep key wait) j = s.pc j :=
    fun j hji => Function.update_of_ne hji _ _
  rw [State.park, if_pos (by rw [h.word]; exact hw)]
  generalize hd : ({ a.thread i with key, futex := 1 } : ThreadData) = d
  have hkey : d.key = key := by rw [← hd]
  have hfutex : d.futex = 1 := by rw [← hd]
  have hres : d.resources = (a.thread i).resources := by rw [← hd]
  refine ⟨hinv, h.fits_goto hother hfits, h.word, ?_, fun j => ?_, ?_, fun j k => ?_⟩
  · show Function.update a.pc i (.asleep key wait) = Function.update s.pc i (.asleep key wait)
    rw [h.pc]
  · show (Function.update a.thread i d j).resources = s.resources j
    rw [update_same (F := ThreadData.resources) hres j, h.resources]
  · have hnot : ∀ b, i ∉ a.table.queue b := fun b hb => hi _ (h.files.mem_key hb)
    have hkeys : (fun j => (Function.update a.thread i d j).key) =
        Function.update (fun j => (a.thread j).key) i key := by
      funext j
      by_cases hji : j = i
      · subst hji
        rw [Function.update_self, Function.update_self, hkey]
      · rw [Function.update_of_ne hji, Function.update_of_ne hji]
    have hsnoc := h.files.snoc (k := key) hnot
    rw [← hkeys] at hsnoc
    exact hsnoc
  · show Q.token j = some k ↔ sleeping (Function.update s.pc i (.asleep key wait) j) = true ∧
      (Function.update a.thread i d j).futex = 0 ∧ (Function.update a.thread i d j).unparkToken = k
    by_cases hji : j = i
    · subst hji
      rw [h.no_token (by rw [hpc]; rfl), Function.update_self, Function.update_self, hfutex]
      exact iff_of_false (by rintro ⟨⟩) fun hj => Nat.one_ne_zero hj.2.1
    · rw [hgoto j hji, Function.update_of_ne hji]
      exact h.token j k

theorem Sim.filter_eq (h : Sim s a Q) (key : Key) :
    ((a.table.queue (a.table.bucket key)).filter fun j => (a.thread j).key == key) = Q.queue key := by
  rw [h.files.queue]
  rfl

theorem Sim.nobody (h : Sim s a Q) (hq : Q.queue key = []) (fair : Bool) :
    a.unparkOne key fair = a.setWord key (unlockCallback (a.word key) ⟨0, false, false⟩).1 := by
  have hfilter := h.filter_eq key
  cases hs : scan (fun j => (a.thread j).key == key) (a.table.queue (a.table.bucket key)) with
  | none => simp only [State.unparkOne, hs]
  | some r =>
    obtain ⟨j, more, rest⟩ := r
    rw [(Bucket.scan_filter hs).1, hq] at hfilter
    cases hfilter

theorem Sim.unparked {q : List Tid} (h : Sim s a Q) (hq : Q.queue key = j :: q) (fair : Bool)
    (hpc : s.pc i = .unlockSlow key) {res : UInt8 × UnparkToken}
    (hres : res = unlockCallback (s.word key) ⟨1, !q.isEmpty, fair⟩)
    (hinv : Lot.Inv l ⟨Function.update Q.queue key q, Function.update Q.token j (some res.2)⟩)
    (hother : ∀ k, k ≠ i → l.pc k = s.lot.pc k) (hfits : Fits .idle (l.pc i)) :
    Sim (({ s with lot := l }.setWord key res.1).goto i .idle) ((a.unparkOne key fair).goto i .idle)
      ⟨Function.update Q.queue key q, Function.update Q.token j (some res.2)⟩ := by
  have hfilter := h.filter_eq key
  have hj : sleeping (s.pc j) = true := by
    rw [(h.fits j).sleeping_iff]
    exact ((h.lot.queued j key).1 (by rw [hq]; exact List.mem_cons_self)).1
  have hji : j ≠ i := by
    rintro rfl
    rw [hpc] at hj
    cases hj
  have hgoto : ∀ k, k ≠ i → Function.update s.pc i .idle k = s.pc k := fun k hk => Function.update_of_ne hk _ _
  cases hs : scan (fun j => (a.thread j).key == key) (a.table.queue (a.table.bucket key)) with
  | none =>
    have hmem : j ∈ (a.table.queue (a.table.bucket key)).filter fun j => (a.thread j).key == key := by
      rw [hfilter, hq]
      exact List.mem_cons_self
    obtain ⟨hmem, hkey⟩ := List.mem_filter.1 hmem
    rw [scan_eq_none hs j hmem] at hkey
    cases hkey
  | some r =>
    obtain ⟨j', more, rest⟩ := r
    obtain ⟨hhead, hmore⟩ := Bucket.scan_filter hs
    rw [hfilter, hq] at hhead
    obtain ⟨rfl, rfl⟩ := List.cons.inj hhead
    obtain ⟨q₁, q₂, hsplit, rfl, -, hjk, -⟩ := Bucket.scan_split hs
    simp only [State.unparkOne, hs]
    rw [hmore, h.word, ← hres]
    generalize hd : ({ a.thread j with unparkToken := res.2, futex := 0 } : ThreadData) = d
    have hkey : d.key = (a.thread j).key := by rw [← hd]
    have hfutex : d.futex = 0 := by rw [← hd]
    have htoken : d.unparkToken = res.2 := by rw [← hd]
    have hresources : d.resources = (a.thread j).resources := by rw [← hd]
    refine ⟨hinv, h.fits_goto hother hfits, rfl, ?_, fun k => ?_, ?_, fun k t => ?_⟩
    · show Function.update a.pc i .idle = Function.update s.pc i .idle
      rw [h.pc]
    · show (Function.update a.thread j d k).resources = s.resources k
      rw [update_same (F := ThreadData.resources) hresources k, h.resources]
    · have hremove := h.files.remove hsplit (eq_of_beq hjk)
      refine hremove.congr fun b k _ => ?_
      exact update_same (F := ThreadData.key) hkey k
    · show Function.update Q.token j (some res.2) k = some t ↔ sleeping (Function.update s.pc i .idle k) = true ∧
        (Function.update a.thread j d k).futex = 0 ∧ (Function.update a.thread j d k).unparkToken = t
      by_cases hkj : k = j
      · subst hkj
        rw [Function.update_self, Function.update_self, hgoto k hji, hj, hfutex, htoken, Option.some.injEq]
        exact ⟨fun ht => ⟨rfl, rfl, ht⟩, fun ht => ht.2.2⟩
      · rw [Function.update_of_ne hkj, Function.update_of_ne hkj, h.token k t]
        by_cases hki : k = i
        · subst hki
          rw [hpc, Function.update_self]
          exact Iff.rfl
        · rw [hgoto k hki]

/-! ### Every step -/

/-- The section of `park` or `unpark_one` is a step of `RawMutex`. -/
theorem Sim.inside {x : Choice} {work : Lot.Work} {b : Lot.Entry} {mem : Bucket.Mem Lot.Entry} {e : Event}
    {sleep : Option Bool} (h : Sim s a Q) (hl : s.lot.pc i = .inside key work b)
    (hw : s.lot.work i (s.closures x (s.pc i)) key b work = some (mem, e, sleep)) :
    ∃ fair a' Q', Mutex.step a (.run i false fair) = some a' ∧
      Sim ({ s with lot := { s.lot with mem }.goto i (.leave b sleep) }.returned i (s.pc i) e) a' Q' := by
  have hfits := h.fits i
  rw [hl] at hfits
  obtain ⟨Q', hinv, hnext⟩ := h.lot.step (.inside hl hw (h.lot.locks.old i b.1 (by rw [hl]; rfl)))
  have hother : ∀ j, j ≠ i → ({ s.lot with mem }.goto i (.leave b sleep)).pc j = s.lot.pc j :=
    fun j hji => Function.update_of_ne hji _ _
  have hleave : ({ s.lot with mem }.goto i (.leave b sleep)).pc i = .leave b sleep := Function.update_self ..
  generalize { s.lot with mem }.goto i (.leave b sleep) = l at hinv hother hleave ⊢
  cases work with
  | park parkToken timeout =>
    obtain ⟨rfl, wait, hp⟩ := hfits
    rw [hp] at hw ⊢
    have hrun : ∀ fair, Mutex.step a (.run i false fair) = some (a.park i key wait) := by
      intro fair
      show Mutex.stepPc a i false fair (a.pc i) = _
      rw [h.pc, hp]
      rfl
    rw [Lot.State.work] at hw
    split at hw
    · rename_i hv
      obtain ⟨m, hm, heq⟩ := Option.map_eq_some_iff.1 hw
      cases heq
      cases hnext with
      | queued hi ht =>
        refine ⟨false, _, _, hrun false, h.queued hp (eq_of_beq hv) hi hinv hother ?_⟩
        rw [hleave]
        exact ⟨rfl, rfl⟩
    · rename_i hv
      cases hw
      cases hnext with
      | invalid =>
        refine ⟨false, _, Q, hrun false, ?_⟩
        have hne : a.word key ≠ lockedBit ||| parkedBit := by
          rw [h.word]
          exact fun heq => hv (beq_iff_eq.2 heq)
        rw [State.park, if_neg hne]
        refine h.move hinv rfl (h.no_token (by rw [hp]; rfl)) (fun _ _ => rfl) hother rfl ?_
        rw [hleave]
        rfl
  | unpark =>
    have hp : s.pc i = .unlockSlow key := hfits
    have hrun : ∀ fair, Mutex.step a (.run i false fair) = some ((a.unparkOne key fair).goto i .idle) := by
      intro fair
      show Mutex.stepPc a i false fair (a.pc i) = _
      rw [h.pc, hp]
      rfl
    rw [hp] at hw ⊢
    rw [Lot.State.work] at hw
    obtain ⟨⟨m, target, result⟩, -, heq⟩ := Option.map_eq_some_iff.1 hw
    cases heq
    have hidle : Fits .idle (l.pc i) := by
      rw [hleave]
      rfl
    cases target with
    | none =>
      cases hnext with
      | nobody hq =>
        refine ⟨false, _, Q, hrun false, ?_⟩
        rw [h.nobody hq, h.word]
        exact (h.setWord key _).move hinv rfl (h.no_token (by rw [hp]; rfl)) (fun _ _ => rfl) hother rfl hidle
    | some j =>
      cases hnext with
      | unparked token fair hq => exact ⟨fair, _, _, hrun fair, h.unparked hq fair hp rfl hinv hother hidle⟩
  | expire => exact hfits.elim

theorem Sim.woken {timeout : Bool} (h : Sim s a Q) (hl : s.lot.pc i = .asleep timeout)
    (hf : (s.lot.mem.node i).futex = 0) :
    ∃ a' Q', Mutex.step a (.run i false false) = some a' ∧
      Sim ({ s with lot := s.lot.goto i .idle }.returned i (s.pc i)
        (.woken i (s.lot.mem.node i).unparkToken)) a' Q' := by
  have hfits := h.fits i
  rw [hl] at hfits
  obtain ⟨key, wait, hp⟩ : ∃ key wait, s.pc i = .asleep key wait := by
    obtain ⟨-, hs⟩ := hfits
    cases hp : s.pc i with
    | asleep key wait => exact ⟨key, wait, rfl⟩
    | _ =>
      rw [hp] at hs
      cases hs
  obtain ⟨Q', hinv, hnext⟩ := h.lot.step (.woken hl hf)
  have hother : ∀ j, j ≠ i → (s.lot.goto i .idle).pc j = s.lot.pc j := fun j hji => Function.update_of_ne hji _ _
  have hidle : (s.lot.goto i .idle).pc i = .idle := Function.update_self ..
  generalize (s.lot.mem.node i).unparkToken = token at hnext ⊢
  generalize s.lot.goto i .idle = l at hinv hother hidle ⊢
  cases hnext with
  | woken ht =>
    obtain ⟨-, hf', ht'⟩ := (h.token i token).1 ht
    -- the thread goes on to any place where it is awake
    have hmove : ∀ pc, sleeping pc = false → Sim ({ s with lot := l }.goto i pc) (a.goto i pc)
        { Q with token := Function.update Q.token i none } := by
      intro pc hpc
      refine h.move hinv rfl (Function.update_self ..) (fun j hji => Function.update_of_ne hji _ _) hother hpc ?_
      rw [hidle]
      exact hpc
    have hrun : Mutex.step a (.run i false false) = if token = tokenHandoff then some (a.acquire i key)
        else some (a.goto i (.slowLoad key (spin wait).1)) := by
      show Mutex.stepPc a i false false (a.pc i) = _
      rw [h.pc, hp]
      show (if (a.thread i).futex ≠ 0 then none else if (a.thread i).unparkToken = tokenHandoff then _ else _) = _
      rw [if_neg (not_not.2 hf'), ht']
    rw [hrun, hp, State.returned]
    by_cases hh : token = tokenHandoff
    · rw [if_pos hh, if_pos hh]
      have hres : ((a.thread i).acquireResource key).resources = s.resources i ++ [key] := by
        rw [ThreadData.acquireResource, h.resources]
      exact ⟨_, { Q with token := Function.update Q.token i none }, rfl,
        ((hmove .idle rfl).setResources (i := i) hres rfl rfl rfl).withThreadData (i := i) hidle⟩
    · rw [if_neg hh, if_neg hh]
      exact ⟨_, _, rfl, hmove _ rfl⟩

theorem Sim.runLot {x : Choice} (h : Sim s a Q) (hi : s.lot.pc i ≠ .idle) (hs : s.runLot i x = some s') :
    Sim s' a Q ∨ ∃ fair a' Q', Mutex.step a (.run i false fair) = some a' ∧ Sim s' a' Q' := by
  obtain ⟨l, hl, heq⟩ := Option.map_eq_some_iff.1 hs
  have hstep : Lot.Step s.lot i (Lot.event s.lot (.run i (s.closures x (s.pc i)))) l := Lot.step_cases hl
  cases he : Lot.event s.lot (.run i (s.closures x (s.pc i))) with
  | none =>
    rw [he] at heq hstep
    subst heq
    exact .inl (h.silent hstep (Fits.silent hstep hi (h.fits i)))
  | some e =>
    rw [he] at heq hstep
    subst heq
    right
    cases hstep with
    | @inside key work b x' mem e sleep hpc hw hb =>
      obtain ⟨bits, hb⟩ := Option.ne_none_iff_exists'.1 hb
      -- what is done depends on the closures
      have hl' : ((s.lot.work i (s.closures x (s.pc i)) key b work).map fun r =>
          ({ s.lot with mem := r.1 }.goto i (.leave b r.2.2) : Lot.State)) =
          some ({ s.lot with mem }.goto i (.leave b sleep)) := by
        rw [← hl]
        show _ = Lot.stepPc s.lot i _ (s.lot.pc i)
        rw [hpc, Lot.stepPc, hb, Option.bind_some]
      obtain ⟨r, hw', hr⟩ := Option.map_eq_some_iff.1 hl'
      have hev : Lot.event s.lot (.run i (s.closures x (s.pc i))) = some r.2.1 := by
        simp only [Lot.event, hpc, hw', Option.map_some]
      obtain rfl : e = r.2.1 := Option.some.inj (he.symm.trans hev)
      have hsim := h.inside hpc hw'
      rw [hr] at hsim
      exact hsim
    | woken hpc hf => exact ⟨false, h.woken hpc hf⟩

theorem sleeping_slowLoop (key : Key) (wait : Nat) (state : UInt8) : sleeping (slowLoop key wait state) = false := by
  unfold slowLoop
  split
  · rfl
  · split
    · rfl
    · split <;> rfl

theorem sleeping_tryLoop (key : Key) (state : UInt8) : sleeping (tryLoop key state) = false := by
  unfold tryLoop
  split <;> rfl

theorem Sim.exchange {c : Prop} [Decidable c] {t t' : State} {b b' : Mutex.State}
    (hs : (if c then some t else some t') = some s') (ht : Sim t b Q) (ht' : Sim t' b' Q) :
    ∃ a', (if c then some b else some b') = some a' ∧ Sim s' a' Q := by
  split at hs
  · rename_i hc
    cases hs
    exact ⟨b, if_pos hc, ht⟩
  · rename_i hc
    cases hs
    exact ⟨b', if_neg hc, ht'⟩

theorem Sim.call {act : Lot.Act} {lpc : Lot.Pc} (h : Sim s a Q) (hact : act.thread = i)
    (hs : Lot.step s.lot act = some l) (he : Lot.event s.lot act = none) (hl : l.pc i = lpc)
    (hfits : Fits (s.pc i) lpc) : Sim { s with lot := l } a Q := by
  have hstep := Lot.step_cases hs
  rw [hact, he] at hstep
  exact h.silent hstep (by rw [hl]; exact hfits)

/-- An access of the mutex itself; or the call of the parking lot, which `RawMutex` does not see. -/
theorem Sim.stepPc {spurious : Bool} (h : Sim s a Q) (hl : s.lot.pc i = .idle)
    (hs : stepPc s i spurious (s.pc i) = some s') :
    Sim s' a Q ∨ ∃ a', Mutex.step a (.run i spurious false) = some a' ∧ Sim s' a' Q := by
  have hrun : Mutex.step a (.run i spurious false) = Mutex.stepPc a i spurious false (s.pc i) := by
    show Mutex.stepPc a i spurious false (a.pc i) = _
    rw [h.pc]
  have hgoto : ∀ lpc, (s.lot.goto i lpc).pc i = lpc := fun lpc => Function.update_self ..
  rw [hrun]
  cases hpc : s.pc i with
  | idle | asleep =>
    rw [hpc] at hs
    cases hs
  | lockFast key =>
    rw [hpc] at hs
    rw [Mutex.stepPc, h.word]
    exact .inr (Sim.exchange hs ((h.setWord key _).acquire hl) (h.goto hl rfl))
  | slowLoad key wait =>
    rw [hpc] at hs
    cases hs
    rw [Mutex.stepPc, h.word]
    exact .inr ⟨_, rfl, h.goto hl (sleeping_slowLoop ..)⟩
  | slowBarge key wait state =>
    rw [hpc] at hs
    rw [Mutex.stepPc, h.word]
    exact .inr (Sim.exchange hs ((h.setWord key _).acquire hl) (h.goto hl (sleeping_slowLoop ..)))
  | slowMark key wait state =>
    rw [hpc] at hs
    rw [Mutex.stepPc, h.word]
    exact .inr (Sim.exchange hs ((h.setWord key _).goto hl rfl) (h.goto hl (sleeping_slowLoop ..)))
  | slowPark key wait =>
    rw [hpc] at hs
    obtain ⟨l, hstep, rfl⟩ := Option.map_eq_some_iff.1 hs
    split at hstep
    · rename_i hd
      have heq : s.lot.goto i (.get (.lock key (.park 0 false))) = l :=
        Option.some.inj ((if_pos ⟨hl, hd⟩).symm.trans hstep)
      exact .inl (h.call (i := i) rfl hstep rfl (by rw [← heq, hgoto]) (by rw [hpc]; exact ⟨rfl, wait, rfl⟩))
    · rename_i hd
      have heq : s.lot.goto i .count = l :=
        Option.some.inj ((if_pos ⟨hl, Bool.eq_false_iff.2 hd⟩).symm.trans hstep)
      exact .inl (h.call (i := i) rfl hstep rfl (by rw [← heq, hgoto]) (by rw [hpc]; rfl))
  | unlockFast key =>
    rw [hpc] at hs
    rw [Mutex.stepPc, h.word]
    exact .inr (Sim.exchange hs ((h.setWord key _).goto hl rfl) (h.goto hl rfl))
  | unlockSlow key =>
    rw [hpc] at hs
    obtain ⟨l, hstep, rfl⟩ := Option.map_eq_some_iff.1 hs
    have heq : s.lot.goto i (.get (.lock key .unpark)) = l := Option.some.inj ((if_pos hl).symm.trans hstep)
    exact .inl (h.call (i := i) rfl hstep rfl (by rw [← heq, hgoto]) (by rw [hpc]; rfl))
  | tryLoad key =>
    rw [hpc] at hs
    cases hs
    rw [Mutex.stepPc, h.word]
    exact .inr ⟨_, rfl, h.goto hl (sleeping_tryLoop ..)⟩
  | tryMark key state =>
    rw [hpc] at hs
    rw [Mutex.stepPc, h.word]
    exact .inr (Sim.exchange hs ((h.setWord key _).acquire hl) (h.goto hl (sleeping_tryLoop ..)))

theorem enter_eq (hs : s.enter i pc = some s') : s.pc i = .idle ∧ s.lot.pc i = .idle ∧ s' = s.goto i pc := by
  unfold State.enter at hs
  split at hs
  · rename_i hc
    cases hs
    exact ⟨hc.1, hc.2, rfl⟩
  · cases hs

/-- A step is one of `RawMutex`, or none. -/
theorem Sim.step {act : Act} (h : Sim s a Q) (hu : endsFree s act) (hs : step s act = some s') :
    Sim s' a Q ∨ ∃ b a' Q', ((holderUnlocks s act → Mutex.holderUnlocks a b) ∧ (noTry act → Mutex.noTry b)) ∧
      Mutex.step a b = some a' ∧ Sim s' a' Q' := by
  have henter : ∀ {i pc}, s.pc i = .idle → a.enter i pc = some (a.goto i pc) := by
    intro i pc hpc
    rw [Mutex.State.enter, h.pc, if_pos hpc]
  cases act with
  | lock i key =>
    obtain ⟨hpc, hl, rfl⟩ := enter_eq hs
    exact .inr ⟨.lock i key, _, Q, ⟨fun _ => trivial, fun _ => trivial⟩, henter hpc, h.goto hl rfl⟩
  | tryLock i key =>
    obtain ⟨hpc, hl, rfl⟩ := enter_eq hs
    exact .inr ⟨.tryLock i key, _, Q, ⟨fun _ => trivial, id⟩, henter hpc, h.goto hl rfl⟩
  | unlock i key =>
    obtain ⟨t, ht, rfl⟩ := Option.map_eq_some_iff.1 hs
    obtain ⟨hpc, hl, rfl⟩ := enter_eq ht
    have hres : ((a.thread i).releaseResource key).resources = releaseResource (s.resources i) key :=
      congrArg (releaseResource · key) (h.resources i)
    refine .inr ⟨.unlock i key, _, Q, ⟨fun hmem => ?_, fun _ => trivial⟩, by rw [Mutex.step, henter hpc]; rfl,
      ((h.goto hl rfl).setResources hres rfl rfl rfl).withThreadData hl⟩
    show key ∈ (a.thread i).resources
    rw [h.resources]
    exact hmem
  | exit i =>
    left
    simp only [Whole.step] at hs
    split at hs
    · rename_i hpc
      obtain ⟨l, hl, rfl⟩ := Option.map_eq_some_iff.1 hs
      have hfits := h.fits i
      have hres : s.resources i = [] := hu
      have hsame : Function.update s.resources i [] = s.resources := by
        rw [← hres, Function.update_eq_self]
      have hpcs : l.pc = s.lot.pc := by
        simp only [Lot.step] at hl
        split at hl <;> cases hl
        rfl
      have hsim := h.call (i := i) rfl hl rfl (congrFun hpcs i) hfits
      show Sim { s with lot := l, resources := Function.update s.resources i [] } a Q
      rw [hsame]
      exact hsim
    · cases hs
  | run i spurious x =>
    simp only [Whole.step] at hs
    split at hs
    · rename_i hl
      rcases h.stepPc hl hs with hsim | ⟨a', ha, hsim⟩
      · exact .inl hsim
      · exact .inr ⟨.run i spurious false, a', Q, ⟨fun _ => trivial, fun _ => trivial⟩, ha, hsim⟩
    · rename_i hl
      rcases h.runLot hl hs with hsim | ⟨fair, a', Q', ha, hsim⟩
      · exact .inl hsim
      · exact .inr ⟨.run i false fair, a', Q', ⟨fun _ => trivial, fun _ => trivial⟩, ha, hsim⟩

theorem Sim.init : Sim .init .init .empty where
  lot := .init
  fits _ := rfl
  word := rfl
  pc := rfl
  resources _ := rfl
  files := ⟨by rintro b i ⟨⟩, fun _ => rfl⟩
  token i k := ⟨by rintro ⟨⟩, by rintro ⟨⟨⟩, -⟩⟩

end CoQueue.Mutex.Whole
