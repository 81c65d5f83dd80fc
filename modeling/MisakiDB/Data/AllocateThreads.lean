import MisakiDB.Data.FreeSpace
import MisakiDB.Lib.Runs
/-!
# `allocateDataPage` under many threads

The two halves of a call are critical sections of their own: between them other
threads take theirs. The data header counts the pages that were made, and a page is
made when its id is not below the count. So the count speaks of the pages `1` to
`N - 1` only as long as new pages are made in the order of their ids (`InOrder`):
`made_once`.
-/

namespace MisakiDB.AllocateThreads

open Prog PageStore DataFileManager DataAccessor Runs

/-- The pool does not look whether the page of `appendNewPage` exists, and a page that
was skipped in the file reads as zeros. -/
def poolExec : Handler (PageOp PageKey FilePage DataAccessor) PageOp.Res DataStore
  | .appendNewPage k, s => some ((), (s.setPage k default).setPins k (s.pins k + 1))
  | .fetchPage k, s => some ((), (if s.page k = none then s.setPage k default else s).setPins k (s.pins k + 1))
  | o, s => exec o s

/-- Where a thread stands in `allocateDataPage`. -/
inductive Phase
  | idle
  | reserved (dataPageID : PageIDType)
  deriving DecidableEq

structure State (τ : Type) where
  store : DataStore
  phase : τ → Phase

inductive Event (τ : Type)
  | reserve (t : τ) (recordSize : Nat)
  | obtain (t : τ) (dataPageID : PageIDType)
  | write (dataPageID : PageIDType) (page : RawPage)

section
variable {τ : Type} [DecidableEq τ]

/-- One critical section, or a write by a caller to a page that is there. -/
inductive Step (s : State τ) : Event τ → State τ → Prop
  | reserve {t recordSize dataPageID store} : s.phase t = .idle → recordSize ≤ DataFilePage.MAX_RECORD_SIZE →
      run poolExec (DataFileManager.reserve recordSize) s.store = some (dataPageID, store) →
      Step s (.reserve t recordSize) ⟨store, Function.update s.phase t (.reserved dataPageID)⟩
  | obtain {t dataPageID store} : s.phase t = .reserved dataPageID →
      run poolExec (DataFileManager.obtain dataPageID) s.store = some ((), store) →
      Step s (.obtain t dataPageID) ⟨store, Function.update s.phase t .idle⟩
  | write {dataPageID page} : 1 ≤ dataPageID → s.store.page (dataKey dataPageID) ≠ none →
      Step s (.write dataPageID page) ⟨s.store.setPage (dataKey dataPageID) (.data page), s.phase⟩

/-- The step, computed. -/
def State.next (s : State τ) : Event τ → Option (State τ)
  | .reserve t recordSize =>
    if s.phase t = .idle ∧ recordSize ≤ DataFilePage.MAX_RECORD_SIZE then
      (run poolExec (DataFileManager.reserve recordSize) s.store).map
        fun r => ⟨r.2, Function.update s.phase t (.reserved r.1)⟩
    else none
  | .obtain t dataPageID =>
    if s.phase t = .reserved dataPageID then
      (run poolExec (DataFileManager.obtain dataPageID) s.store).map fun r => ⟨r.2, Function.update s.phase t .idle⟩
    else none
  | .write dataPageID page =>
    if 1 ≤ dataPageID ∧ s.store.page (dataKey dataPageID) ≠ none then
      some ⟨s.store.setPage (dataKey dataPageID) (.data page), s.phase⟩
    else none

theorem State.next_step {s s' : State τ} {e : Event τ} (h : s.next e = some s') : Step s e s' := by
  cases e with
  | reserve t recordSize =>
    simp only [State.next] at h
    split at h
    · rename_i hg
      obtain ⟨r, hrun, rfl⟩ := Option.map_eq_some_iff.1 h
      exact .reserve hg.1 hg.2 hrun
    · cases h
  | obtain t dataPageID =>
    simp only [State.next] at h
    split at h
    · rename_i hg
      obtain ⟨r, hrun, rfl⟩ := Option.map_eq_some_iff.1 h
      exact .obtain hg hrun
    · cases h
  | write dataPageID page =>
    simp only [State.next] at h
    split at h
    · rename_i hg
      cases h
      exact .write hg.1 hg.2
    · cases h

/-- A new database, and no call under way. -/
def Init (s : State τ) : Prop := s.store = newDataStore ∧ ∀ t, s.phase t = .idle

/-- The page is made next, or is there. -/
def InOrder (s : State τ) : Event τ → Prop
  | .obtain _ dataPageID => ∀ nextPageID, s.store.page (dataKey 0) = some (.dataHeader nextPageID) →
    dataPageID ≤ nextPageID
  | _ => True

instance (s : State τ) : DecidablePred (InOrder s)
  | .obtain _ dataPageID =>
    decidable_of_iff (∀ nextPageID ∈ pageAs s.store (dataKey 0) FilePage.asDataHeader, dataPageID ≤ nextPageID) (by
      simp only [InOrder, pageAs, Option.mem_def]
      refine ⟨fun h n hn => h n (by rw [hn]; rfl), fun h n hn => ?_⟩
      obtain ⟨p, hp, has⟩ := Option.bind_eq_some_iff.1 hn
      cases p with
      | dataHeader m => exact h n (hp.trans (congrArg _ (congrArg _ (Option.some.inj has))))
      | _ => cases has)
  | .reserve _ _ => .isTrue trivial
  | .write _ _ => .isTrue trivial

/-! ## The invariant -/

/-- The pages below the count are there. -/
structure Counted (s : State τ) (N M : Nat) (book : Nat → FreeSpaceEntry) : Prop where
  idle : Idle s.store
  map : MapFile s.store M book
  data : DataFile s.store N fun _ _ => True
  beyond : ∀ p, covered M < p → book p = .empty
  pos : ∀ t p, s.phase t = .reserved p → 1 ≤ p

variable {s s' : State τ} {N M : Nat} {book : Nat → FreeSpaceEntry}

theorem poolExec_of_exec (o : PageOp PageKey FilePage DataAccessor) (s : DataStore) (r : o.Res × DataStore)
    (h : exec o s = some r) : poolExec o s = some r := by
  cases o with
  | appendNewPage k =>
    simp only [exec] at h
    split at h
    · exact h
    · cases h
  | fetchPage k =>
    simp only [exec, Option.map_eq_some_iff] at h
    obtain ⟨p, hp, rfl⟩ := h
    simp [poolExec, hp]
  | _ => exact h

/-- What total correctness says of the checked pool holds of the pool. -/
theorem pool_run {α : Type} {p : DataProg α} {Q : α → DataStore → Prop} {t t' : DataStore} {a : α} (hp : wp exec p Q t)
    (hr : run poolExec p t = some (a, t')) : Q a t' := by
  obtain ⟨b, u, hrun, hq⟩ := hp
  rw [run_mono poolExec_of_exec hrun, Option.some.injEq, Prod.mk.injEq] at hr
  obtain ⟨rfl, rfl⟩ := hr
  exact hq

omit [DecidableEq τ] in
theorem init_counted (h : Init s) : Counted s 1 1 fun _ => .empty := by
  obtain ⟨hs, hidle⟩ := h
  refine ⟨fun k => by rw [hs]; rfl, by rw [hs]; exact newDataStore_map, by rw [hs]; exact newDataStore_data,
    fun _ _ => rfl, fun t p ht => ?_⟩
  rw [hidle] at ht
  cases ht

/-- What the second half does while ids come in order: the pages that are there stay,
and the page is there. -/
structure Obtained (t t' : DataStore) (p : Nat) : Prop where
  made : ∃ raw, t'.page (dataKey p) = some (.data raw)
  kept : ∀ q, 1 ≤ q → t.page (dataKey q) ≠ none → t'.page (dataKey q) = t.page (dataKey q)
  fresh : ∀ N, t.page (dataKey 0) = some (.dataHeader N) → N ≤ p → t.page (dataKey p) = none

theorem Counted.obtain (h : Counted s N M book) {t : τ} {p : Nat} (hok : InOrder s (.obtain t p)) {store : DataStore}
    (ht : s.phase t = .reserved p) (hrun : run poolExec (DataFileManager.obtain p) s.store = some ((), store)) :
    Obtained s.store store p ∧ Counted ⟨store, Function.update s.phase t .idle⟩ (max N (p + 1)) M book := by
  have hp := h.pos t p ht
  have hN := hok N h.data.header
  obtain ⟨⟨honly, hdata, hkept⟩, hpins, hlatch⟩ :=
    pool_run (wp_and_wlp (obtain_spec h.data h.idle hp hN trivial) (obtain_held p)) hrun
  refine ⟨⟨?_, fun q hq hthere => ?_, fun n hn hle => ?_⟩, ?_, ?_, hdata, h.beyond, fun u q hu => ?_⟩
  · obtain ⟨raw, hraw, -⟩ := hdata.page p hp (lt_of_lt_of_le (Nat.lt_succ_self p) (le_max_right _ _))
    exact ⟨raw, hraw⟩
  · apply hkept q hq
    by_contra hge
    exact hthere (h.data.fresh q (Nat.not_lt.1 hge))
  · rw [h.data.header, Option.some.injEq, FilePage.dataHeader.injEq] at hn
    exact h.data.fresh p (hn ▸ hle)
  · exact fun k => by rw [hlatch]; exact h.idle k
  · exact h.map.frame fun i => honly.1 _ fun j => by simp
  · by_cases hut : u = t
    · simp [hut] at hu
    · exact h.pos u q (by simpa [hut] using hu)

theorem Counted.step (h : Counted s N M book) {e : Event τ} (hok : InOrder s e) (hstep : Step s e s') :
    ∃ N' M' book', Counted s' N' M' book' := by
  cases hstep with
  | @reserve t n p store hidle hn hrun =>
    obtain ⟨⟨hp, -, -, honly, M', hMM', hpM', -, hmap⟩, hheld⟩ :=
      pool_run (wp_and_wlp (reserve_spec h.map h.idle h.beyond) (reserve_held n)) hrun
    refine ⟨N, M', _, hheld.idle h.idle, hmap, h.data.frame fun q => honly.1 _ fun i => by simp, fun q hq => ?_,
      fun u q hu => ?_⟩
    · rw [Function.update_of_ne]
      · exact h.beyond q (lt_of_le_of_lt (covered_mono hMM') hq)
      · rintro rfl
        exact absurd hpM' (Nat.not_le.2 hq)
    · by_cases hut : u = t
      · simp only [hut, Function.update_self, Phase.reserved.injEq] at hu
        exact hu ▸ hp
      · exact h.pos u q (by simpa [hut] using hu)
  | obtain ht hrun => exact ⟨_, _, _, (h.obtain hok ht hrun).2⟩
  | @write p page hp hthere =>
    have hN : p < N := by
      by_contra hge
      exact hthere (h.data.fresh p (Nat.not_lt.1 hge))
    have hpage : (s.store.setPage (dataKey p) (.data page)).page (dataKey p) = some (.data page) := by simp
    exact ⟨N, M, book, h.idle, h.map.frame fun i => by simp, h.data.setPage hp hN hpage trivial (fun _ _ _ _ => trivial)
      fun q hq => by simp [hq], h.beyond, h.pos⟩

/-- While new pages are made in the order of their ids: a page that is returned has
been made, a page that is made was not there, and the other pages stay. -/
theorem made_once (h : Reach Init (Restrict Step InOrder) s) {t : τ} {p : PageIDType} (hok : InOrder s (.obtain t p))
    (hstep : Step s (.obtain t p) s') : Obtained s.store s'.store p := by
  obtain ⟨N, M, book, hc⟩ : ∃ N M book, Counted s N M book := by
    apply Reach.inv (I := fun s => ∃ N M book, Counted s N M book) (fun s hs => ⟨_, _, _, init_counted hs⟩) ?_ h
    rintro s e s' ⟨N, M, book, hc⟩ ⟨hok, hstep⟩
    exact hc.step hok hstep
  cases hstep with
  | obtain ht hrun => exact (hc.obtain hok ht hrun).1

end

def newState (τ : Type) : State τ := ⟨newDataStore, fun _ => .idle⟩

theorem newState_init (τ : Type) : Init (newState τ) := ⟨rfl, fun _ => rfl⟩

/-- Two threads reserve a page each, the first makes page 1 and writes it. -/
def inOrder : List (Event Bool) := [.reserve true 4085, .reserve false 30, .obtain true 1, .write 1 fun _ => 7]

/-- The second makes page 2: it was not there, and what is on page 1 stays. -/
theorem made_once_second : ∃ s s' : State Bool, Step s (.obtain false 2) s' ∧ Obtained s.store s'.store 2 ∧
    (pageAs s'.store (dataKey 1) FilePage.asData).map DataFilePage.m_recordNum = some 1799 := by
  have hrun : ((follow State.next (fun s e => InOrder s e) inOrder (newState Bool)).bind fun s =>
      if InOrder s (.obtain false 2) then (s.next (.obtain false 2)).map (s, ·) else none).any (fun r =>
        (pageAs r.2.store (dataKey 1) FilePage.asData).map DataFilePage.m_recordNum = some 1799) = true := by
    decide +kernel
  obtain ⟨⟨s, s'⟩, hbind, hpage⟩ := (Option.any_eq_true _ _).1 hrun
  obtain ⟨t, hfollow, hlast⟩ := Option.bind_eq_some_iff.1 hbind
  split at hlast
  · rename_i hok
    obtain ⟨u, hnext, htu⟩ := Option.map_eq_some_iff.1 hlast
    cases htu
    have hreach : Reach Init (Restrict Step InOrder) s :=
      reach_of_follow (fun _ _ _ hok hnext => ⟨of_decide_eq_true hok, State.next_step hnext⟩)
        (.start (newState_init _)) hfollow
    have hstep := State.next_step hnext
    exact ⟨s, s', hstep, made_once hreach hok hstep, of_decide_eq_true hpage⟩
  · cases hlast

/-- Two threads reserve the first two pages, and the second makes its page first. The
stores after that, with what the two pages hold. -/
def outOfOrder : Option (List DataStore × List PageIDType × List Bool × List (Option Int)) := do
  let (p₁, s₁) ← run poolExec (DataFileManager.reserve 4085) newDataStore
  let (p₂, s₂) ← run poolExec (DataFileManager.reserve 30) s₁
  let (_, s₃) ← run poolExec (DataFileManager.obtain 2) s₂
  let s₄ := s₃.setPage (dataKey 2) (.data fun _ => 1)
  let (_, s₅) ← run poolExec (DataFileManager.obtain 1) s₄
  let (p₆, s₆) ← run poolExec (DataFileManager.reserve 30) s₅
  let (_, s₇) ← run poolExec (DataFileManager.obtain 2) s₆
  some ([s₁, s₂, s₃, s₄, s₅, s₆, s₇], [p₁, p₂, p₆],
    [(s₃.page (dataKey 2)).isSome, ((s₅.page (dataKey 1)).map fun | .data _ => true | _ => false) == some true],
    [(pageAs s₆ (dataKey 2) FilePage.asData).map DataFilePage.m_recordNum,
      (pageAs s₇ (dataKey 2) FilePage.asData).map DataFilePage.m_recordNum])

/-- Page 1 is returned and was never made; later page 2 is made a second time, and what
was on it is gone. -/
theorem second_page_first : ∃ s s' t t' : State (Fin 2),
    Reach Init Step s ∧ Step s (.obtain 0 1) s' ∧ (¬ ∃ raw, s'.store.page (dataKey 1) = some (.data raw)) ∧
    Reach Init Step t ∧ Step t (.obtain 1 2) t' ∧ t.store.page (dataKey 2) ≠ none ∧
    pageAs t.store (dataKey 2) FilePage.asData ≠ pageAs t'.store (dataKey 2) FilePage.asData := by
  have heval : (outOfOrder.map fun r => (r.2.1, r.2.2.1, r.2.2.2)) =
      some ([1, 2, 2], [true, false], [some 257, some 0]) := by decide +kernel
  simp only [outOfOrder, Option.bind_eq_bind, Option.map_eq_some_iff, Option.bind_eq_some_iff,
    Option.some.injEq] at heval
  obtain ⟨_, ⟨⟨p₁, s₁⟩, h₁, ⟨p₂, s₂⟩, h₂, ⟨_, s₃⟩, h₃, ⟨_, s₅⟩, h₅, ⟨p₆, s₆⟩, h₆, ⟨_, s₇⟩, h₇, rfl⟩, heval⟩ := heval
  simp only [Prod.mk.injEq, List.cons.injEq, and_true] at heval
  obtain ⟨⟨rfl, rfl, rfl⟩, ⟨hthere, hzero⟩, hbefore, hafter⟩ := heval
  let φ₁ := Function.update (newState (Fin 2)).phase 0 (.reserved 1)
  let φ₂ := Function.update φ₁ 1 (.reserved 2)
  let φ₃ := Function.update φ₂ 1 .idle
  let φ₅ := Function.update φ₃ 0 .idle
  let φ₆ := Function.update φ₅ 1 (.reserved 2)
  have e₁ : Step (newState (Fin 2)) (.reserve 0 4085) ⟨s₁, φ₁⟩ := .reserve rfl (by decide) h₁
  have e₂ : Step ⟨s₁, φ₁⟩ (.reserve 1 30) ⟨s₂, φ₂⟩ := .reserve rfl (by decide) h₂
  have e₃ : Step ⟨s₂, φ₂⟩ (.obtain 1 2) ⟨s₃, φ₃⟩ := .obtain rfl h₃
  have e₄ : Step ⟨s₃, φ₃⟩ (.write 2 fun _ => 1) ⟨s₃.setPage (dataKey 2) (.data fun _ => 1), φ₃⟩ :=
    .write (by decide) (Option.isSome_iff_ne_none.1 hthere)
  have e₅ : Step ⟨s₃.setPage (dataKey 2) (.data fun _ => 1), φ₃⟩ (.obtain 0 1) ⟨s₅, φ₅⟩ := .obtain rfl h₅
  have e₆ : Step ⟨s₅, φ₅⟩ (.reserve 1 30) ⟨s₆, φ₆⟩ := .reserve rfl (by decide) h₆
  have e₇ : Step ⟨s₆, φ₆⟩ (.obtain 1 2) ⟨s₇, _⟩ := .obtain rfl h₇
  have r₄ : Reach Init Step ⟨s₃.setPage (dataKey 2) (.data fun _ => 1), φ₃⟩ :=
    .next (.next (.next (.next (.start (newState_init (Fin 2))) e₁) e₂) e₃) e₄
  refine ⟨_, _, _, _, r₄, e₅, ?_, .next (.next r₄ e₅) e₆, e₇, ?_, ?_⟩
  · rintro ⟨raw, hraw⟩
    have hraw' : s₅.page (dataKey 1) = some (.data raw) := hraw
    simp [hraw'] at hzero
  · intro hnone
    have hnone' : s₆.page (dataKey 2) = none := hnone
    simp [pageAs, hnone'] at hbefore
  · intro heq
    have heq' : pageAs s₆ (dataKey 2) FilePage.asData = pageAs s₇ (dataKey 2) FilePage.asData := heq
    rw [heq', hafter] at hbefore
    exact absurd hbefore (by decide)

end MisakiDB.AllocateThreads
