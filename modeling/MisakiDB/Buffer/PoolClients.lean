import MisakiDB.Buffer.PoolInvariant
import MisakiDB.Lib.Runs
import MisakiDB.Globals
/-!
# Clients of the pool, one call at a time

A client that fetched or appended a page holds a pin on it: a `Pin` with the
frame it got and whether it has written the page since. It writes only through
a pin, and the unpin of a pin that has written passes `isDirty = true`. `Step`
is the pool together with such clients and with `content`, the content last
written to every page. `Tracks` ties the two and is kept by every step.
-/

namespace MisakiDB.BufferPoolManager

open Runs

variable {κ π Φ : Type} [DecidableEq κ] [PageFile Φ κ π]

structure Pin (κ : Type) where
  key : κ
  frame : FrameID
  wrote : Bool

structure Clients (κ π : Type) where
  /-- The content last written to each page, `none` for a page that does not exist. -/
  content : κ → Option π
  /-- The pages that were fetched or appended. -/
  seen : κ → Prop
  pins : List (Pin κ)

inductive Call (κ π : Type)
  | fetch (k : κ)
  | append (k : κ)
  | unpin (k : κ) (isDirty : Bool)
  | flush (k : κ)
  | write (k : κ) (data : π)

def Clients.start (φ : Φ) : Clients κ π := ⟨readRawPage φ, fun _ => False, []⟩

def Clients.fetched (c : Clients κ π) (k : κ) : Fetched → Clients κ π
  | .page f => { c with seen := fun q => q = k ∨ c.seen q, pins := ⟨k, f, false⟩ :: c.pins }
  | _ => c

def Clients.appended [Inhabited π] (c : Clients κ π) (k : κ) : Option FrameID → Clients κ π
  | some f =>
    { content := Function.update c.content k (some default)
      seen := fun q => q = k ∨ c.seen q
      pins := ⟨k, f, false⟩ :: c.pins }
  | none => c

/-- One call. A fetch names a page that exists, an append a page never fetched
or appended. An unpin gives back a pin, or names a page nobody has pinned. -/
inductive Step [Inhabited π] : BufferPoolManager κ π Φ × Clients κ π → Call κ π →
    BufferPoolManager κ π Φ × Clients κ π → Prop
  | fetch (s c k) : (c.content k).isSome →
      Step (s, c) (.fetch k) ((s.fetchPage k).2, c.fetched k (s.fetchPage k).1)
  | append (s c k) : ¬ c.seen k →
      Step (s, c) (.append k) ((s.appendNewPage k).2, c.appended k (s.appendNewPage k).1)
  | unpin (s c pre p post d) : c.pins = pre ++ p :: post → (p.wrote = true → d = true) →
      Step (s, c) (.unpin p.key d) ((s.unpinPage p.key d).2, { c with pins := pre ++ post })
  | unpinFree (s c k d) : (∀ p ∈ c.pins, p.key ≠ k) →
      Step (s, c) (.unpin k d) ((s.unpinPage k d).2, c)
  | flush (s c k) : Step (s, c) (.flush k) ((s.flushPage k).2, c)
  | write (s c pre p post data) : c.pins = pre ++ p :: post →
      Step (s, c) (.write p.key data) (s.writeData p.frame data,
        { c with content := Function.update c.content p.key (some data), pins := pre ++ { p with wrote := true } :: post })

/-- The pool over `n` frames and a file `φ`, before any call. -/
def Start [Inhabited π] (n : Nat) (φ : Φ) (x : BufferPoolManager κ π Φ × Clients κ π) : Prop := x = (init n φ, .start φ)

/-! ## The content a client sees -/

/-- The content of page `k`: its frame's if it is resident, the file's if not. -/
def current (s : BufferPoolManager κ π Φ) (k : κ) : Option π :=
  match s.fetchExistentPage k with
  | some f => some (s.pages f).data
  | none => readRawPage s.fileStore k

theorem current_resident {s : BufferPoolManager κ π Φ} {out : Option FrameID} (h : Inv s out) {k : κ} {f : FrameID}
    (hk : (k, f) ∈ s.pageTable) : s.current k = some (s.pages f).data := by
  rw [current, (h.find k f).2 hk]

theorem current_absent {s : BufferPoolManager κ π Φ} {out : Option FrameID} (h : Inv s out) {k : κ}
    (hk : ∀ f, (k, f) ∉ s.pageTable) : s.current k = readRawPage s.fileStore k := by
  rw [current, (h.find_none k).2 hk]

section Lawful
/-- The page in frame `f` can be read back from the file once its frame is
written back, if its dirty bit says so. -/
def Saved (s : BufferPoolManager κ π Φ) (f : FrameID) : Prop :=
  ∀ k, (k, f) ∈ s.pageTable → (s.pages f).isDirty = false → readRawPage s.fileStore k = some (s.pages f).data

/-- Vacating a saved frame changes no content. -/
theorem current_vacated [LawfulPageFile Φ κ π] {s s' : BufferPoolManager κ π Φ} {f : FrameID} (h : Inv s)
    (hv : Vacated s f s')
    (hs : Saved s f) (k : κ) : s'.current k = s.current k := by
  by_cases hk : ∃ g, (k, g) ∈ s.pageTable
  · obtain ⟨g, hk⟩ := hk
    rw [current_resident h hk]
    by_cases hg : g = f
    · subst hg
      have habs : ∀ g', (k, g') ∉ s'.pageTable := by
        intro g' hc
        obtain ⟨hc, hne⟩ := (hv.table _).1 hc
        exact hne (h.frame_inj hc hk)
      rw [current_absent hv.inv habs, hv.file, h.key_eq _ hk]
      cases hd : (s.pages g).isDirty with
      | true => exact LawfulPageFile.read_write_self _ _ _
      | false => exact hs k hk hd
    · rw [current_resident hv.inv ((hv.table _).2 ⟨hk, hg⟩), hv.pages g hg]
  · have hk' : ∀ g, (k, g) ∉ s.pageTable := fun g hc => hk ⟨g, hc⟩
    rw [current_absent h hk', current_absent hv.inv (fun g hc => hk' g ((hv.table _).1 hc).1), hv.file_ne h (hk' f)]

/-! ## The clients and the pool agree -/

/-- The number of pins held on page `k`. -/
def Clients.held (c : Clients κ π) (k : κ) : Nat := c.pins.countP (fun p => p.key = k)

theorem Clients.held_pos {c : Clients κ π} {p : Pin κ} (hp : p ∈ c.pins) : 0 < c.held p.key :=
  List.countP_pos_iff.2 ⟨p, hp, by simp⟩

theorem Clients.held_zero {c : Clients κ π} {k : κ} : c.held k = 0 ↔ ∀ p ∈ c.pins, p.key ≠ k := by
  simp [Clients.held, List.countP_eq_zero]

structure Tracks (s : BufferPoolManager κ π Φ) (c : Clients κ π) : Prop where
  inv : Inv s
  content : ∀ k, c.content k = s.current k
  frame : ∀ p ∈ c.pins, (p.key, p.frame) ∈ s.pageTable
  count : ∀ e ∈ s.pageTable, (s.pages e.2).pinCount = c.held e.1
  saved : ∀ e ∈ s.pageTable, (∀ p ∈ c.pins, p.key = e.1 → p.wrote = false) →
    (s.pages e.2).isDirty = false → readRawPage s.fileStore e.1 = some (s.pages e.2).data
  seen : ∀ e ∈ s.pageTable, c.seen e.1

theorem tracks_start [Inhabited π] (n : Nat) (φ : Φ) : Tracks (init n φ : BufferPoolManager κ π Φ) (.start φ) := by
  refine ⟨inv_init n φ, fun k => ?_, by simp [Clients.start], ?_, ?_, ?_⟩ <;>
    simp [init, Clients.start, current, fetchExistentPage]

section Tracks
variable {s : BufferPoolManager κ π Φ} {c : Clients κ π}

theorem Tracks.saved_unpinned (h : Tracks s c) {f : FrameID} (hf : (s.pages f).pinCount = 0) : Saved s f := by
  intro k hk hd
  refine h.saved _ hk (fun p hp hpk => ?_) hd
  exact absurd hpk (Clients.held_zero.1 ((h.count _ hk).symm.trans hf) p hp)

theorem Tracks.vacated_content [LawfulPageFile Φ κ π] (h : Tracks s c) {f : FrameID} {s' : BufferPoolManager κ π Φ}
    (hv : Vacated s f s')
    (k : κ) : s'.current k = c.content k := by
  rw [h.content, current_vacated h.inv hv (h.saved_unpinned hv.unpinned)]

/-- A page moves into the vacated frame `f` and is handed to a client. -/
theorem Tracks.place [LawfulPageFile Φ κ π] (h : Tracks s c) {f : FrameID} {s' : BufferPoolManager κ π Φ}
    (hv : Vacated s f s') {k : κ}
    (hk : ∀ g, (k, g) ∉ s.pageTable) {p : Page κ π} (hkey : p.key = some k) (hpin : p.pinCount = 1) (φ : Φ)
    (hφ : readRawPage φ k = some p.data) (hne : ∀ q, q ≠ k → readRawPage φ q = readRawPage s'.fileStore q) :
    Tracks (s'.placed k f p φ)
      { content := Function.update c.content k (some p.data)
        seen := fun q => q = k ∨ c.seen q, pins := ⟨k, f, false⟩ :: c.pins } := by
  have hk' : ∀ g, (k, g) ∉ s'.pageTable := fun g hc => hk g ((hv.table _).1 hc).1
  have hinv := hv.inv.place hk' p φ hkey (by omega)
  have hmem := mem_placed k f p φ hk'
  have hkne : ∀ e ∈ s.pageTable, e.1 ≠ k := fun e he hc => hk e.2 (show (k, e.2) ∈ s.pageTable from hc ▸ he)
  have hpins : ∀ q ∈ c.pins, q.key ≠ k ∧ q.frame ≠ f := by
    intro q hq
    have hq' := h.frame q hq
    refine ⟨fun hc => hk q.frame (hc ▸ hq'), fun hc => ?_⟩
    have hc0 : 0 = c.held q.key := by rw [← hv.unpinned, ← hc]; exact h.count _ hq'
    exact absurd (Clients.held_pos hq) (by omega)
  have hpg : ∀ e ∈ s'.pageTable, (s'.placed k f p φ).pages e.2 = s.pages e.2 := fun e he => by
    rw [placed_ne _ _ _ ((hv.table e).1 he).2, hv.pages _ ((hv.table e).1 he).2]
  -- the page placed, or one that keeps its frame, goes through each fact
  refine ⟨hinv, fun q => ?_, fun q hq => ?_, fun e he => ?_, fun e he hw hd => ?_, fun e he => ?_⟩
  · by_cases hq : q = k
    · subst hq
      rw [current_resident hinv ((hmem _).2 (.inl rfl)), placed_self]
      exact Function.update_self _ _ _
    · apply (Function.update_of_ne hq _ _).trans
      rw [← h.vacated_content hv]
      by_cases hr : ∃ g, (q, g) ∈ s'.pageTable
      · obtain ⟨g, hg⟩ := hr
        rw [current_resident hv.inv hg, current_resident hinv ((hmem _).2 (.inr hg)), hpg _ hg,
          hv.pages g ((hv.table _).1 hg).2]
      · have hr' : ∀ g, (q, g) ∉ s'.pageTable := fun g hc => hr ⟨g, hc⟩
        have habs : ∀ g, (q, g) ∉ (s'.placed k f p φ).pageTable := fun g hc =>
          ((hmem _).1 hc).elim (fun hc => hq (congrArg Prod.fst hc)) (hr' g)
        rw [current_absent hv.inv hr', current_absent hinv habs]
        exact (hne q hq).symm
  · rcases List.mem_cons.1 hq with rfl | hq
    · exact (hmem _).2 (.inl rfl)
    · exact (hmem _).2 (.inr ((hv.table _).2 ⟨h.frame q hq, (hpins q hq).2⟩))
  · rcases (hmem _).1 he with rfl | he
    · have h0 : c.held k = 0 := Clients.held_zero.2 fun q hq => (hpins q hq).1
      rw [Clients.held] at h0
      simp [Clients.held, h0, hpin]
    · have he' := ((hv.table e).1 he).1
      rw [hpg e he, h.count e he']
      simp [Clients.held, (hkne e he').symm]
  · rcases (hmem _).1 he with rfl | he
    · rw [placed_self]; exact hφ
    · obtain ⟨he', hef⟩ := (hv.table e).1 he
      rw [hpg e he] at hd ⊢
      rw [← h.saved e he' (fun q hq => hw q (List.mem_cons_of_mem _ hq)) hd]
      refine (hne _ (hkne e he')).trans (hv.file_ne h.inv fun hc => hef ?_)
      exact h.inv.frame_inj he' hc
  · rcases (hmem _).1 he with rfl | he
    · exact .inl rfl
    · exact .inr (h.seen e ((hv.table e).1 he).1)

/-- An operation that touches one resident page `k` and its frame only. -/
theorem Tracks.update (h : Tracks s c) {k : κ} {f : FrameID} (hk : (k, f) ∈ s.pageTable)
    {s' : BufferPoolManager κ π Φ} {p : Page κ π} (hinv : Inv s') (htab : s'.pageTable = s.pageTable)
    (hpg : s'.pages = Function.update s.pages f p)
    (hφ : ∀ q, q ≠ k → readRawPage s'.fileStore q = readRawPage s.fileStore q)
    {c' : Clients κ π} (hcont : c'.content = Function.update c.content k (some p.data))
    (hframe : ∀ q ∈ c'.pins, (q.key, q.frame) ∈ s.pageTable) (hself : p.pinCount = c'.held k)
    (hother : ∀ q, q ≠ k → c'.held q = c.held q) (hkeep : ∀ q ∈ c.pins, q.key ≠ k → q ∈ c'.pins)
    (hsaved : (∀ q ∈ c'.pins, q.key = k → q.wrote = false) → p.isDirty = false →
      readRawPage s'.fileStore k = some p.data)
    (hseen : ∀ q, c.seen q → c'.seen q) : Tracks s' c' := by
  have hne : ∀ e ∈ s.pageTable, e.1 ≠ k → e.2 ≠ f :=
    fun e he hek hc => hek (h.inv.key_inj (show (e.1, f) ∈ _ from hc ▸ he) hk)
  have heq : ∀ e ∈ s.pageTable, e.1 = k → e.2 = f :=
    fun e he hek => h.inv.frame_inj (show (k, e.2) ∈ _ from hek ▸ he) hk
  refine ⟨hinv, fun q => ?_, htab ▸ hframe, fun e he => ?_, fun e he hw hd => ?_,
    fun e he => hseen _ (h.seen e (htab ▸ he))⟩
  · rw [hcont]
    by_cases hq : q = k
    · subst hq
      rw [Function.update_self, current_resident hinv (htab ▸ hk), hpg, Function.update_self]
    · rw [Function.update_of_ne hq, h.content]
      by_cases hr : ∃ g, (q, g) ∈ s.pageTable
      · obtain ⟨g, hg⟩ := hr
        rw [current_resident h.inv hg, current_resident hinv (htab ▸ hg), hpg, Function.update_of_ne (hne _ hg hq)]
      · have hr' : ∀ g, (q, g) ∉ s.pageTable := fun g hc => hr ⟨g, hc⟩
        rw [current_absent h.inv hr', current_absent hinv (htab ▸ hr'), hφ q hq]
  · rw [htab] at he
    rw [hpg]
    by_cases hek : e.1 = k
    · rw [heq e he hek, Function.update_self, hself, hek]
    · rw [Function.update_of_ne (hne e he hek), h.count e he, hother _ hek]
  · rw [htab] at he
    rw [hpg] at hd ⊢
    by_cases hek : e.1 = k
    · rw [heq e he hek, Function.update_self] at hd ⊢
      rw [hek]
      exact hsaved (fun q hq hqk => hw q hq (hqk.trans hek.symm)) hd
    · rw [Function.update_of_ne (hne e he hek)] at hd ⊢
      rw [hφ _ hek]
      exact h.saved e he (fun q hq hqe => hw q (hkeep q hq (hqe ▸ hek)) hqe) hd

/-! ## One call -/

/-- The outcome of a fetch: the frame holds the page's content, or every frame
is pinned. It never throws on a page that exists. -/
theorem Tracks.fetch [LawfulPageFile Φ κ π] (h : Tracks s c) {k : κ} (hk : (c.content k).isSome) :
    Tracks (s.fetchPage k).2 (c.fetched k (s.fetchPage k).1) ∧ (s.fetchPage k).2.poolSize = s.poolSize ∧
      (s.fetchPage k).1 ≠ .threw ∧
      (∀ f, (s.fetchPage k).1 = .page f → c.content k = some ((s.fetchPage k).2.pages f).data) := by
  -- the page is in a frame, is loaded into one, or no frame can be had
  rcases fetchPage_cases h.inv k with ⟨f, hf, e⟩ | ⟨habs, f, s', hv, e⟩ | ⟨-, -, e⟩
  · rw [e]
    obtain ⟨h1, h2, h3, h4, h5⟩ := pinResident_spec h.inv hf
    have hcur : c.content k = some (s.pages f).data := by rw [h.content, current_resident h.inv hf]
    refine ⟨h.update hf h1 h3 h5 (fun q _ => by rw [h4]) ?_ ?_ ?_ ?_ ?_ ?_ ?_, h2, by simp, ?_⟩
    · show c.content = _
      rw [← hcur, Function.update_eq_self]
    · intro q hq
      rcases List.mem_cons.1 hq with rfl | hq
      · exact hf
      · exact h.frame q hq
    · show _ = Clients.held _ k
      rw [h.count _ hf]; simp [Clients.held, Clients.fetched]
    · intro q hq; simp [Clients.held, Clients.fetched, hq.symm]
    · intro q hq _; exact List.mem_cons_of_mem _ hq
    · intro hw hd
      rw [h4]
      exact h.saved _ hf (fun q hq => hw q (List.mem_cons_of_mem _ hq)) hd
    · exact fun q hq => .inr hq
    · rintro g ⟨⟩
      rw [h5, Function.update_self, hcur]
  · have habs' : ∀ g, (k, g) ∉ s'.pageTable := fun g hc => habs g ((hv.table _).1 hc).1
    have hread : readRawPage s'.fileStore k = c.content k := by
      rw [← h.vacated_content hv, current_absent hv.inv habs']
    obtain ⟨d, hd⟩ := Option.isSome_iff_exists.1 hk
    have hst := loadPage_state (s := s') k f
    have hres := loadPage_result (s := s') k f
    rw [hread, hd] at hst hres
    simp only [Option.isSome_some, if_true, Option.getD_some, (hv.inv.out_clean f rfl).2.2.2.1] at hst hres
    rw [e, hres, hst]
    refine ⟨?_, hv.poolSize, by simp, ?_⟩
    · have := h.place hv habs (p := { s'.pages f with key := some k, pinCount := 0 + 1, data := d }) rfl rfl
        s'.fileStore (hread.trans hd) (fun _ _ => rfl)
      simp only [← hd, Function.update_eq_self] at this
      exact this
    · rintro g ⟨⟩
      rw [placed_self, hd]
  · rw [e]
    exact ⟨h, rfl, by simp, by simp⟩

theorem Tracks.append [Inhabited π] [LawfulPageFile Φ κ π] (h : Tracks s c) {k : κ} (hk : ¬ c.seen k) :
    Tracks (s.appendNewPage k).2 (c.appended k (s.appendNewPage k).1) ∧
      (s.appendNewPage k).2.poolSize = s.poolSize := by
  rcases appendNewPage_cases h.inv k with ⟨f, s', hv, e⟩ | ⟨-, e⟩
  · rw [e, newPage_state, (hv.inv.out_clean f rfl).2.2.2.1]
    exact ⟨h.place hv (fun g hg => hk (h.seen _ hg)) rfl rfl _ (LawfulPageFile.read_write_self _ _ _)
      (fun q hq => LawfulPageFile.read_write_ne _ _ _ _ hq), hv.poolSize⟩
  · rw [e]; exact ⟨h, rfl⟩

theorem Tracks.unpin (h : Tracks s c) {pre post : List (Pin κ)} {p : Pin κ} {d : Bool}
    (hp : c.pins = pre ++ p :: post) (hd : p.wrote = true → d = true) :
    Tracks (s.unpinPage p.key d).2 { c with pins := pre ++ post } ∧ (s.unpinPage p.key d).2.poolSize = s.poolSize := by
  have hmem : p ∈ c.pins := by simp [hp]
  have hf := h.frame p hmem
  obtain ⟨h1, h2, h3, h4, h5, -⟩ := unpinPage_spec h.inv hf d
  have hsub : ∀ q ∈ pre ++ post, q ∈ c.pins := by
    intro q hq
    rw [hp]
    rcases List.mem_append.1 hq with hq | hq <;> simp [hq]
  have hheld : ∀ q, c.held q = (⟨c.content, c.seen, pre ++ post⟩ : Clients κ π).held q + if p.key = q then 1 else 0 := by
    intro q
    simp only [Clients.held, hp, List.countP_append, List.countP_cons, decide_eq_true_eq]
    omega
  refine ⟨h.update hf h1 h3 h5 (fun q _ => by rw [h4]) ?_ (fun q hq => h.frame q (hsub q hq)) ?_ (fun q hq => ?_)
    (fun q hq hqk => ?_) (fun hw hdirty => ?_) (fun _ hq => hq), h2⟩
  · have : c.content p.key = some (s.pages p.frame).data := by rw [h.content, current_resident h.inv hf]
    show c.content = Function.update c.content p.key (some (s.pages p.frame).data)
    rw [← this, Function.update_eq_self]
  · show (s.pages p.frame).pinCount - 1 = _
    rw [h.count _ hf, hheld]; simp
  · rw [hheld q, if_neg (Ne.symm hq)]; rfl
  · rw [hp] at hq
    rcases List.mem_append.1 hq with hq | hq
    · exact List.mem_append_left _ hq
    · rcases List.mem_cons.1 hq with rfl | hq
      · exact absurd rfl hqk
      · exact List.mem_append_right _ hq
  · simp only [unpinned, Bool.or_eq_false_iff] at hdirty
    rw [h4]
    refine h.saved _ hf (fun q hq hqk => ?_) hdirty.1
    rw [hp] at hq
    rcases List.mem_append.1 hq with hq | hq
    · exact hw q (List.mem_append_left _ hq) hqk
    · rcases List.mem_cons.1 hq with rfl | hq
      · by_contra hc
        simp [hd (by simpa using hc)] at hdirty
      · exact hw q (List.mem_append_right _ hq) hqk

/-- An unpin of a page nobody has pinned can at most raise its dirty bit. -/
theorem Tracks.unpinFree (h : Tracks s c) {k : κ} {d : Bool} (hk : ∀ p ∈ c.pins, p.key ≠ k) :
    Tracks (s.unpinPage k d).2 c ∧ (s.unpinPage k d).2.poolSize = s.poolSize := by
  by_cases hr : ∃ f, (k, f) ∈ s.pageTable
  · obtain ⟨f, hf⟩ := hr
    obtain ⟨h1, h2, h3, h4, h5, -⟩ := unpinPage_spec h.inv hf d
    have h0 : (s.pages f).pinCount = 0 := (h.count _ hf).trans (Clients.held_zero.2 hk)
    refine ⟨h.update hf h1 h3 h5 (fun q _ => by rw [h4]) ?_ h.frame ?_ (fun _ _ => rfl) (fun _ hq _ => hq)
      (fun hw hdirty => ?_) (fun _ hq => hq), h2⟩
    · have : c.content k = some (s.pages f).data := by rw [h.content, current_resident h.inv hf]
      show c.content = Function.update c.content k (some (s.pages f).data)
      rw [← this, Function.update_eq_self]
    · rw [Clients.held_zero.2 hk]
      show (s.pages f).pinCount - 1 = 0
      omega
    · simp only [unpinned, Bool.or_eq_false_iff] at hdirty
      rw [h4]
      exact h.saved _ hf hw hdirty.1
  · rw [unpinPage_absent h.inv (fun f hc => hr ⟨f, hc⟩)]
    exact ⟨h, rfl⟩

theorem Tracks.flush [LawfulPageFile Φ κ π] (h : Tracks s c) (k : κ) :
    Tracks (s.flushPage k).2 c ∧ (s.flushPage k).2.poolSize = s.poolSize := by
  unfold flushPage flushPage_helper
  cases hk : s.fetchExistentPage k with
  | none => exact ⟨h, rfl⟩
  | some f =>
    have hf := (h.inv.find k f).1 hk
    have hinv := (h.inv.setPage f { s.pages f with isDirty := false } rfl rfl (fun _ => rfl)).setFile
      (writeRawPage s.fileStore k (s.pages f).data)
    refine ⟨h.update hf hinv rfl rfl (fun q hq => LawfulPageFile.read_write_ne _ _ _ _ hq) ?_ h.frame (h.count _ hf)
      (fun _ _ => rfl) (fun _ hq _ => hq) (fun _ _ => LawfulPageFile.read_write_self _ _ _) (fun _ hq => hq), rfl⟩
    have : c.content k = some (s.pages f).data := by rw [h.content, current_resident h.inv hf]
    show c.content = Function.update c.content k (some (s.pages f).data)
    rw [← this, Function.update_eq_self]

theorem Tracks.write (h : Tracks s c) {pre post : List (Pin κ)} {p : Pin κ} (data : π)
    (hp : c.pins = pre ++ p :: post) :
    Tracks (s.writeData p.frame data)
      { c with content := Function.update c.content p.key (some data), pins := pre ++ { p with wrote := true } :: post } := by
  have hmem : p ∈ c.pins := by simp [hp]
  have hf := h.frame p hmem
  have hinv : Inv (s.writeData p.frame data) := h.inv.setPage _ _ rfl rfl (fun hc => by
    rcases hc with hc | hc
    · exact absurd hc (h.inv.not_free hf)
    · cases hc)
  have hheld : ∀ q, (⟨Function.update c.content p.key (some data), c.seen, pre ++ { p with wrote := true } :: post⟩ :
      Clients κ π).held q = c.held q := by
    intro q; simp [Clients.held, hp, List.countP_append, List.countP_cons]
  refine h.update hf hinv rfl rfl (fun _ _ => rfl) rfl (fun q hq => ?_) ((h.count _ hf).trans (hheld _).symm)
    (fun q _ => hheld q) (fun q hq hqk => ?_) (fun hw _ => ?_) (fun _ hq => hq)
  · rcases List.mem_append.1 hq with hq | hq
    · exact h.frame q (by simp [hp, hq])
    · rcases List.mem_cons.1 hq with rfl | hq
      · exact hf
      · exact h.frame q (by simp [hp, hq])
  · rw [hp] at hq
    rcases List.mem_append.1 hq with hq | hq
    · exact List.mem_append_left _ hq
    · rcases List.mem_cons.1 hq with rfl | hq
      · exact absurd rfl hqk
      · exact List.mem_append_right _ (List.mem_cons_of_mem _ hq)
  · exact absurd (hw { p with wrote := true } (by simp) rfl) (by simp)

variable [Inhabited π] [LawfulPageFile Φ κ π]

/-- Every call keeps the clients and the pool in agreement. -/
theorem Tracks.step {x y : BufferPoolManager κ π Φ × Clients κ π} {e : Call κ π} (h : Tracks x.1 x.2)
    (hs : Step x e y) : Tracks y.1 y.2 ∧ y.1.poolSize = x.1.poolSize := by
  cases hs with
  | fetch s c k hk => exact ⟨(h.fetch hk).1, (h.fetch hk).2.1⟩
  | append s c k hk => exact h.append hk
  | unpin s c pre p post d hp hd => exact h.unpin hp hd
  | unpinFree s c k d hk => exact h.unpinFree hk
  | flush s c k => exact h.flush k
  | write s c pre p post data hp => exact ⟨h.write data hp, rfl⟩

theorem tracks_reach {n : Nat} {φ : Φ} {x : BufferPoolManager κ π Φ × Clients κ π} (h : Reach (Start n φ) Step x) :
    Tracks x.1 x.2 ∧ x.1.poolSize = n := by
  refine h.inv (I := fun x => Tracks x.1 x.2 ∧ x.1.poolSize = n) ?_ ?_
  · rintro _ rfl; exact ⟨tracks_start n φ, rfl⟩
  · rintro x e y ⟨hx, hn⟩ hs
    exact ⟨(hx.step hs).1, (hx.step hs).2.trans hn⟩

end Tracks

/-! ## Main theorem -/

/-- Every frame is in exactly one of the free list and the page table; the
table sends each page to one frame and no two pages to the same frame; a
resident frame names its page and is in the replacer exactly when unpinned. -/
structure Consistent (s : BufferPoolManager κ π Φ) : Prop where
  placed : ∀ f < s.poolSize, (f ∈ s.freeList ∧ ∀ k, (k, f) ∉ s.pageTable) ∨ (f ∉ s.freeList ∧ ∃ k, (k, f) ∈ s.pageTable)
  frames_lt : (∀ f ∈ s.freeList, f < s.poolSize) ∧ ∀ e ∈ s.pageTable, e.2 < s.poolSize
  free_once : s.freeList.Nodup
  injective : ∀ k q f, (k, f) ∈ s.pageTable → (q, f) ∈ s.pageTable → k = q
  functional : ∀ k f, (k, f) ∈ s.pageTable ↔ s.fetchExistentPage k = some f
  key_eq : ∀ k f, (k, f) ∈ s.pageTable → (s.pages f).key = some k
  evictable : ∀ k f, (k, f) ∈ s.pageTable → (f ∈ s.replacer.frames ↔ (s.pages f).pinCount = 0)

omit [PageFile Φ κ π] in
theorem Inv.consistent {s : BufferPoolManager κ π Φ} (h : Inv s) : Consistent s where
  placed f hf := by
    by_cases hfree : f ∈ s.freeList
    · exact .inl ⟨hfree, h.apart f hfree⟩
    · rcases h.placed f hf with h' | h' | h'
      · exact absurd h' hfree
      · exact .inr ⟨hfree, h'⟩
      · cases h'
  frames_lt := ⟨h.free_lt, h.table_lt⟩
  free_once := h.free_nodup
  injective _ _ _ := h.key_inj
  functional k f := (h.find k f).symm
  key_eq k f hk := h.key_eq _ hk
  evictable k f hk := (h.evictable f).trans ⟨And.right, fun hp => ⟨⟨k, hk⟩, hp⟩⟩

variable [Inhabited π]

/-- A fetch of a page that is not resident, or an append, finds no frame
exactly when every frame is pinned. -/
theorem nullptr_iff {s : BufferPoolManager κ π Φ} (h : Inv s) (k : κ) :
    (s.fetchExistentPage k = none → ((s.fetchPage k).1 = .nullptr ↔ ∀ f < s.poolSize, 0 < (s.pages f).pinCount)) ∧
    ((s.appendNewPage k).1 = none ↔ ∀ f < s.poolSize, 0 < (s.pages f).pinCount) := by
  have hvac : ∀ f s', Vacated s f s' → ¬ ∀ f < s.poolSize, 0 < (s.pages f).pinCount := fun f s' hv hc => by
    have := hc f (hv.poolSize ▸ (hv.inv.out_clean f rfl).1)
    rw [hv.unpinned] at this
    exact Nat.lt_irrefl _ this
  refine ⟨fun habs => ?_, ?_⟩
  · rcases fetchPage_cases h k with ⟨f, hf, e⟩ | ⟨-, f, s', hv, e⟩ | ⟨-, hp, e⟩
    · rw [(h.find k f).2 hf] at habs; cases habs
    · rw [e, loadPage_result]
      refine ⟨fun hc => ?_, fun hc => absurd hc (hvac f s' hv)⟩
      split at hc <;> cases hc
    · rw [e]; exact ⟨fun _ => hp, fun _ => rfl⟩
  · rcases appendNewPage_cases h k with ⟨f, s', hv, e⟩ | ⟨hp, e⟩
    · rw [e]; exact ⟨fun hc => by simp at hc, fun hc => absurd hc (hvac f s' hv)⟩
    · rw [e]; exact ⟨fun _ => hp, fun _ => rfl⟩

/-- In every state the calls reach: a fetch of an existing page never throws
and the frame it returns holds the content last written to the page; the
bookkeeping is consistent; and no frame is found exactly when all are
pinned. -/
theorem pool_serves_last_written [LawfulPageFile Φ κ π] {n : Nat} {φ : Φ}
    {s : BufferPoolManager κ π Φ} {c : Clients κ π}
    (h : Reach (Start n φ) Step (s, c)) :
    (∀ k, (c.content k).isSome → (s.fetchPage k).1 ≠ .threw ∧
      ∀ f, (s.fetchPage k).1 = .page f → c.content k = some ((s.fetchPage k).2.pages f).data) ∧
    s.poolSize = n ∧ Consistent s ∧
    (∀ k, s.fetchExistentPage k = none →
      ((s.fetchPage k).1 = .nullptr ↔ ∀ f < s.poolSize, 0 < (s.pages f).pinCount)) ∧
    (∀ k, (s.appendNewPage k).1 = none ↔ ∀ f < s.poolSize, 0 < (s.pages f).pinCount) := by
  obtain ⟨ht, hn⟩ := tracks_reach h
  exact ⟨fun k hk => ⟨(ht.fetch hk).2.2.1, (ht.fetch hk).2.2.2⟩, hn, ht.inv.consistent,
    fun k => (nullptr_iff ht.inv k).1, fun k => (nullptr_iff ht.inv k).2⟩

/-- A data file with one page. -/
def headerFile : MemFile PageKey Nat := ⟨fun k => if k = (.DATA, 0) then some 7 else none⟩

/-- A one-frame pool over it, whose frame an append has pinned. -/
def fullPool : BufferPoolManager PageKey Nat (MemFile PageKey Nat) :=
  ((init 1 headerFile).appendNewPage (.DATA, 1)).2

/-- The theorem at the full pool: a fetch of the file's page finds no frame. -/
theorem pool_serves_last_written_full : Consistent fullPool ∧ (fullPool.fetchPage (.DATA, 0)).1 = .nullptr := by
  have h : Reach (Start 1 headerFile) Step (fullPool, (Clients.start headerFile).appended (.DATA, 1) (some 0)) :=
    .next (.start rfl) (.append _ _ _ (by simp [Clients.start]))
  obtain ⟨-, -, hc, hn, -⟩ := pool_serves_last_written h
  exact ⟨hc, (hn (.DATA, 0) (by decide)).2 (by decide)⟩

end Lawful

end MisakiDB.BufferPoolManager
