import MisakiDB.Buffer.Tidy
/-!
# Pages that a program does not read

Clients may let go as clean a page that they changed, when the program under study
only pins the page and never reads it. Two pools are `Alike` if they differ on such
pages and in nothing else, and a pool `Shadows` a store if one like it matches the
store. A program that keeps its promises and stays off the unread pages runs on the
shadow as on the store, unless the pool evicts a spared page with its changes:
`Shadows.run`.
-/

namespace MisakiDB

open Prog

section
variable {κ π ρ : Type} {unread spared : κ → Bool} {c d c' : Cache κ π ρ} {k : κ}

/-- Where a page is in two pools. Its frame may hold something else in each if nobody
reads it, and a page in a frame is in its file. -/
structure AlikeAt (unread : Bool) (f g : Option (Frame π)) (x y : Option π) : Prop where
  same : unread = false → g = f ∧ y = x
  pins : g.map Frame.pinCount = f.map Frame.pinCount
  filed : y.isSome = x.isSome
  kept : f.isSome = true → x.isSome = true

structure Alike (unread : κ → Bool) (c d : Cache κ π ρ) : Prop where
  pages : ∀ k, AlikeAt (unread k) (c.frame k) (d.frame k) (c.file k) (d.file k)
  latch : d.latch = c.latch
  member : d.member = c.member
  time : d.time = c.time

/-- The programs that read none of them. -/
def Unread (unread : κ → Bool) : PageOp κ π ρ → Prop
  | .getData k => unread k = false
  | _ => True

namespace Alike

theorem refl (hkept : ∀ k, (c.frame k).isSome = true → (c.file k).isSome = true) : Alike unread c c :=
  ⟨fun k => ⟨fun _ => ⟨rfl, rfl⟩, rfl, rfl, hkept k⟩, rfl, rfl, rfl⟩

theorem frame_none (h : Alike unread c d) : d.frame k = none ↔ c.frame k = none := by
  have hpins := (h.pages k).pins
  cases hc : c.frame k <;> cases hd : d.frame k <;> simp [hc, hd] at hpins ⊢

theorem frame_some (h : Alike unread c d) {f : Frame π} (hf : c.frame k = some f) :
    ∃ g, d.frame k = some g ∧ g.pinCount = f.pinCount ∧ (unread k = false → g = f) := by
  have hk := h.pages k
  rcases hd : d.frame k with _ | g
  · rw [h.frame_none.1 hd] at hf
    cases hf
  · refine ⟨g, rfl, ?_, fun hu => ?_⟩
    · simpa [hf, hd] using hk.pins
    · simpa [hf, hd] using (hk.same hu).1

theorem loses (h : Alike unread c d) (hk : unread k = false) : d.loses k = c.loses k := by
  unfold Cache.loses
  rw [((h.pages k).same hk).1]

variable [DecidableEq κ]

theorem setFrame (h : Alike unread c d) {f g : Frame π} (hpins : g.pinCount = f.pinCount)
    (hsame : unread k = false → g = f)
    (hfile : (c.file k).isSome = true) : Alike unread (c.setFrame k f) (d.setFrame k g) := by
  refine ⟨fun x => ?_, h.latch, h.member, h.time⟩
  have hx := h.pages x
  by_cases hxk : x = k
  · subst hxk
    refine ⟨fun hu => ⟨?_, (hx.same hu).2⟩, ?_, hx.filed, fun _ => hfile⟩
    · simp [Cache.setFrame, hsame hu]
    · simp [Cache.setFrame, hpins]
  · simpa [Cache.setFrame, hxk] using hx

theorem setFile (h : Alike unread c d) (k : κ) (p : π) : Alike unread (c.setFile k p) (d.setFile k p) := by
  refine ⟨fun x => ?_, h.latch, h.member, h.time⟩
  have hx := h.pages x
  by_cases hxk : x = k
  · subst hxk
    refine ⟨fun hu => ⟨(hx.same hu).1, ?_⟩, hx.pins, ?_, fun _ => ?_⟩ <;> simp [Cache.setFile]
  · simpa [Cache.setFile, hxk] using hx

theorem setLatch (h : Alike unread c d) (k : κ) (l : Latch) : Alike unread (c.setLatch k l) (d.setLatch k l) :=
  ⟨h.pages, by simp [Cache.setLatch, h.latch], h.member, h.time⟩

theorem free (h : Alike unread c d) {f g : Frame π} (hf : c.frame k = some f) (hg : d.frame k = some g)
    (hsame : unread k = false → g = f) : Alike unread (c.free k f) (d.free k g) := by
  refine ⟨fun x => ?_, h.latch, h.member, h.time⟩
  have hx := h.pages x
  by_cases hxk : x = k
  · subst hxk
    have hkept := hx.kept (by simp [hf])
    have hkept' : (d.file x).isSome = true := hx.filed.trans hkept
    have hc : ((c.free x f).file x).isSome = true := by
      unfold Cache.free
      cases f.isDirty <;> simp [hkept]
    have hd : ((d.free x g).file x).isSome = true := by
      unfold Cache.free
      cases g.isDirty <;> simp [hkept']
    refine ⟨fun hu => ⟨by simp [Cache.free], ?_⟩, by simp [Cache.free], hd.trans hc.symm, fun _ => hc⟩
    rw [hsame hu]
    unfold Cache.free
    cases f.isDirty
    · exact (hx.same hu).2
    · simp
  · have hother : ∀ (e : Cache κ π ρ) (f : Frame π), (e.free k f).file x = e.file x := fun e f => by
      unfold Cache.free
      cases f.isDirty <;> simp [hxk]
    rw [hother, hother]
    simpa [Cache.free, hxk] using hx

theorem evict (h : Alike unread c d) (k : κ) : Alike unread (c.evict k) (d.evict k) := by
  unfold Cache.evict
  rcases hf : c.frame k with _ | f
  · rw [h.frame_none.2 hf]
    exact h
  · obtain ⟨g, hg, hpins, hsame⟩ := h.frame_some hf
    simp only [hg, hpins]
    split
    · exact h.free hf hg hsame
    · exact h

theorem evictAll (h : Alike unread c d) (ks : List κ) : Alike unread (c.evictAll ks) (d.evictAll ks) := by
  have hfold : Alike unread (ks.foldl Cache.evict c) (ks.foldl Cache.evict d) := by
    induction ks generalizing c d with
    | nil => exact h
    | cons k ks ih => exact ih (h.evict k)
  exact ⟨hfold.pages, hfold.latch, hfold.member, congrArg (· + 1) h.time⟩

variable [Inhabited π] {choose : Nat → List κ}

omit [DecidableEq κ] [Inhabited π] in
theorem stopped (h : Alike unread c d) (hspared : ∀ k, spared k = true → unread k = false) (o : PageOp κ π ρ) :
    d.stopped spared choose o = c.stopped spared choose o := by
  have hany : ((choose d.time).any fun x => spared x && d.loses x) =
      (choose c.time).any fun x => spared x && c.loses x := by
    rw [h.time]
    congr 1
    funext x
    cases hs : spared x
    · rfl
    · rw [h.loses (hspared x hs)]
  cases o <;> simp only [Cache.stopped, hany]

/-- Whatever dirty flag each is given. -/
theorem unpin (h : Alike unread c d) (hk : unread k = true) (b b' : Bool)
    (hc : Cache.exec choose (.unpinPage k b) c = some ((), c')) :
    ∃ d', Cache.exec choose (.unpinPage k b') d = some ((), d') ∧ Alike unread c' d' := by
  simp only [Cache.exec] at hc ⊢
  rcases hf : c.frame k with _ | f
  · simp [hf] at hc
  obtain ⟨g, hg, hpins, -⟩ := h.frame_some hf
  simp only [hf] at hc
  split at hc
  · rename_i hpos
    obtain rfl := (Prod.mk.inj (Option.some.inj hc)).2
    simp only [hg, if_pos (hpins ▸ hpos)]
    refine ⟨_, rfl, h.setFrame (congrArg (· - 1) hpins) ?_ ((h.pages k).kept (by simp [hf]))⟩
    simp [hk]
  · cases hc

theorem step (h : Alike unread c d) {o : PageOp κ π ρ} (ho : Unread unread o) {r : o.Res}
    (hc : Cache.exec choose o c = some (r, c')) : ∃ d', Cache.exec choose o d = some (r, d') ∧ Alike unread c' d' := by
  cases o with
  | fetchPage k =>
    have he := h.evictAll (choose c.time)
    simp only [Cache.exec, h.time] at hc ⊢
    generalize c.evictAll (choose c.time) = e at he hc
    generalize d.evictAll (choose c.time) = e' at he ⊢
    -- both pools have the page in a frame, or neither has
    rcases hf : e.frame k with _ | f
    · simp only [hf, Option.map_eq_some_iff] at hc
      obtain ⟨p, hp, hc⟩ := hc
      obtain rfl := (Prod.mk.inj hc).2
      have hfile : (e'.file k).isSome = true := by rw [(he.pages k).filed, hp]; rfl
      obtain ⟨q, hq⟩ := Option.isSome_iff_exists.1 hfile
      simp only [he.frame_none.2 hf, hq, Option.map_some]
      refine ⟨_, rfl, he.setFrame rfl (fun hu => ?_) (by simp [hp])⟩
      have := ((he.pages k).same hu).2
      rw [hp, hq, Option.some.injEq] at this
      rw [this]
    · obtain ⟨g, hg, hpins, hsame⟩ := he.frame_some hf
      simp only [hf] at hc
      obtain rfl := (Prod.mk.inj (Option.some.inj hc)).2
      simp only [hg]
      refine ⟨_, rfl, he.setFrame (congrArg (· + 1) hpins) (fun hu => ?_) ((he.pages k).kept (by simp [hf]))⟩
      rw [hsame hu]
  | appendNewPage k =>
    have he := h.evictAll (choose c.time)
    simp only [Cache.exec, h.time] at hc ⊢
    generalize c.evictAll (choose c.time) = e at he hc
    generalize d.evictAll (choose c.time) = e' at he ⊢
    rcases hf : e.frame k with _ | f
    · rcases hp : e.file k with _ | p
      · simp only [hf, hp] at hc
        obtain rfl := (Prod.mk.inj (Option.some.inj hc)).2
        have hfile : e'.file k = none := by
          have := (he.pages k).filed
          simpa [hp] using this
        simp only [he.frame_none.2 hf, hfile]
        exact ⟨_, rfl, (he.setFile k default).setFrame rfl (fun _ => rfl) (by simp [Cache.setFile])⟩
      · simp [hf, hp] at hc
    · simp [hf] at hc
  | unpinPage k b =>
    -- only a page that nobody reads may get another dirty bit
    cases hk : unread k
    · simp only [Cache.exec] at hc ⊢
      have hsame := ((h.pages k).same hk).1
      rcases hf : c.frame k with _ | f
      · simp [hf] at hc
      simp only [hf] at hc
      split at hc
      · rename_i hpos
        obtain rfl := (Prod.mk.inj (Option.some.inj hc)).2
        simp only [hsame, hf, if_pos hpos]
        exact ⟨_, rfl, h.setFrame rfl (fun _ => rfl) ((h.pages k).kept (by simp [hf]))⟩
      · cases hc
    · exact h.unpin hk b b hc
  | getData k =>
    have hsame := ((h.pages k).same ho).1
    simp only [Cache.exec, Option.map_eq_some_iff] at hc ⊢
    obtain ⟨f, hf, hc⟩ := hc
    obtain ⟨rfl, rfl⟩ := Prod.mk.inj hc
    exact ⟨d, ⟨f, hsame.trans hf, rfl⟩, h⟩
  | setData k p =>
    simp only [Cache.exec, Option.map_eq_some_iff] at hc ⊢
    obtain ⟨f, hf, hc⟩ := hc
    obtain ⟨-, rfl⟩ := Prod.mk.inj hc
    obtain ⟨g, hg, hpins, hsame⟩ := h.frame_some hf
    refine ⟨_, ⟨g, hg, rfl⟩, h.setFrame hpins (fun hu => ?_) ((h.pages k).kept (by simp [hf]))⟩
    rw [hsame hu]
  | getPinCount k =>
    simp only [Cache.exec, Option.map_eq_some_iff] at hc ⊢
    obtain ⟨f, hf, hc⟩ := hc
    obtain ⟨rfl, rfl⟩ := Prod.mk.inj hc
    obtain ⟨g, hg, hpins, -⟩ := h.frame_some hf
    exact ⟨d, ⟨g, hg, by rw [hpins]⟩, h⟩
  | rLatch k =>
    simp only [Cache.exec, h.latch] at hc ⊢
    split at hc
    · obtain ⟨rfl, rfl⟩ := Prod.mk.inj (Option.some.inj hc)
      exact ⟨_, rfl, h.setLatch k _⟩
    · cases hc
  | rUnlatch k =>
    simp only [Cache.exec, h.latch] at hc ⊢
    split at hc
    · obtain ⟨rfl, rfl⟩ := Prod.mk.inj (Option.some.inj hc)
      exact ⟨_, rfl, h.setLatch k _⟩
    · cases hc
  | wLatch k =>
    simp only [Cache.exec, h.latch] at hc ⊢
    split at hc
    · obtain ⟨rfl, rfl⟩ := Prod.mk.inj (Option.some.inj hc)
      exact ⟨_, if_pos ‹_›, h.setLatch k _⟩
    · cases hc
  | wUnlatch k =>
    simp only [Cache.exec, h.latch] at hc ⊢
    split at hc
    · obtain ⟨rfl, rfl⟩ := Prod.mk.inj (Option.some.inj hc)
      exact ⟨_, if_pos ‹_›, h.setLatch k _⟩
    · cases hc
  | getMember =>
    obtain ⟨rfl, rfl⟩ := Prod.mk.inj (Option.some.inj hc)
    exact ⟨d, by rw [Cache.exec, h.member], h⟩
  | setMember r =>
    obtain ⟨rfl, rfl⟩ := Prod.mk.inj (Option.some.inj hc)
    exact ⟨_, rfl, h.pages, h.latch, rfl, h.time⟩

end Alike

/-! ## The pool runs as the store -/

/-- The pool stands for the store, what is on the unread pages apart. -/
def Shadows (spared unread : κ → Bool) (t : Tracked κ π ρ) (d : Cache κ π ρ) : Prop :=
  ∃ c, Matches spared t c ∧ Alike unread c d

namespace Shadows

variable {choose : Nat → List κ} {t t' : Tracked κ π ρ}

theorem page (h : Shadows spared unread t d) (hk : unread k = false) : d.store.page k = t.store.page k := by
  obtain ⟨c, hm, ha⟩ := h
  obtain ⟨hframe, hfile⟩ := (ha.pages k).same hk
  rw [← hm.store]
  simp [Cache.store, hframe, hfile]

/-- A page that nobody reads may be let go as clean. -/
theorem unpin [DecidableEq κ] [Inhabited π] (h : Shadows spared unread t d) (hk : unread k = true)
    (hpins : 0 < t.store.pins k) (hok : t.ok = true) (b : Bool) :
    ∃ d', Cache.exec choose (.unpinPage k b) d = some ((), d') ∧
    Shadows spared unread (t.unpinned spared k true) d' := by
  obtain ⟨c, hm, ha⟩ := h
  obtain ⟨c', hc, hm'⟩ : ∃ c', Cache.exec choose (.unpinPage k true) c = some ((), c') ∧
      Matches spared (t.unpinned spared k true) c' := hm.unpin hpins (by simp [Tracked.unpinned, hok])
  obtain ⟨d', hd, ha'⟩ := ha.unpin hk true b hc
  exact ⟨d', hd, c', hm', ha'⟩

/-- A whole program does on the pool what it does on the store. -/
theorem run [DecidableEq κ] [Inhabited π] {α : Type} {p : PageProg κ π ρ α} {a : α} (h : Shadows spared unread t d)
    (hu : Uses (Unread unread) p)
    (hp : Prog.run (Tracked.exec spared) p t = some (a, t')) (hok : t'.ok = true)
    (hspared : ∀ k, spared k = true → unread k = false) (hgo : Cache.stops spared choose p d = false) :
    ∃ d', Prog.run (Cache.exec choose) p d = some (a, d') ∧ Shadows spared unread t' d' := by
  induction hu generalizing t d with
  | ret x =>
    simp only [Prog.run, Option.some.injEq, Prod.mk.injEq] at hp
    obtain ⟨rfl, rfl⟩ := hp
    exact ⟨d, rfl, h⟩
  | @call o k ho _ ih =>
    simp only [Prog.run] at hp ⊢
    rcases hstep : Tracked.exec spared o t with _ | ⟨r, u⟩
    · simp [hstep] at hp
    rw [hstep] at hp
    simp only [Cache.stops, Bool.or_eq_false_iff] at hgo
    obtain ⟨c, hm, ha⟩ := h
    obtain ⟨c', hc, hm'⟩ := hm.step hstep (Tracked.ok_of_run hp hok) ((ha.stopped hspared o).symm.trans hgo.1)
    obtain ⟨d', hd, ha'⟩ := ha.step ho hc
    have hrest := hgo.2
    rw [hd] at hrest ⊢
    exact ih r ⟨c', hm', ha'⟩ hp hrest
  | fail => simp [Prog.run] at hp

theorem ofFiles {s : PageStore κ π ρ} (hpins : ∀ k, s.pins k = 0) :
    Shadows spared unread (Tracked.ofStore s) (Cache.ofFiles s) :=
  ⟨_, .ofFiles hpins, .refl fun k hk => by cases hk⟩

end Shadows

/-! ## Parts of a program -/

variable [DecidableEq κ] [Inhabited π] {choose : Nat → List κ}

theorem stops_bind {α β : Type} {p : PageProg κ π ρ α} {f : α → PageProg κ π ρ β} :
    Cache.stops spared choose (p >>= f) c = false ↔ Cache.stops spared choose p c = false ∧
      ∀ a d, Prog.run (Cache.exec choose) p c = some (a, d) → Cache.stops spared choose (f a) d = false := by
  show Cache.stops spared choose (p.bind f) c = false ↔ _
  induction p generalizing c with
  | ret a => simp [Prog.bind, Cache.stops, Prog.run]
  | call o k ih =>
    simp only [Prog.bind, Cache.stops, Prog.run, Bool.or_eq_false_iff]
    rcases hc : Cache.exec choose o c with _ | ⟨r, c'⟩
    · simp
    · simp only [ih, and_assoc]
  | fail => simp [Prog.bind, Cache.stops, Prog.run]

end

end MisakiDB
