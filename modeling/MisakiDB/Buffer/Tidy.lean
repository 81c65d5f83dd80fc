import MisakiDB.Buffer.CachedStore
import Mathlib.Data.Multiset.Count
/-!
# Keeping the promises to the pool

`Tidy I P U` is what a program knows between two calls to the pool: it has the pins
`P`, no page but those of `U` (and the spared ones) has unsaved changes, and every page
is as `I` says. One rule for each call tells what it leaves; a program that can be
followed by these rules is `ok`.
-/

namespace MisakiDB

open Prog

variable {κ π ρ : Type} [DecidableEq κ]

structure Tidy (spared : κ → Bool) (I : κ → π → Prop) (P U : Multiset κ) (t : Tracked κ π ρ) : Prop where
  ok : t.ok = true
  pins : ∀ k, P.count k ≤ t.store.pins k
  unsaved : ∀ k, t.unsaved k = true → spared k = true ∨ k ∈ U
  here : ∀ k, 0 < t.store.pins k → t.here k = true
  pages : ∀ k p, t.store.page k = some p → I k p

namespace Tidy

variable {spared : κ → Bool} {I : κ → π → Prop} {P U : Multiset κ} {t : Tracked κ π ρ} {k : κ}

theorem pinned (h : Tidy spared I P U t) (hk : k ∈ P) : 0 < t.store.pins k :=
  Nat.lt_of_lt_of_le (Multiset.count_pos.2 hk) (h.pins k)

theorem is_here (h : Tidy spared I P U t) (hk : k ∈ P) : t.here k = true := h.here k (h.pinned hk)

theorem mono (h : Tidy spared I P U t) {U' : Multiset κ} (hU : U ⊆ U') : Tidy spared I P U' t :=
  { h with unsaved := fun k hk => (h.unsaved k hk).imp_right fun hk => hU hk }

/-- A pin may be forgotten. -/
theorem forget (h : Tidy spared I (k ::ₘ P) U t) : Tidy spared I P U t :=
  { h with pins := fun x => (Multiset.count_le_count_cons x k P).trans (h.pins x) }

theorem written_twice (h : Tidy spared I P (k ::ₘ U) t) (hk : k ∈ U) : Tidy spared I P U t :=
  h.mono fun x hx => by
    rcases Multiset.mem_cons.1 hx with rfl | hx
    · exact hk
    · exact hx

/-- A pin that the store has. -/
theorem claim (h : Tidy spared I 0 U t) (hk : 0 < t.store.pins k) : Tidy spared I {k} U t := by
  refine { h with pins := fun x => ?_ }
  by_cases hx : x = k
  · subst hx
    rw [Multiset.count_singleton_self]
    exact hk
  · rw [Multiset.count_singleton, if_neg hx]
    exact Nat.zero_le _

theorem swap {l : κ} (h : Tidy spared I (k ::ₘ l ::ₘ P) U t) : Tidy spared I (l ::ₘ k ::ₘ P) U t :=
  Multiset.cons_swap k l P ▸ h

theorem swap_unsaved {l : κ} (h : Tidy spared I P (k ::ₘ l ::ₘ U) t) : Tidy spared I P (l ::ₘ k ::ₘ U) t :=
  Multiset.cons_swap k l U ▸ h

/-! ## One rule for each call -/

variable [Inhabited π]

theorem fetch (h : Tidy spared I P U t) (k : κ) :
    wlp (Tracked.exec spared) (fetchPage k) (fun _ t' => Tidy spared I (k ::ₘ P) U t') t := by
  refine (wlp_perform (PageOp.fetchPage k)).2 fun r hr => ?_
  obtain ⟨p, -, rfl⟩ := Option.map_eq_some_iff.1 hr
  refine ⟨h.ok, fun x => ?_, h.unsaved, fun x hx => ?_, h.pages⟩
  · have := h.pins x
    by_cases hx : x = k
    · subst hx
      simpa [Tracked.fetched] using this
    · simpa [Tracked.fetched, hx] using this
  · by_cases hxk : x = k
    · simp [Tracked.fetched, hxk]
    · simpa [Tracked.fetched, hxk] using hx

theorem fetch_page (t : Tracked κ π ρ) (k : κ) :
    wlp (Tracked.exec spared) (fetchPage k) (fun _ t' => t'.store.page = t.store.page) t := by
  refine (wlp_perform (PageOp.fetchPage k)).2 fun r hr => ?_
  obtain ⟨p, -, rfl⟩ := Option.map_eq_some_iff.1 hr
  rfl

theorem append (h : Tidy spared I P U t) {k : κ} (hI : I k default) :
    wlp (Tracked.exec spared) (appendNewPage k) (fun _ t' => Tidy spared I (k ::ₘ P) U t') t := by
  refine (wlp_perform (PageOp.appendNewPage k)).2 fun r hr => ?_
  simp only [Tracked.exec] at hr
  split at hr
  · obtain rfl := Option.some.inj hr
    refine ⟨h.ok, fun x => ?_, fun x hx => ?_, fun x hx => ?_, fun x p hp => ?_⟩
    · have := h.pins x
      by_cases hx : x = k
      · subst hx
        simpa [Tracked.appended] using this
      · simpa [Tracked.appended, hx] using this
    · by_cases hxk : x = k
      · simp [Tracked.appended, hxk] at hx
      · exact h.unsaved x (by simpa [Tracked.appended, hxk] using hx)
    · by_cases hxk : x = k
      · simp [Tracked.appended, hxk]
      · simpa [Tracked.appended, hxk] using hx
    · by_cases hxk : x = k
      · subst hxk
        obtain rfl : default = p := by simpa [Tracked.appended] using hp
        exact hI
      · exact h.pages x p (by simpa [Tracked.appended, hxk] using hp)
  · cases hr

/-- A changed page is unpinned as dirty. -/
theorem unpin (h : Tidy spared I (k ::ₘ P) (k ::ₘ U) t) :
    wlp (Tracked.exec spared) (unpinPage k true) (fun _ t' => Tidy spared I P U t') t := by
  refine (wlp_perform (PageOp.unpinPage k true)).2 fun r hr => ?_
  simp only [Tracked.exec] at hr
  split at hr
  · obtain rfl := Option.some.inj hr
    refine ⟨by simp [Tracked.unpinned, h.ok], fun x => ?_, fun x hx => ?_, fun x hx => h.here x ?_, h.pages⟩
    · have := h.pins x
      by_cases hx : x = k
      · subst hx
        simp only [Multiset.count_cons_self] at this
        simp only [Tracked.unpinned, PageStore.setPins_pins, Function.update_self]
        omega
      · simpa [Tracked.unpinned, hx] using this
    · by_cases hxk : x = k
      · simp [Tracked.unpinned, hxk] at hx
      · refine (h.unsaved x (by simpa [Tracked.unpinned, hxk] using hx)).imp_right fun hx => ?_
        exact (Multiset.mem_cons.1 hx).resolve_left hxk
    · by_cases hxk : x = k
      · exact hxk ▸ h.pinned (Multiset.mem_cons_self k P)
      · simpa [Tracked.unpinned, hxk] using hx
  · cases hr

/-- A page is unpinned as clean if it is spared, has no changes, or has another pin. -/
theorem unpin_kept (h : Tidy spared I (k ::ₘ P) U t) (hk : spared k = true ∨ (k ∈ U → k ∈ P)) :
    wlp (Tracked.exec spared) (unpinPage k false) (fun _ t' => Tidy spared I P U t' ∧ t'.here = t.here) t := by
  refine (wlp_perform (PageOp.unpinPage k false)).2 fun r hr => ?_
  simp only [Tracked.exec] at hr
  split at hr
  · obtain rfl := Option.some.inj hr
    have hpins := h.pins k
    simp only [Multiset.count_cons_self] at hpins
    refine ⟨⟨?_, fun x => ?_, h.unsaved, fun x hx => h.here x ?_, h.pages⟩, rfl⟩
    · simp only [Tracked.unpinned, h.ok, Bool.true_and, Bool.or_false]
      rw [Bool.or_eq_true, Bool.or_eq_true, decide_eq_true_iff, Bool.not_eq_true', or_assoc]
      rcases hu : t.unsaved k
      · exact .inr (.inr rfl)
      · rcases h.unsaved k hu with hs | hu
        · exact .inl hs
        · refine hk.imp_right fun hk => .inl ?_
          have := Multiset.count_pos.2 (hk hu)
          omega
    · have := h.pins x
      by_cases hx : x = k
      · subst hx
        simp only [Tracked.unpinned, PageStore.setPins_pins, Function.update_self]
        omega
      · simpa [Tracked.unpinned, hx] using this
    · by_cases hxk : x = k
      · exact hxk ▸ h.pinned (Multiset.mem_cons_self k P)
      · simpa [Tracked.unpinned, hxk] using hx
  · cases hr

theorem unpin_clean (h : Tidy spared I (k ::ₘ P) U t) (hk : k ∈ U → k ∈ P) :
    wlp (Tracked.exec spared) (unpinPage k false) (fun _ t' => Tidy spared I P U t') t :=
  wlp_conseq (h.unpin_kept (.inr hk)) fun _ _ h => h.1

theorem unpin_read (h : Tidy spared I (k ::ₘ P) 0 t) :
    wlp (Tracked.exec spared) (unpinPage k false) (fun _ t' => Tidy spared I P 0 t') t :=
  h.unpin_clean fun hk => absurd hk (Multiset.notMem_zero k)

omit [Inhabited π] in
theorem touched (h : Tidy spared I P U t) (hk : k ∈ P) : t.touched k = t := by
  simp [Tracked.touched, h.is_here hk]

/-- Reading changes nothing. -/
theorem read (h : Tidy spared I P U t) (hk : k ∈ P) :
    wlp (Tracked.exec spared) (getData k) (fun p t' => t.store.page k = some p ∧ t' = t) t := by
  refine (wlp_perform (PageOp.getData k)).2 fun r hr => ?_
  obtain ⟨p, hp, rfl⟩ := Option.map_eq_some_iff.1 hr
  exact ⟨hp, h.touched hk⟩

theorem get (h : Tidy spared I P U t) (hk : k ∈ P) :
    wlp (Tracked.exec spared) (getData k) (fun p t' => I k p ∧ Tidy spared I P U t') t := by
  refine wlp_conseq (h.read hk) ?_
  rintro p _ ⟨hp, rfl⟩
  exact ⟨h.pages k p hp, h⟩

theorem set (h : Tidy spared I P U t) {p : π} (hk : k ∈ P) (hI : I k p) :
    wlp (Tracked.exec spared) (setData k p) (fun _ t' => Tidy spared I P (k ::ₘ U) t') t := by
  refine (wlp_perform (PageOp.setData k p)).2 fun r hr => ?_
  obtain ⟨q, -, rfl⟩ := Option.map_eq_some_iff.1 hr
  refine ⟨by simp [Tracked.written, h.ok, h.is_here hk, h.pinned hk], h.pins, fun x hx => ?_, h.here, fun x q hq => ?_⟩
  · by_cases hxk : x = k
    · exact .inr (hxk ▸ Multiset.mem_cons_self k U)
    · refine (h.unsaved x (by simpa [Tracked.written, hxk] using hx)).imp_right fun hx => ?_
      exact Multiset.mem_cons_of_mem hx
  · by_cases hxk : x = k
    · subst hxk
      obtain rfl : p = q := by simpa [Tracked.written] using hq
      exact hI
    · exact h.pages x q (by simpa [Tracked.written, hxk] using hq)

/-- A page is written once more. -/
theorem reset (h : Tidy spared I P (k ::ₘ U) t) {p : π} (hk : k ∈ P) (hI : I k p) :
    wlp (Tracked.exec spared) (setData k p) (fun _ t' => Tidy spared I P (k ::ₘ U) t') t :=
  wlp_conseq (h.set hk hI) fun _ _ h => h.written_twice (Multiset.mem_cons_self k U)

/-- A spared page may be written as long as it is here. -/
theorem set_spared (h : Tidy spared I P U t) {p : π} (hk : spared k = true) (hhere : t.here k = true) (hI : I k p) :
    wlp (Tracked.exec spared) (setData k p) (fun _ t' => Tidy spared I P U t') t := by
  refine (wlp_perform (PageOp.setData k p)).2 fun r hr => ?_
  obtain ⟨q, -, rfl⟩ := Option.map_eq_some_iff.1 hr
  refine ⟨by simp [Tracked.written, h.ok, hhere, hk], h.pins, fun x hx => ?_, h.here, fun x q hq => ?_⟩
  · by_cases hxk : x = k
    · exact .inl (hxk ▸ hk)
    · exact h.unsaved x (by simpa [Tracked.written, hxk] using hx)
  · by_cases hxk : x = k
    · subst hxk
      obtain rfl : p = q := by simpa [Tracked.written] using hq
      exact hI
    · exact h.pages x q (by simpa [Tracked.written, hxk] using hq)

theorem rLatch (h : Tidy spared I P U t) (k : κ) :
    wlp (Tracked.exec spared) (rLatch k) (fun _ t' => Tidy spared I P U t') t := by
  refine (wlp_perform (PageOp.rLatch k)).2 fun r hr => ?_
  simp only [Tracked.exec, PageStore.exec] at hr
  split at hr
  · obtain rfl := Option.some.inj hr
    exact ⟨h.ok, h.pins, h.unsaved, h.here, h.pages⟩
  · cases hr

theorem rUnlatch (h : Tidy spared I P U t) (k : κ) :
    wlp (Tracked.exec spared) (rUnlatch k) (fun _ t' => Tidy spared I P U t') t := by
  refine (wlp_perform (PageOp.rUnlatch k)).2 fun r hr => ?_
  simp only [Tracked.exec, PageStore.exec] at hr
  split at hr
  · obtain rfl := Option.some.inj hr
    exact ⟨h.ok, h.pins, h.unsaved, h.here, h.pages⟩
  · cases hr

theorem wLatch (h : Tidy spared I P U t) (k : κ) :
    wlp (Tracked.exec spared) (wLatch k) (fun _ t' => Tidy spared I P U t') t := by
  refine (wlp_perform (PageOp.wLatch k)).2 fun r hr => ?_
  simp only [Tracked.exec, PageStore.exec] at hr
  split at hr
  · obtain rfl := Option.some.inj hr
    exact ⟨h.ok, h.pins, h.unsaved, h.here, h.pages⟩
  · cases hr

theorem wUnlatch (h : Tidy spared I P U t) (k : κ) :
    wlp (Tracked.exec spared) (wUnlatch k) (fun _ t' => Tidy spared I P U t') t := by
  refine (wlp_perform (PageOp.wUnlatch k)).2 fun r hr => ?_
  simp only [Tracked.exec, PageStore.exec] at hr
  split at hr
  · obtain rfl := Option.some.inj hr
    exact ⟨h.ok, h.pins, h.unsaved, h.here, h.pages⟩
  · cases hr

theorem pinCount (h : Tidy spared I P U t) (hk : k ∈ P) :
    wlp (Tracked.exec spared) (getPinCount k) (fun _ t' => Tidy spared I P U t') t := by
  refine (wlp_perform (PageOp.getPinCount k)).2 fun r hr => ?_
  obtain ⟨p, hp, rfl⟩ := Option.map_eq_some_iff.1 hr
  exact (h.touched hk).symm ▸ h

theorem member (h : Tidy spared I P U t) :
    wlp (Tracked.exec spared) getMember (fun _ t' => Tidy spared I P U t') t := by
  refine (wlp_perform PageOp.getMember).2 fun r hr => ?_
  obtain rfl := Option.some.inj hr
  exact h

theorem withMember (h : Tidy spared I P U t) (r : ρ) :
    wlp (Tracked.exec spared) (setMember r) (fun _ t' => Tidy spared I P U t') t := by
  refine (wlp_perform (PageOp.setMember r)).2 fun x hx => ?_
  obtain rfl := Option.some.inj hx
  exact ⟨h.ok, h.pins, h.unsaved, h.here, h.pages⟩

/-- A program that is followed by the rules does on a cache what it does on the store. -/
theorem on_cache {α : Type} {p : PageProg κ π ρ α} {a : α} {s' : PageStore κ π ρ}
    {P' U' : α → Multiset κ} {c : Cache κ π ρ}
    (h : wlp (Tracked.exec fun _ => false) p (fun a t' => Tidy (fun _ => false) I (P' a) (U' a) t') t)
    (hm : Matches (fun _ => false) t c) (hr : run PageStore.exec p t.store = some (a, s')) (choose : Nat → List κ) :
    ∃ t' d, run (Cache.exec choose) p c = some (a, d) ∧ Matches (fun _ => false) t' d ∧
      Tidy (fun _ => false) I (P' a) (U' a) t' ∧ t'.store = s' := by
  obtain ⟨t', ht, rfl⟩ := Tracked.run_store (fun _ => false) p t hr
  have htidy := h a t' ht
  obtain ⟨d, hd, hm'⟩ := hm.run_of_spared choose ht htidy.ok
  exact ⟨t', d, hd, hm', htidy, rfl⟩

end Tidy

end MisakiDB
