import MisakiDB.Index.Calls
import MisakiDB.Lib.Runs
/-!
# Where every index page is

`Accounted s` says that each page id the header has handed out is below the root
once or on the free list once. A removal loses the pages it discards while
somebody has them pinned, and nothing finds them again; as long as it discards
unpinned pages only, every page is accounted for.
-/

namespace MisakiDB

open Prog PageStore Blocks Runs

variable {K V : Type}

/-- The pages `ys` are those reached from `xs`, level by level, each as often as it is reached. -/
inductive ReachedFrom (s : IndexStore K V) : List Nat → List Nat → Prop
  | nil : ReachedFrom s [] []
  | level {xs ys} : xs ≠ [] → ReachedFrom s (xs.flatMap (kids s)) ys → ReachedFrom s xs (xs ++ ys)

/-- Every page id that was handed out is in the tree once or on the free list once. -/
def Accounted (s : IndexStore K V) : Prop :=
  ∃ h tree free, s.page 0 = some (.header h) ∧ ReachedFrom s h.rootPageID.toList tree ∧
    FreeChain s h.freePageListHeader free ∧ (tree ++ free).Perm (List.range' 1 (h.nextPageID - 1))

/-- A removal discards only pages nobody has pinned. -/
def DiscardsUnpinned [LinearOrder K] (s : IndexStore K V) : Call K V → Prop
  | .remove key => ∀ x ∈ (removal s (bound s) key).1, s.pins x = 0
  | _ => True

/-! ## The levels of a tree are what is reached -/

section Reached
variable {s : IndexStore K V} {L : Level K} {Ls : List (Level K)}

theorem ReachedFrom.unique {xs ys zs : List Nat} (h : ReachedFrom s xs ys) (h' : ReachedFrom s xs zs) : ys = zs := by
  induction h generalizing zs with
  | nil =>
    cases h' with
    | nil => rfl
    | level hne => exact absurd rfl hne
  | level hne _ ih =>
    cases h' with
    | nil => exact absurd rfl hne
    | level _ h' => rw [ih h']

theorem ids_below (L : Level K) : ids (below s L) = (ids L).flatMap (kids s) := by
  induction L with
  | nil => rfl
  | cons n L ih =>
    have hn : ids (children s n) = kids s n.2 := by
      rw [children, kids]
      rcases s.page n.2 with _ | ⟨_ | _ | _ | _ | p⟩ <;> simp
    simp only [below_cons, ids, List.map_append, List.map_cons, List.flatMap_cons] at ih hn ⊢
    rw [ih, hn]

variable [Inhabited K]

/-- From the root down to the leaves. -/
theorem Above.reached {y : List Nat} (hab : Above s L Ls) (h : ReachedFrom s (ids L) (ids L ++ y)) :
    ∃ r zs, s.member.rootPageID = some r ∧ ReachedFrom s [r] zs ∧ zs.Perm (ids L ++ y ++ allIds Ls) := by
  induction Ls generalizing L y with
  | nil =>
    obtain ⟨r, rfl, hr, -⟩ := hab
    exact ⟨r, _, hr, h, by simp⟩
  | cons L' Ls ih =>
    have hne := hab.2.2.length_le.1
    obtain ⟨rfl, -, ha⟩ := hab
    rw [ids_below] at h
    obtain ⟨r, zs, hr, hz, hperm⟩ := ih ha (.level (by simpa using hne) h)
    refine ⟨r, zs, hr, hz, hperm.trans ?_⟩
    have hsplit : allIds (L' :: Ls) = ids L' ++ allIds Ls := List.flatMap_cons ..
    rw [ids_below, hsplit, List.perm_iff_count]
    intro x
    simp only [List.count_append]
    omega

theorem Tree.reached [LinearOrder K] (ht : Tree s L Ls) :
    ∃ r zs, s.member.rootPageID = some r ∧ ReachedFrom s [r] zs ∧ zs.Perm (ids L ++ allIds Ls) := by
  have hkids : (ids L).flatMap (kids s) = [] := by
    refine List.flatMap_eq_nil_iff.2 fun x hx => ?_
    obtain ⟨n, hn, rfl⟩ := List.mem_map.1 hx
    obtain ⟨p, hp, -⟩ := ht.level.leaves n hn
    simp [kids, hp]
  obtain ⟨r, zs, hr, hz, hperm⟩ := ht.above.reached (y := [])
    (.level (by simpa using ht.above.length_le.1) (by rw [hkids]; exact .nil))
  exact ⟨r, zs, hr, hz, by simpa using hperm⟩

end Reached

/-! ## What is not accounted for -/

section Ledger
variable [LinearOrder K] [Inhabited K] {leafMax internalMax : Nat} {s s' : IndexStore K V} {m : K → Option V}
  {orphans : List Nat}

theorem TreeInv.accounted_iff (hi : TreeInv leafMax internalMax s m orphans) : Accounted s ↔ orphans = [] := by
  obtain ⟨-, -, pages, es, used, free, h, ha, hh, hperm, -⟩ := hi
  obtain ⟨tree, htree, hpages⟩ : ∃ tree, ReachedFrom s h.rootPageID.toList tree ∧ tree.Perm pages := by
    rw [ha.root]
    rcases hh with ⟨hr, rfl, rfl⟩ | ⟨L, Ls, ht, rfl, rfl⟩
    · rw [hr]
      exact ⟨[], .nil, List.Perm.refl _⟩
    · obtain ⟨r, zs, hr, hz, hp⟩ := ht.reached
      rw [hr]
      exact ⟨zs, hz, hp⟩
  constructor
  · rintro ⟨h', tree', free', hh', ht', hf', hall⟩
    obtain rfl : h = h' := by simpa [ha.header] using hh'
    obtain rfl := htree.unique ht'
    obtain rfl := ha.chain.unique hf'
    have h1 := hall.length_eq
    have h2 := ha.perm.length_eq
    have h3 := hperm.length_eq
    have h4 := hpages.length_eq
    simp only [List.length_append] at h1 h2 h3
    exact List.length_eq_zero_iff.1 (by omega)
  · rintro rfl
    rw [List.append_nil] at hperm
    exact ⟨h, tree, free, ha.header, htree, ha.chain, ((hpages.trans hperm.symm).append_right _).trans ha.perm⟩

omit [Inhabited K] in
theorem lost_eq_nil {c : Call K V} : lost s c = [] ↔ DiscardsUnpinned s c := by
  cases c with
  | insert key value => simp [lost, DiscardsUnpinned]
  | remove key => simp [lost, DiscardsUnpinned, List.filter_eq_nil_iff]
  | getValue key => simp [lost, DiscardsUnpinned]

/-- A call on the tree, by its own name. -/
def Step (s : IndexStore K V) (c : Call K V) (s' : IndexStore K V) : Prop := ∃ a, call c s = some (a, s')

/-- The calls of `cs` meet `ok`, each in the state it is made in. -/
def AllMeet (ok : IndexStore K V → Call K V → Prop) : List (Call K V) → IndexStore K V → Prop
  | [], _ => True
  | c :: cs, s => ok s c ∧ ∀ r, call c s = some r → AllMeet ok cs r.2

instance AllMeet.decidable {ok : IndexStore K V → Call K V → Prop} [∀ s c, Decidable (ok s c)] :
    (cs : List (Call K V)) → (s : IndexStore K V) → Decidable (AllMeet ok cs s)
  | [], _ => isTrue trivial
  | c :: cs, s =>
    have (r : Answer V × IndexStore K V) : Decidable (AllMeet ok cs r.2) := AllMeet.decidable cs r.2
    inferInstanceAs (Decidable (ok s c ∧ ∀ r ∈ call c s, AllMeet ok cs r.2))

instance : ∀ (s : IndexStore K V) (c : Call K V), Decidable (DiscardsUnpinned s c)
  | _, .insert _ _ => isTrue trivial
  | s, .remove key => inferInstanceAs (Decidable (∀ x ∈ (removal s (bound s) key).1, s.pins x = 0))
  | _, .getValue _ => isTrue trivial

theorem calls_reach {init : IndexStore K V → Prop} {ok : IndexStore K V → Call K V → Prop} {cs : List (Call K V)}
    {answers : List (Answer V)} (hr : Reach init (Restrict Step ok) s) (hok : AllMeet ok cs s)
    (hcs : calls cs s = some (answers, s')) : Reach init (Restrict Step ok) s' := by
  induction cs generalizing s answers with
  | nil =>
    obtain ⟨-, rfl⟩ : [] = answers ∧ s = s' := by simpa [calls] using hcs
    exact hr
  | cons c cs ih =>
    obtain ⟨⟨a, s1⟩, hc, hrest⟩ := Option.bind_eq_some_iff.1 hcs
    obtain ⟨⟨as, s2⟩, hcs', heq⟩ := Option.bind_eq_some_iff.1 hrest
    obtain ⟨-, rfl⟩ : a :: as = answers ∧ s2 = s' := by simpa using heq
    exact ih (hr.next ⟨hok.1, a, hc⟩) (hok.2 _ hc) hcs'

theorem TreeInv.step (hi : TreeInv leafMax internalMax s m orphans) (h2 : 2 ≤ leafMax) {c : Call K V}
    (hs : Step s c s') :
    TreeInv leafMax internalMax s' (c.onMap m).2 (orphans ++ lost s c) := by
  obtain ⟨a, ha⟩ := hs
  obtain ⟨s1, hc, hi1, -⟩ := hi.call h2 c
  rw [ha, Option.some.injEq, Prod.mk.injEq] at hc
  obtain ⟨-, rfl⟩ := hc
  exact hi1

/-- In a run that discards only unpinned pages, every page is accounted for in every
state; from such a state a call leaves it so exactly if it discards only unpinned pages. -/
theorem accounted_run (h2 : 2 ≤ leafMax)
    (hr : Reach (· = BPlusTree.create leafMax internalMax) (Restrict Step DiscardsUnpinned) s) :
    Accounted s ∧ ∀ (c : Call K V) (s' : IndexStore K V), Step s c s' → (Accounted s' ↔ DiscardsUnpinned s c) := by
  have hi : ∃ m, TreeInv leafMax internalMax s m [] := by
    refine hr.inv (I := fun s => ∃ m, TreeInv leafMax internalMax s m []) ?_ ?_
    · rintro _ rfl
      exact ⟨_, TreeInv.create leafMax internalMax⟩
    · rintro s c s' ⟨m, hm⟩ ⟨hd, hs⟩
      have := hm.step h2 hs
      rw [lost_eq_nil.2 hd] at this
      exact ⟨_, this⟩
  obtain ⟨m, hm⟩ := hi
  refine ⟨hm.accounted_iff.2 rfl, fun c s' hs => ?_⟩
  rw [(hm.step h2 hs).accounted_iff, List.nil_append, lost_eq_nil]

end Ledger

/-- Three pages are freed and used again; then the leaf with key 80 is pinned. -/
def freedAndUsed : List (Call Nat Nat) := fourLeaves ++ [.remove 30, .insert 75 75, .remove 40, .insert 80 81]

theorem accounted_run_freedAndUsed : ∃ answers s, calls freedAndUsed (BPlusTree.create 4 4) = some (answers, s) ∧
    s.page 0 = some (.header ⟨8, some 7, none⟩) ∧ s.pins 2 = 1 ∧ Accounted s ∧
    (∃ s', Step s (.remove 10) s' ∧ (removal s (bound s) 10).1 = [4, 6, 7] ∧ Accounted s') ∧
    ∃ s', Step s (.remove 90) s' ∧ (removal s (bound s) 90).1 = [2, 6, 7] ∧ ¬ Accounted s' := by
  have hfacts : ∀ r ∈ calls freedAndUsed (BPlusTree.create 4 4), r.2.page 0 = some (.header ⟨8, some 7, none⟩) ∧
      (∀ x ∈ [2, 4, 6, 7], r.2.pins x = if x = 2 then 1 else 0) ∧
      (removal r.2 (bound r.2) 10).1 = [4, 6, 7] ∧ (removal r.2 (bound r.2) 90).1 = [2, 6, 7] := by
    decide +kernel
  obtain ⟨⟨answers, s⟩, hrun⟩ : ∃ r, calls freedAndUsed (BPlusTree.create 4 4) = some r :=
    Option.isSome_iff_exists.1 (by decide +kernel)
  obtain ⟨hheader, hpins, h10, h90⟩ := hfacts _ hrun
  obtain ⟨orphans, hi⟩ := TreeInv.reached (by decide : 2 ≤ 4) hrun
  have hmeet : AllMeet DiscardsUnpinned freedAndUsed (BPlusTree.create 4 4) := by decide +kernel
  obtain ⟨hacc, hiff⟩ := accounted_run (by decide : 2 ≤ 4) (calls_reach (.start rfl) hmeet hrun)
  refine ⟨answers, s, hrun, hheader, hpins 2 (by simp), hacc, ?_, ?_⟩
  · obtain ⟨s', hc, -⟩ := hi.call (by decide) (.remove 10)
    refine ⟨s', ⟨_, hc⟩, h10, (hiff _ s' ⟨_, hc⟩).2 fun x hx => ?_⟩
    rw [h10] at hx
    have hpin : s.pins x = if x = 2 then 1 else 0 := hpins x (List.mem_cons_of_mem 2 hx)
    rw [hpin, if_neg]
    rintro rfl
    exact absurd hx (by decide)
  · obtain ⟨s', hc, -⟩ := hi.call (by decide) (.remove 90)
    refine ⟨s', ⟨_, hc⟩, h90, fun hk => ?_⟩
    have h0 := (hiff _ s' ⟨_, hc⟩).1 hk 2 (by simp [h90])
    rw [hpins 2 (by simp)] at h0
    cases h0

/-- The pin a second insertion leaves keeps the leaf from the free list when its last
key goes. -/
theorem duplicate_orphans_leaf : ¬ ∀ (leafMax internalMax : Nat) (s : IndexStore Nat Nat), 2 ≤ leafMax →
    Reach (· = BPlusTree.create leafMax internalMax) Step s → Accounted s := by
  intro h
  obtain ⟨⟨answers, s⟩, hs⟩ : ∃ r, r = (calls [Call.insert 1 10, .insert 1 11, .remove 1]
    (BPlusTree.create 2 4 : IndexStore Nat Nat)).get (by decide +kernel) := ⟨_, rfl⟩
  have hrun : calls [Call.insert 1 10, .insert 1 11, .remove 1] (BPlusTree.create 2 4) = some (answers, s) := by
    rw [hs, Option.some_get]
  have hheader : s.page 0 = some (.header ⟨2, none, none⟩) := by
    have := congrArg (fun r => r.2.page 0) hs
    exact this.trans (by decide +kernel)
  have hreach : Reach (· = BPlusTree.create 2 4) (Restrict Step fun _ _ => True) s :=
    calls_reach (.start rfl) (by decide +kernel) hrun
  obtain ⟨h', tree, free, hh', htree, hfree, hperm⟩ := h 2 4 s le_rfl (hreach.mono fun _ _ _ hs => hs.2)
  obtain rfl : ⟨2, none, none⟩ = h' := by simpa [hheader] using hh'
  obtain rfl := htree.unique .nil
  obtain rfl := hfree.unique (show FreeChain s none [] from rfl)
  exact absurd hperm.length_eq (by decide)

end MisakiDB
