import MisakiDB.Index.Remove
import MisakiDB.Index.WellFormed
import MisakiDB.GenericKey
/-!
# Runs of calls on a tree

Calls are made one at a time on the tree of a new database. `TreeInv` holds
between calls: the store holds a tree with the entries of a finite map, and every
page id is in the tree, free, or lost. From it: the answers are the map's, the
tree is well formed, and the calls that give back every pin are exactly those of
`keepsPins`.
-/

namespace MisakiDB

open Prog PageStore Blocks

inductive Call (K V : Type)
  | insert (key : K) (value : V)
  | remove (key : K)
  | getValue (key : K)
  deriving Repr

inductive Answer (V : Type)
  | inserted (b : Bool)
  | found (v : Option V)
  deriving Repr, DecidableEq

variable {K V : Type} [LinearOrder K]

/-! ## Calls, and what they mean -/

def Call.prog [Inhabited K] (fuel : Nat) : Call K V → IndexProg K V (Answer V)
  | insert key value => do pure (.inserted (← BPlusTree.insert fuel key value))
  | remove key => do pure (.found (← BPlusTree.remove fuel key))
  | getValue key => do pure (.found (← BPlusTree.getValue fuel key))

/-- No walk is longer than the number of pages. -/
def bound (s : IndexStore K V) : Nat :=
  match s.page 0 with
  | some (.header h) => h.nextPageID
  | _ => 0

def call [Inhabited K] (c : Call K V) (s : IndexStore K V) : Option (Answer V × IndexStore K V) :=
  run exec (c.prog (bound s)) s

def calls [Inhabited K] : List (Call K V) → IndexStore K V → Option (List (Answer V) × IndexStore K V)
  | [], s => some ([], s)
  | c :: cs, s => do
    let (a, s') ← call c s
    let (as, s'') ← calls cs s'
    pure (a :: as, s'')

/-- What a call does to a finite map. -/
def Call.onMap (m : K → Option V) : Call K V → Answer V × (K → Option V)
  | insert key value =>
    match m key with
    | none => (.inserted true, Function.update m key (some value))
    | some _ => (.inserted false, m)
  | remove key => (.found (m key), Function.update m key none)
  | getValue key => (.found (m key), m)

def mapCalls : List (Call K V) → (K → Option V) → List (Answer V) × (K → Option V)
  | [], m => ([], m)
  | c :: cs, m => ((c.onMap m).1 :: (mapCalls cs (c.onMap m).2).1, (mapCalls cs (c.onMap m).2).2)

/-! ## One call -/

/-- The pages a call takes out of the tree that somebody has pinned. -/
def lost (s : IndexStore K V) : Call K V → List Nat
  | .insert _ _ => []
  | .remove key => (removal s (bound s) key).1.filter (s.pins · ≠ 0)
  | .getValue _ => []

/-- The calls that give back every pin: no insertion of a key that is there, and no
removal that ends in a borrowing. -/
def keepsPins (s : IndexStore K V) (m : K → Option V) : Call K V → Prop
  | .insert key _ => m key = none
  | .remove key => (removal s (bound s) key).2 = none
  | .getValue _ => True

/-- The store holds a tree with the entries of `m`; the pages `orphans` are in use but
not in the tree. -/
structure TreeInv [Inhabited K] (leafMax internalMax : Nat) (s : IndexStore K V) (m : K → Option V)
    (orphans : List Nat) : Prop where
  leafMax : s.member.leafMaxSize = leafMax
  internalMax : s.member.internalMaxSize = internalMax
  holds : ∃ pages es used free h, Alloc s used free h ∧ Holds s pages es ∧ used.Perm (pages ++ orphans) ∧ toMap es = m

section Step
variable {leafMax internalMax : Nat} {s : IndexStore K V} {m : K → Option V} {orphans : List Nat}

omit [LinearOrder K] in
theorem Alloc.bound_eq {used free : List Nat} {h : IndexFileHeader} (ha : Alloc s used free h) :
    bound s = h.nextPageID := by
  simp [bound, ha.header]

omit [LinearOrder K] in
theorem run_then {α β : Type} {p : IndexProg K V α} {a : α} {s' : IndexStore K V} (f : α → β)
    (h : run exec p s = some (a, s')) : run exec (do pure (f (← p))) s = some (f a, s') := by
  rw [run_bind, h]
  rfl

omit [LinearOrder K] in
theorem of_run_then {α β : Type} {p : IndexProg K V α} {a : α} {s' : IndexStore K V} {f : α → β}
    (hf : Function.Injective f)
    (h : run exec (do pure (f (← p))) s = some (f a, s')) : run exec p s = some (a, s') := by
  rw [run_bind] at h
  obtain ⟨⟨b, t⟩, hr, heq⟩ := Option.bind_eq_some_iff.1 h
  obtain ⟨hb, rfl⟩ := Prod.mk.inj (Option.some.inj heq)
  obtain rfl : b = a := hf hb
  exact hr

/-- A pin on a page of the tree leaves the tree as it is. -/
theorem TreeInv.pin [Inhabited K] {pages used free : List Nat} {es : List (K × V)} {h : IndexFileHeader}
    {x : Nat} (n : Nat)
    (ha : Alloc s used free h) (hh : Holds s pages es) (hperm : used.Perm (pages ++ orphans)) (hx : x ∈ pages) :
    TreeInv s.member.leafMaxSize s.member.internalMaxSize (s.setPins x n) (toMap es) orphans := by
  refine ⟨rfl, rfl, pages, es, used, free, h, ha.frame rfl (fun _ _ => rfl) fun y _ hy => ?_,
    hh.congr (fun _ _ => rfl) rfl, hperm, rfl⟩
  have hyx : y ≠ x := by
    rintro rfl
    exact hy (hperm.mem_iff.2 (List.mem_append_left _ hx))
  simp [hyx]

omit [LinearOrder K] in
theorem pinned_iff {o : Option Nat} : pinned s o = s.pins ↔ o = none := by
  cases o with
  | none => simp [pinned]
  | some a =>
    simp only [pinned, reduceCtorEq, iff_false]
    intro h
    have := congrFun h a
    simp at this

omit [LinearOrder K] in
theorem setPins_ne (x : Nat) : (s.setPins x (s.pins x + 1)).pins ≠ s.pins := by
  intro h
  have := congrFun h x
  simp at this

variable [Inhabited K]

/-- A call has the map's answer and keeps the invariant. -/
theorem TreeInv.call (hi : TreeInv leafMax internalMax s m orphans) (h2 : 2 ≤ leafMax) (c : Call K V) :
    ∃ s', call c s = some ((c.onMap m).1, s') ∧ TreeInv leafMax internalMax s' (c.onMap m).2 (orphans ++ lost s c) ∧
      (s'.pins = s.pins ↔ keepsPins s m c) := by
  obtain ⟨rfl, rfl, pages, es, used, free, h, ha, hh, hperm, rfl⟩ := hi
  have hb : h.nextPageID ≤ bound s := ha.bound_eq.ge
  cases c with
  | insert key value =>
    obtain ⟨r, s', hrun, hq⟩ := insert_spec key value hh ha hperm h2 hb
    refine ⟨s', ?_⟩
    rw [MisakiDB.call, Call.prog, run_then _ hrun, lost, List.append_nil, keepsPins]
    rcases hq with
      ⟨hk, rfl, hpins, hlm, him, pages', es', used', free', h', ha', hh', hperm', hmap⟩ | ⟨hk, rfl, x, hx, rfl⟩
    · simp only [Call.onMap, hk, hpins, iff_self, and_true, true_and]
      refine ⟨hlm, him, pages', es', used', free', h', ha', hh', hperm', funext fun k => ?_⟩
      rw [hmap, Function.update_apply]
    -- the key is there: the call returns with a pin on the leaf
    · obtain ⟨v, hv⟩ := Option.ne_none_iff_exists'.1 hk
      simp only [Call.onMap, hv, setPins_ne, reduceCtorEq, iff_self, and_true, true_and]
      exact TreeInv.pin _ ha hh hperm hx
  | remove key =>
    obtain ⟨r, s', hrun, rfl, hq⟩ := remove_spec key hh ha hperm h2 hb
    refine ⟨s', ?_⟩
    rw [MisakiDB.call, Call.prog, run_then _ hrun, lost, keepsPins]
    rcases hq with ⟨hk, hrem, rfl⟩ | ⟨hpins, hlm, him, pages', es', used', free', h', ha', hh', hperm', hmap⟩
    · refine ⟨rfl, ?_, by simp [hrem]⟩
      rw [hrem, List.filter_nil, List.append_nil]
      refine ⟨rfl, rfl, pages, es, used, free, h, ha, hh, hperm, ?_⟩
      rw [Call.onMap, ← hk, Function.update_eq_self]
    · refine ⟨rfl, ⟨hlm, him, pages', es', used', free', h', ha', hh', hperm', funext fun k => ?_⟩, ?_⟩
      · exact (hmap k).trans (Function.update_apply ..).symm
      · rw [hpins, pinned_iff]
  | getValue key =>
    obtain ⟨r, s', hrun, rfl, rfl⟩ := getValue_spec key hh ha hperm hb
    refine ⟨s', ?_⟩
    rw [MisakiDB.call, Call.prog, run_then _ hrun, lost, List.append_nil, keepsPins]
    exact ⟨rfl, ⟨rfl, rfl, pages, es, used, free, h, ha, hh, hperm, rfl⟩, by simp⟩

theorem TreeInv.create (leafMax internalMax : Nat) :
    TreeInv leafMax internalMax (BPlusTree.create leafMax internalMax : IndexStore K V) (fun _ => none) [] := by
  refine ⟨rfl, rfl, [], [], [], [], IndexFileHeader.init, ⟨rfl, rfl, le_rfl, rfl, List.Perm.refl _, fun x hx => ?_,
    fun _ _ _ => rfl⟩, .inl ⟨rfl, rfl, rfl⟩, List.Perm.refl _, rfl⟩
  have hx : x ≠ 0 := by
    rintro rfl
    exact absurd hx (by decide)
  simp [BPlusTree.create, hx]

/-! ## A run -/

theorem TreeInv.calls (hi : TreeInv leafMax internalMax s m orphans) (h2 : 2 ≤ leafMax) (cs : List (Call K V)) :
    ∃ s' orphans', calls cs s = some ((mapCalls cs m).1, s') ∧
    TreeInv leafMax internalMax s' (mapCalls cs m).2 orphans' := by
  induction cs generalizing s m orphans with
  | nil => exact ⟨s, orphans, rfl, hi⟩
  | cons c cs ih =>
    obtain ⟨s1, hc, hi1, -⟩ := hi.call h2 c
    obtain ⟨s2, orphans', hcs, hi2⟩ := ih hi1
    exact ⟨s2, orphans', by simp [MisakiDB.calls, hc, hcs, mapCalls], hi2⟩

/-- The states of a run are those of the invariant. -/
theorem TreeInv.reached {cs : List (Call K V)} {answers : List (Answer V)} (h2 : 2 ≤ leafMax)
    (hrun : MisakiDB.calls cs (BPlusTree.create leafMax internalMax) = some (answers, s)) :
    ∃ orphans, TreeInv leafMax internalMax s (mapCalls cs fun _ => none).2 orphans := by
  obtain ⟨s', orphans, hcs, hi⟩ := (TreeInv.create leafMax internalMax).calls h2 cs
  rw [hrun, Option.some.injEq, Prod.mk.injEq] at hcs
  obtain ⟨-, rfl⟩ := hcs
  exact ⟨orphans, hi⟩

end Step

/-- Whatever calls are made on a new tree, each ends with the answer of a finite map. -/
theorem calls_eq_map [Inhabited K] {leafMax : Nat} (h2 : 2 ≤ leafMax) (internalMax : Nat) (cs : List (Call K V)) :
    ∃ s, calls cs (BPlusTree.create leafMax internalMax) = some ((mapCalls cs fun _ => none).1, s) := by
  obtain ⟨s, -, hcs, -⟩ := (TreeInv.create leafMax internalMax).calls h2 cs
  exact ⟨s, hcs⟩

theorem calls_eq_map_split_merge : ∃ s, calls [.insert 1 10, .insert 2 20, .insert 3 30, .insert 3 31, .getValue 2,
      .remove 1, .remove 2, .getValue 2, .remove 3] (BPlusTree.create 2 4 : IndexStore Nat Nat) =
    some ([.inserted true, .inserted true, .inserted true, .inserted false, .found (some 20), .found (some 10),
      .found (some 20), .found none, .found (some 30)], s) :=
  calls_eq_map (by decide) 4 _

/-! ## The shape of the tree -/

section Shape
variable [Inhabited K] {leafMax internalMax : Nat} {s : IndexStore K V} {cs : List (Call K V)} {answers : List (Answer V)}

theorem Tree.contents_ne {L : Level K} {Ls : List (Level K)} (ht : Tree s L Ls) :
    ∃ k, toMap (contents s L) k ≠ none := by
  obtain ⟨n, M, rfl⟩ := List.exists_cons_of_ne_nil ht.above.length_le.1
  obtain ⟨p, hp, -, -, hfit⟩ := ht.level.leaves n (by simp)
  obtain ⟨e, es, he⟩ := List.exists_cons_of_length_pos hfit.1
  refine ⟨e.1, fun hnone => toMap_eq_none.1 hnone e ?_ rfl⟩
  simp [contents, flat, entries_eq hp, he]

/-- The page ids of a tree, or of none, and the entries it has. -/
theorem TreeInv.shape {m : K → Option V} {orphans : List Nat} (hi : TreeInv leafMax internalMax s m orphans) :
    (∃ h, s.page 0 = some (.header h) ∧ h.rootPageID = s.member.rootPageID) ∧
    (s.member.rootPageID = INVALID_PAGE_ID ↔ ∀ k, m k = none) ∧
    ∀ root, s.member.rootPageID = some root → Formed s root := by
  obtain ⟨-, -, pages, es, used, free, h, ha, hh, hperm, rfl⟩ := hi
  refine ⟨⟨h, ha.header, ha.root⟩, ?_⟩
  rcases hh with ⟨hr, rfl, rfl⟩ | ⟨L, Ls, ht, rfl, rfl⟩
  · refine ⟨⟨fun _ _ => rfl, fun _ => hr⟩, fun root hroot => ?_⟩
    rw [hr] at hroot
    cases hroot
  · obtain ⟨r, hr, -⟩ := ht.root
    refine ⟨?_, fun root hroot => ht.formed hroot ?_⟩
    · obtain ⟨k, hk⟩ := ht.contents_ne
      rw [hr]
      exact ⟨fun hc => (Option.some_ne_none r hc).elim, fun hnone => absurd (hnone k) hk⟩
    · have := hperm.nodup_iff.1 (List.nodup_append.1 ha.nodup).1
      exact (List.nodup_append.1 (List.nodup_append.1 this).1).1

/-- After any calls the tree is well formed, and the header knows its root. -/
theorem tree_formed (h2 : 2 ≤ leafMax) (hrun : calls cs (BPlusTree.create leafMax internalMax) = some (answers, s)) :
    (∃ h, s.page 0 = some (.header h) ∧ h.rootPageID = s.member.rootPageID) ∧
    (s.member.rootPageID = INVALID_PAGE_ID ↔ ∀ k, (mapCalls cs fun _ => none).2 k = none) ∧
    ∀ root, s.member.rootPageID = some root → Formed s root := by
  obtain ⟨orphans, hi⟩ := TreeInv.reached h2 hrun
  exact hi.shape

end Shape

/-- Two keys that are before the zero key, and the tree they make. -/
def negativeKeys : List (Call (GenericKey RECORD_KEY_SIZE) Nat) :=
  [.insert ⟨List.replicate 24 (-2), rfl⟩ 0, .insert ⟨List.replicate 24 (-1), rfl⟩ 1]

theorem tree_formed_split : ∃ s root,
    calls negativeKeys (BPlusTree.create 2 4) = some ([.inserted true, .inserted true], s) ∧
    s.member.rootPageID = some root ∧ Formed s root := by
  obtain ⟨⟨answers, s⟩, hs⟩ : ∃ r, r = (calls negativeKeys (BPlusTree.create 2 4)).get (by decide +kernel) := ⟨_, rfl⟩
  have hrun : calls negativeKeys (BPlusTree.create 2 4) = some (answers, s) := by rw [hs, Option.some_get]
  have hroot : s.member.rootPageID = some 3 := by
    have := congrArg (fun r => r.2.member.rootPageID) hs
    exact this.trans (by decide +kernel)
  have hans : answers = [.inserted true, .inserted true] := by
    have := congrArg (fun r => r.1) hs
    exact this.trans (by decide +kernel)
  exact ⟨s, 3, hans ▸ hrun, hroot, (tree_formed (le_refl 2) hrun).2.2 3 hroot⟩


/-- The first key of a root is the zero key, which is after them. -/
theorem first_key_above : ¬ ∀ (leafMax internalMax : Nat) (cs : List (Call (GenericKey RECORD_KEY_SIZE) Nat))
    (answers : List (Answer Nat)) (s : IndexStore (GenericKey RECORD_KEY_SIZE) Nat) (root : Nat), 2 ≤ leafMax →
    calls cs (BPlusTree.create leafMax internalMax) = some (answers, s) → s.member.rootPageID = some root →
    ChildBounds s root fun _ _ => False := by
  intro h
  obtain ⟨⟨answers, s⟩, hs⟩ : ∃ r, r = (calls negativeKeys (BPlusTree.create 2 4)).get (by decide +kernel) := ⟨_, rfl⟩
  have hrun : calls negativeKeys (BPlusTree.create 2 4) = some (answers, s) := by rw [hs, Option.some_get]
  have hroot : s.member.rootPageID = some 3 := by
    have := congrArg (fun r => r.2.member.rootPageID) hs
    exact this.trans (by decide +kernel)
  have hpage : s.page 3 = some (.internal ⟨3, none, 4, [(default, 1), (⟨List.replicate 24 (-1), rfl⟩, 2)]⟩) := by
    have := congrArg (fun r => r.2.page 3) hs
    exact this.trans (by decide +kernel)
  have hleaf : leafEntries s 1 = [(⟨List.replicate 24 (-2), rfl⟩, 0)] := by
    have := congrArg (fun r => leafEntries r.2 1) hs
    exact this.trans (by decide +kernel)
  have hb := h 2 4 negativeKeys answers s 3 le_rfl hrun hroot 0 3 _ .refl hpage 0 _ rfl 0 1 .refl _
    (by rw [hleaf]; exact List.mem_singleton_self _)
  exact absurd (hb.1.resolve_left id) (by decide +kernel)

/-! ## Pins -/

/-- On the free list, or not handed out yet. -/
def Vacant (s : IndexStore K V) (x : Nat) : Prop :=
  ∃ h free, s.page 0 = some (.header h) ∧ FreeChain s h.freePageListHeader free ∧ (x ∈ free ∨ h.nextPageID ≤ x)

/-- Every page has the pins it had; one that the call makes or discards has none. -/
def PinsKept (s s' : IndexStore K V) : Prop :=
  s'.pins = s.pins ∧ ∀ x, Vacant s x ∨ Vacant s' x → s'.pins x = 0

section Pins
variable {leafMax internalMax : Nat} {s s' : IndexStore K V} {cs : List (Call K V)} {answers : List (Answer V)}

omit [LinearOrder K] in
theorem FreeChain.unique {start : Option Nat} {free free' : List Nat} (h : FreeChain s start free)
    (h' : FreeChain s start free') : free = free' := by
  induction free generalizing start free' with
  | nil =>
    obtain rfl : start = none := h
    cases free' with
    | nil => rfl
    | cons x free' => cases h'.1
  | cons x free ih =>
    obtain ⟨rfl, f, hf, hc⟩ := h
    cases free' with
    | nil => cases h'
    | cons y free' =>
      obtain ⟨hy, g, hg, hc'⟩ := h'
      obtain rfl : x = y := Option.some.inj hy
      obtain rfl : f = g := by simpa [hf] using hg
      rw [ih hc hc']

omit [LinearOrder K] in
theorem Alloc.vacant {used free : List Nat} {h : IndexFileHeader} (ha : Alloc s used free h) {x : Nat}
    (hx : Vacant s x) :
    s.pins x = 0 := by
  obtain ⟨h', free', hh', hc, hx⟩ := hx
  obtain rfl : h = h' := by simpa [ha.header] using hh'
  obtain rfl := ha.chain.unique hc
  have hnext := ha.next_pos
  have hx0 : x ≠ 0 := by
    rcases hx with hx | hx
    · have := (ha.mem_iff x).1 (.inr hx)
      omega
    · omega
  refine ha.unpinned x hx0 fun hu => ?_
  rcases hx with hx | hx
  · exact (List.nodup_append.1 ha.nodup).2.2 x hu x hx rfl
  · have := ha.bounds hu
    omega

variable [Inhabited K]

theorem TreeInv.pinsKept {m : K → Option V} {orphans : List Nat} (hi : TreeInv leafMax internalMax s m orphans)
    (h2 : 2 ≤ leafMax) {c : Call K V} {a : Answer V} (hc : MisakiDB.call c s = some (a, s')) :
    PinsKept s s' ↔ keepsPins s m c := by
  obtain ⟨s1, hc1, hi1, hpins⟩ := hi.call h2 c
  rw [hc, Option.some.injEq, Prod.mk.injEq] at hc1
  obtain ⟨-, rfl⟩ := hc1
  rw [← hpins]
  refine ⟨And.left, fun h => ⟨h, fun x hx => ?_⟩⟩
  obtain ⟨-, -, _, _, _, _, _, ha, -⟩ := hi
  obtain ⟨-, -, _, _, _, _, _, ha1, -⟩ := hi1
  rcases hx with hx | hx
  · rw [h, ha.vacant hx]
  · exact ha1.vacant hx

/-- After any calls, the next call keeps every pin count exactly when it is one of `keepsPins`. -/
theorem pins_kept_iff (h2 : 2 ≤ leafMax) (hrun : calls cs (BPlusTree.create leafMax internalMax) = some (answers, s))
    {c : Call K V} {a : Answer V} (hc : call c s = some (a, s')) :
    PinsKept s s' ↔ keepsPins s (mapCalls cs fun _ => none).2 c := by
  obtain ⟨orphans, hi⟩ := TreeInv.reached h2 hrun
  exact hi.pinsKept h2 hc

end Pins

/-- Four leaves under two internal pages under the root. -/
def fourLeaves : List (Call Nat Nat) := [10, 20, 30, 40, 50, 60, 70, 80, 90].map fun k => .insert k k

theorem pins_kept_iff_fourLeaves : ∃ answers s, calls fourLeaves (BPlusTree.create 4 4) = some (answers, s) ∧
    (∃ a s', call (.insert 75 75) s = some (a, s') ∧ PinsKept s s') ∧
    (∃ a s', call (.remove 30) s = some (a, s') ∧ (removal s (bound s) 30).1 = [2, 6, 7] ∧ PinsKept s s') ∧
    (∃ a s', call (.remove 50) s = some (a, s') ∧ ¬ PinsKept s s') ∧
    ∃ a s', call (.insert 10 11) s = some (a, s') ∧ ¬ PinsKept s s' := by
  have hfacts : ∀ r ∈ calls fourLeaves (BPlusTree.create 4 4), removal r.2 (bound r.2) 30 = ([2, 6, 7], none) ∧
      (removal r.2 (bound r.2) 50).2 = some 6 := by
    decide +kernel
  obtain ⟨⟨answers, s⟩, hrun⟩ : ∃ r, calls fourLeaves (BPlusTree.create 4 4) = some r :=
    Option.isSome_iff_exists.1 (by decide +kernel)
  obtain ⟨merges, borrows⟩ := hfacts _ hrun
  have h2 : 2 ≤ 4 := by decide
  obtain ⟨orphans, hi⟩ := TreeInv.reached h2 hrun
  refine ⟨answers, s, hrun, ?_, ?_, ?_, ?_⟩
  · obtain ⟨s', hc, -⟩ := hi.call h2 (.insert 75 75)
    refine ⟨_, s', hc, (pins_kept_iff h2 hrun hc).2 ?_⟩
    show (mapCalls fourLeaves fun _ => none).2 75 = none
    decide
  · obtain ⟨s', hc, -⟩ := hi.call h2 (.remove 30)
    exact ⟨_, s', hc, congrArg Prod.fst merges, (pins_kept_iff h2 hrun hc).2 (congrArg Prod.snd merges)⟩
  · obtain ⟨s', hc, -⟩ := hi.call h2 (.remove 50)
    refine ⟨_, s', hc, fun hk => ?_⟩
    have hnone : (removal s (bound s) 50).2 = none := (pins_kept_iff h2 hrun hc).1 hk
    rw [borrows] at hnone
    cases hnone
  · obtain ⟨s', hc, -⟩ := hi.call h2 (.insert 10 11)
    refine ⟨_, s', hc, fun hk => ?_⟩
    have hnone : (mapCalls fourLeaves fun _ => none).2 10 = none := (pins_kept_iff h2 hrun hc).1 hk
    exact absurd hnone (by decide)

/-- A second insertion of a key leaves the leaf pinned. -/
theorem duplicate_keeps_pin : ¬ ∀ (leafMax internalMax : Nat) (cs : List (Call Nat Nat)) (answers : List (Answer Nat))
    (s s' : IndexStore Nat Nat) (c : Call Nat Nat) (a : Answer Nat), 2 ≤ leafMax →
    calls cs (BPlusTree.create leafMax internalMax) = some (answers, s) → call c s = some (a, s') → PinsKept s s' := by
  intro h
  obtain ⟨⟨answers, s⟩, hs⟩ : ∃ r, r = (calls [Call.insert 1 10] (BPlusTree.create 2 4 : IndexStore Nat Nat)).get
    (by decide +kernel) := ⟨_, rfl⟩
  have hrun : calls [Call.insert 1 10] (BPlusTree.create 2 4) = some (answers, s) := by rw [hs, Option.some_get]
  obtain ⟨orphans, hi⟩ := TreeInv.reached (le_refl 2) hrun
  obtain ⟨s', hc, -⟩ := hi.call (le_refl 2) (.insert 1 11)
  have hk := (hi.pinsKept (le_refl 2) hc).1 (h 2 4 _ _ _ _ _ _ (le_refl 2) hrun hc)
  exact absurd (show (mapCalls [Call.insert 1 10] fun _ => none).2 1 = none from hk) (by decide)

end MisakiDB
