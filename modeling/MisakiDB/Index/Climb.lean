import MisakiDB.Index.Rows
/-!
# How far up a removal goes

A page that has become too small takes an entry from its sibling through their
parent, or is merged with it, which takes an entry out of the parent. `climb`
reads off the tree which pages that discards and through which parent an entry
is borrowed in the end. `Shrunk` is what the walk up leaves behind.
-/

namespace MisakiDB

open Prog PageStore Blocks

variable {K V : Type}

/-! ## The walk, read off the tree -/

/-- The sibling a page is merged with or borrows from, and the right one of the two. -/
def neighbour (p : InternalPage K) (child : Nat) : Option (Nat × Nat) := do
  let i ← p.valueIndex child
  if i + 1 = p.getSize then
    if i = 0 then none else pure (← p.valueAt (i - 1), child)
  else pure (← p.valueAt (i + 1), ← p.valueAt (i + 1))

/-- The pages that are discarded once the page `x` is left with `size` entries, and the
parent through which an entry is borrowed. -/
def climb (s : IndexStore K V) : Nat → Nat → Nat → List Nat × Option Nat
  | 0, _, _ => ([], none)
  | fuel + 1, x, size =>
    match (s.page x).bind IndexFilePage.node with
    | none => ([], none)
    | some n =>
      if n.getMinSize ≤ size then ([], none)
      else match n.parentPageID with
        | none => if size = (if n.isLeafPage then 0 else 1) then ([x], none) else ([], none)
        | some parent =>
          match s.page parent with
          | some (.internal p) =>
            match neighbour p x with
            | none => ([], none)
            | some (sibling, right) =>
              if sizeOf s sibling + size < n.maxSize then
                (right :: (climb s fuel parent (p.getSize - 1)).1, (climb s fuel parent (p.getSize - 1)).2)
              else ([], some parent)
          | _ => ([], none)

/-- The least number of entries of a root. -/
def low : NodeType → Nat
  | .LeafPage => 1
  | .InternalPage => 2

/-- The size a page of the row keeps. -/
def Fits (N : NodeType) (s : IndexStore K V) (root : Prop) (size : Nat) : Prop :=
  low N ≤ size ∧ (¬ root → capacity N s / 2 ≤ size) ∧ size < capacity N s

/-! ## Two siblings and their parent -/

/-- Two neighbours of a level that are children of one page of the level above. -/
structure Family (s : IndexStore K V) (L L' : Level K) where
  m : Node K
  p : InternalPage K
  l : Node K
  el : K × Nat
  er : K × Nat
  X : List (K × Nat)
  Y : List (K × Nat)
  A : Level K
  B : Level K
  A' : Level K
  B' : Level K
  above : L' = A' ++ m :: B'
  page : s.page m.2 = some (.internal p)
  array : p.array = X ++ el :: er :: Y
  level : L = A ++ l :: cell er :: B
  left : A ++ [l] = below s A' ++ row m.1 (X ++ [el])
  right : B = Y.map cell ++ below s B'
  left_id : l.2 = el.2

section Family
variable {s s' : IndexStore K V} {L L' : Level K} {Ls : List (Level K)}

theorem valueIndex_eq {p : InternalPage K} {X Y : List (K × Nat)} {e : K × Nat} (hp : p.array = X ++ e :: Y)
    (hX : e.2 ∉ X.map (·.2)) : p.valueIndex e.2 = some X.length := by
  rw [InternalPage.valueIndex, hp, List.findIdx?_append, List.findIdx?_eq_none_iff.2]
  · simp [List.findIdx?_cons]
  · intro f hf
    have : f.2 ≠ e.2 := fun h => hX (h ▸ List.mem_map_of_mem hf)
    simpa using this

theorem row_concat (lo : WithBot K) (X : List (K × Nat)) (e : K × Nat) :
    ∃ R l, row lo (X ++ [e]) = R ++ [l] ∧ l.2 = e.2 := by
  cases X with
  | nil => exact ⟨[], (lo, e.2), rfl, rfl⟩
  | cons f X => exact ⟨(lo, f.2) :: X.map cell, cell e, by simp, rfl⟩

/-- The indices the walk up finds for the page `x`, and its sibling `y`. -/
structure Family.At (f : Family s L L') (x y : Nat) : Prop where
  page : x = f.l.2 ∧ y = f.er.2 ∨ x = f.er.2 ∧ y = f.l.2
  index : ∃ i j, f.p.valueIndex x = some i ∧
    (if i + 1 = f.p.getSize then if i = 0 then none else some (i - 1, i) else some (i + 1, i + 1)) =
      some (j, f.X.length + 1) ∧ f.p.valueAt j = some y
  neighbour : neighbour f.p x = some (y, f.er.2)
  parent : HasParent s x (some f.m.2)

theorem Family.ids_eq (f : Family s L L') : ids L = ids f.A ++ f.l.2 :: f.er.2 :: ids f.B :=
  (congrArg ids f.level).trans (by simp [cell])

variable [Inhabited K]

/-- A page below a page with other children has a sibling there. -/
theorem Above.family {x : Nat} (hab : Above s L (L' :: Ls)) (hx : x ∈ ids L) (hnd : (ids L).Nodup) :
    ∃ (f : Family s L L') (y : Nat), f.At x y := by
  obtain ⟨n, hn, rfl⟩ := List.mem_map.1 hx
  obtain ⟨A0, B0, rfl⟩ := List.append_of_mem hn
  obtain ⟨A', m, B', p, X, k, Y, hL', hp, hid, hes, hleft, hB0, hpar⟩ := hab.parent
  obtain ⟨p0, hp0, -, -, hfit, -⟩ := hab.2.1 m (by simp [hL'])
  obtain rfl : p0 = p := by simpa [hp0] using hp
  have h2 := hfit.1
  have hrow : ids (A0 ++ n :: B0) = ids (below s A') ++ p0.array.map (·.2) ++ ids (below s B') := by
    have : A0 ++ n :: B0 = (A0 ++ [(n.1, n.2)]) ++ B0 := by simp
    rw [this, hleft, hB0, hes]
    simp [cell, Function.comp_def]
  rw [hrow] at hnd
  have hndp : (p0.array.map (·.2)).Nodup := (List.nodup_append.1 (List.nodup_append.1 hnd).1).2.1
  have hXn : n.2 ∉ X.map (·.2) := by
    rw [hes] at hndp
    simp only [List.map_append, List.map_cons] at hndp
    grind [List.nodup_append]
  have hi := valueIndex_eq (e := (k, n.2)) hes hXn
  -- the last child has its sibling on the left, every other on the right
  rcases Y with _ | ⟨er, Y⟩
  · obtain ⟨Z, e, rfl⟩ : ∃ Z e, X = Z ++ [e] := by
      refine ⟨_, _, (List.dropLast_append_getLast (List.ne_nil_of_length_pos ?_)).symm⟩
      rw [hes] at h2
      simp at h2
      omega
    obtain ⟨R, l, hR, hl⟩ := row_concat m.1 Z e
    have hA0 : A0 = below s A' ++ row m.1 (Z ++ [e]) ∧ n = cell (k, n.2) := by
      rw [row_append (by simp) [(k, n.2)], ← List.append_assoc] at hleft
      have := List.append_inj' hleft rfl
      exact ⟨this.1, by simpa using this.2⟩
    have hv : p0.valueAt Z.length = some e.2 :=
      InternalPage.valueAt_eq (X := Z) (Y := [(k, n.2)]) (by rw [hes]; simp) rfl
    have hsize : p0.getSize = Z.length + 2 := by simp [InternalPage.getSize, hes]
    refine ⟨⟨m, p0, l, e, (k, n.2), Z, [], below s A' ++ R, B0, A', B', hL', hp, by simp [hes], ?_, ?_,
      by simp [hB0], hl⟩,
      e.2, .inr ⟨rfl, hl.symm⟩, ⟨Z.length + 1, Z.length, by simpa using hi, by simp [hsize], hv⟩, ?_, hpar⟩
    · rw [hA0.1, hR, ← hA0.2]
      simp
    · rw [hR]
      simp
    · have hi' : p0.valueIndex n.2 = some (Z.length + 1) := by simpa using hi
      simp [neighbour, hi', hsize, hv]
  · obtain ⟨R, l, hR, hl⟩ := row_concat m.1 X (k, n.2)
    have hA0 : A0 = below s A' ++ R ∧ n = l := by
      rw [hR, ← List.append_assoc] at hleft
      have := List.append_inj' hleft rfl
      exact ⟨this.1, by simpa using this.2⟩
    have hv : p0.valueAt (X.length + 1) = some er.2 :=
      InternalPage.valueAt_eq (X := X ++ [(k, n.2)]) (Y := Y) (by rw [hes]; simp) (by simp)
    have hsize : p0.getSize = X.length + Y.length + 2 := by
      simp [InternalPage.getSize, hes]
      omega
    have hne : X.length + 1 ≠ p0.getSize := by omega
    refine ⟨⟨m, p0, n, (k, n.2), er, X, Y, A0, Y.map cell ++ below s B', A', B', hL', hp, hes, ?_, hleft, rfl, rfl⟩,
      er.2, .inl ⟨rfl, rfl⟩, ⟨X.length, X.length + 1, hi, by rw [if_neg hne], hv⟩, ?_, hpar⟩
    · rw [hB0]
      simp
    · simp [neighbour, hi, hne, hv]

/-- The walk up depends on the levels above and on the sizes of the page's siblings. -/
theorem climb_congr (Ls : List (Level K)) : ∀ {L : Level K} {fuel x size : Nat}, Above s L Ls → x ∈ ids L →
    (ids L ++ allIds Ls).Nodup →
    ((s'.page x).bind IndexFilePage.node).map (fun n => (n.isLeafPage, n.parentPageID, n.maxSize)) =
      ((s.page x).bind IndexFilePage.node).map (fun n => (n.isLeafPage, n.parentPageID, n.maxSize)) →
    (∀ y ∈ ids L, y ≠ x → sizeOf s' y = sizeOf s y) → (∀ y ∈ allIds Ls, s'.page y = s.page y) →
    climb s' fuel x size = climb s fuel x size := by
  induction Ls with
  | nil =>
    intro L fuel x size hab hx hnd hn hL hLs
    obtain ⟨r, rfl, -, n, hn0, -, hpar⟩ := hab
    obtain rfl : x = r := by simpa using hx
    cases fuel with
    | zero => rfl
    | succ fuel =>
      rw [hn0] at hn
      obtain ⟨n', hn', h'⟩ := Option.map_eq_some_iff.1 hn
      simp only [Prod.mk.injEq] at h'
      simp only [climb, hn0, hn', BPlusTreePage.getMinSize, h'.1, h'.2.1, h'.2.2, hpar]
  | cons L' Ls ih =>
    intro L fuel x size hab hx hnd hn hL hLs
    cases fuel with
    | zero => rfl
    | succ fuel =>
      have hndL := (List.nodup_append.1 hnd).1
      obtain ⟨f, y, hat⟩ := hab.family hx hndL
      obtain ⟨n, hn0, -, hpar⟩ := hat.parent
      rw [hn0] at hn
      obtain ⟨n', hn', h'⟩ := Option.map_eq_some_iff.1 hn
      simp only [Prod.mk.injEq] at h'
      have hm : f.m.2 ∈ ids L' := by simp [f.above]
      have hpage : s'.page f.m.2 = s.page f.m.2 := hLs _ (by simp [allIds, hm])
      have hids := f.ids_eq
      -- the sibling is another page of the level, and keeps its size
      have hy : sizeOf s' y = sizeOf s y := by
        rw [hids] at hndL
        refine hL y ?_ ?_
        · rw [hids]
          rcases hat.page with ⟨-, rfl⟩ | ⟨-, rfl⟩ <;> simp
        · rcases hat.page with ⟨rfl, rfl⟩ | ⟨rfl, rfl⟩
          · grind [List.nodup_append]
          · grind [List.nodup_append]
      have hrec : ∀ size, climb s' fuel f.m.2 size = climb s fuel f.m.2 size := by
        intro size
        refine ih hab.2.2 hm (by simpa [allIds] using (List.nodup_append.1 hnd).2.1) (by rw [hpage]) (fun z hz _ => ?_)
          fun z hz => hLs z (by simp [allIds] at hz ⊢; exact .inr hz)
        rw [sizeOf, sizeOf, hLs z (by simp [allIds] at hz ⊢; exact .inl hz)]
      simp only [climb, hn0, hn', BPlusTreePage.getMinSize, h'.2.1, h'.2.2, hpar, hpage, f.page, hat.neighbour, hy,
        hrec]

end Family

end MisakiDB
