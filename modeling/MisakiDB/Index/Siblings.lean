import MisakiDB.Index.Remove
/-!
# Two siblings and the key between them

What a split, a merge or a borrowing does to two adjacent pages of a kind and to their
separator in the parent, read as one sequence: the entries of two leaves, or the children
of two internal pages with the keys between them. Each moves a border in that sequence and
leaves the sequence as it is.
-/

namespace MisakiDB

open Prog PageStore

variable {K V : Type}

/-! ## The sequence -/

inductive Item (K V : Type)
  | entry (key : K) (value : V)
  | child (pageID : PageIDType)
  | key (key : K)
  deriving Repr, DecidableEq

def keyed (e : K × PageIDType) : List (Item K V) := [.key e.1, .child e.2]

/-- The children of an internal page and the keys between them: not its first key. -/
def alternate : List (K × PageIDType) → List (Item K V)
  | [] => []
  | e :: es => .child e.2 :: es.flatMap keyed

def inOrder (s : IndexStore K V) (x : PageIDType) : List (Item K V) :=
  match s.page x with
  | some (.leaf p) => p.array.map fun e => .entry e.1 e.2
  | some (.internal p) => alternate p.array
  | _ => []

/-- Two pages under the separator `sep`, which is no entry of the leaves. -/
def sequence (N : NodeType) (s : IndexStore K V) (left : PageIDType) (sep : K) (right : PageIDType) : List (Item K V) :=
  match N with
  | .LeafPage => inOrder s left ++ inOrder s right
  | .InternalPage => inOrder s left ++ .key sep :: inOrder s right

/-- The parent a tree page names. -/
def parentOf (s : IndexStore K V) (x : PageIDType) : Option (Option PageIDType) :=
  ((s.page x).bind IndexFilePage.node).map (·.parentPageID)

section Reads
variable {s s' : IndexStore K V} {x : PageIDType}

/-- The separator takes the place of the right page's first key. -/
theorem alternate_join {X Y : List (K × PageIDType)} {e : K × PageIDType} (hX : X ≠ []) (k : K) :
    (alternate X ++ .key k :: alternate (e :: Y) : List (Item K V)) = alternate (X ++ (k, e.2) :: Y) := by
  cases X with
  | nil => exact absurd rfl hX
  | cons f X => simp [alternate, keyed]

theorem inOrder_leaf {p : LeafPage K V} (hp : s.page x = some (.leaf p)) :
    inOrder s x = p.array.map fun e => .entry e.1 e.2 := by
  simp [inOrder, hp]

theorem inOrder_internal {p : InternalPage K} (hp : s.page x = some (.internal p)) :
    inOrder s x = alternate p.array := by
  simp [inOrder, hp]

theorem inOrder_congr (h : SameBody s s' x) : inOrder s' x = inOrder s x :=
  h.reads (f := fun o : Option (IndexPage K V) => match o with
    | some (.leaf p) => p.array.map fun e : K × V => Item.entry e.1 e.2
    | some (.internal p) => alternate p.array
    | _ => []) fun o => by rcases o with _ | _ | _ | _ | _ | _ <;> rfl

theorem kids_leaf {p : LeafPage K V} (hp : s.page x = some (.leaf p)) : kids s x = [] := by
  simp [kids, hp]

theorem kids_internal {p : InternalPage K} (hp : s.page x = some (.internal p)) : kids s x = p.array.map (·.2) := by
  simp [kids, hp]

theorem parentOf_congr (hp : s'.page x = s.page x) : parentOf s' x = parentOf s x := by
  rw [parentOf, hp, parentOf]

theorem parentOf_leaf {p : LeafPage K V} (hp : s.page x = some (.leaf p)) : parentOf s x = some p.parentPageID := by
  simp [parentOf, hp]

theorem parentOf_internal {p : InternalPage K} (hp : s.page x = some (.internal p)) :
    parentOf s x = some p.parentPageID := by
  simp [parentOf, hp]

theorem IsKind.hasParent {N : NodeType} {a : Option PageIDType} (h : IsKind N s x) (ha : parentOf s x = some a) :
    HasParent s x a := by
  obtain ⟨n, hn, hid⟩ := h.node
  rw [parentOf, hn] at ha
  exact ⟨n, hn, hid, Option.some.inj ha⟩

theorem parentOf_header {h : IndexFileHeader} (hp : s.page x = some (.header h)) : parentOf s x = none := by
  simp [parentOf, hp, IndexFilePage.node]

theorem parentOf_set {n : BPlusTreePage} {a : Option PageIDType} (hn : (s.page x).bind IndexFilePage.node = some n)
    (hp : s'.page x = (s.page x).map (IndexFilePage.setParentPageID a)) : parentOf s' x = some a := by
  obtain ⟨pg, hpg, hn⟩ := Option.bind_eq_some_iff.1 hn
  rw [parentOf, hp, hpg, Option.map_some, Option.bind_some, node_setParentPageID hn a]
  rfl

theorem sizeOf_congr (h : SameBody s s' x) : sizeOf s' x = sizeOf s x :=
  h.reads (f := fun o : Option (IndexPage K V) => ((o.bind IndexFilePage.node).map BPlusTreePage.size).getD 0)
    fun o => by
    rcases o with _ | _ | _ | _ | _ | _ <;> rfl

theorem SameBody.node {n : BPlusTreePage} (h : SameBody s s' x) (hn : (s.page x).bind IndexFilePage.node = some n) :
    ∃ n', (s'.page x).bind IndexFilePage.node = some n' ∧ n'.pageID = n.pageID := by
  have hid := h.reads (f := fun o : Option (IndexPage K V) => (o.bind IndexFilePage.node).map BPlusTreePage.pageID)
    fun o => by rcases o with _ | _ | _ | _ | _ | _ <;> rfl
  simp only [hn, Option.map_some] at hid
  exact Option.map_eq_some_iff.1 hid

end Reads

/-! ## Two pages -/

/-- Two pages of one kind; they and their children are different pages, and the children know their ids. -/
structure Pair (N : NodeType) (s : IndexStore K V) (l r : PageIDType) : Prop where
  left : IsKind N s l
  right : IsKind N s r
  nodup : (l :: r :: (kids s l ++ kids s r)).Nodup
  nodes : ∀ c ∈ kids s l ++ kids s r, ∃ n, (s.page c).bind IndexFilePage.node = some n ∧ n.pageID = c
  /-- An internal page has a child. -/
  nonempty : N = .InternalPage → kids s l ≠ [] ∧ kids s r ≠ []

/-- The entries `i` and `i + 1` of the page `p` are those of `l` and `r`, and the second has the key `sep`. -/
structure Siblings (N : NodeType) (s : IndexStore K V) (parent : PageIDType) (p : InternalPage K) (i : Nat)
    (l r : PageIDType) (sep : K) : Prop extends Pair N s l r where
  page : s.page parent = some (.internal p)
  valueAt : p.valueAt i = some l
  entry : p.array[i + 1]? = some (sep, r)
  parents : parentOf s l = some (some parent) ∧ parentOf s r = some (some parent)
  apart : parent ∉ l :: r :: (kids s l ++ kids s r)

/-- What a move does to parents: the pages `moved` have the parent `a` now, the pages `made` are
new, and no other page has another parent. The pages not in `own` differ in that at most. -/
structure Adopted (s s' : IndexStore K V) (own made moved : List PageIDType) (a : PageIDType) : Prop where
  adopted : ∀ c ∈ moved, parentOf s' c = some (some a)
  others : ∀ c, c ∉ moved → c ∉ made → parentOf s' c = parentOf s c
  body : ∀ c, c ∉ own → SameBody s s' c

section Frame
variable {N : NodeType} {s s' s'' : IndexStore K V} {own made moved : List PageIDType} {a x l r : PageIDType}

/-- A page is written that keeps its parent. -/
theorem Adopted.write {p q : InternalPage K} (h : Adopted s s' own made moved a) (hx : x ∉ moved)
    (hp : s.page x = some (.internal p)) (hs : s''.page = Function.update s'.page x (some (.internal q)))
    (hpar : q.parentPageID = p.parentPageID) : Adopted s s'' (x :: own) made moved a := by
  have hne : ∀ c, c ≠ x → s''.page c = s'.page c := fun c hc => by rw [hs, Function.update_of_ne hc]
  refine ⟨fun c hc => ?_, fun c hc hm => ?_, fun c hc => ?_⟩
  · have hcx : c ≠ x := by
      rintro rfl
      exact hx hc
    rw [parentOf_congr (hne c hcx), h.adopted c hc]
  · rcases eq_or_ne c x with rfl | hcx
    · rw [parentOf_internal hp, parentOf_internal (p := q) (by rw [hs, Function.update_self]), hpar]
    · rw [parentOf_congr (hne c hcx), h.others c hc hm]
  · rw [List.mem_cons, not_or] at hc
    exact (h.body c hc.2).trans (.of_eq (hne c hc.1))

/-- A page that keeps its parent is as it was. -/
theorem Adopted.page (h : Adopted s s' own made moved a) {c : PageIDType} (ho : c ∉ own) (hm : c ∉ moved)
    (hn : c ∉ made) : s'.page c = s.page c := by
  have hbody := h.body c ho
  have hpar := h.others c hm hn
  unfold SameBody at hbody
  unfold parentOf at hpar
  rcases hc : s.page c with _ | pg
  · simpa [hc] using hbody
  · rcases hc' : s'.page c with _ | pg'
    · simp [hc, hc'] at hbody
    · rw [hc, hc', Option.map_some, Option.map_some, Option.some.injEq] at hbody
      rcases pg with _ | _ | _ | ⟨_, _⟩ | ⟨_, _⟩ <;> rcases pg' with _ | _ | _ | ⟨_, _⟩ | ⟨_, _⟩ <;>
        simp_all [IndexFilePage.setParentPageID, TreePage.setParentPageID]

/-- The two pages and their children differ in their parents at most. -/
theorem Pair.congr (h : Pair N s l r) (hb : ∀ c ∈ l :: r :: (kids s l ++ kids s r), SameBody s s' c) :
    Pair N s' l r := by
  have hl := hb l (by simp)
  have hr := hb r (by simp)
  refine ⟨h.left.congr hl, h.right.congr hr, ?_, fun c hc => ?_, ?_⟩
  · rw [kids_congr hl, kids_congr hr]
    exact h.nodup
  · rw [kids_congr hl, kids_congr hr] at hc
    obtain ⟨n, hn, hid⟩ := h.nodes c hc
    obtain ⟨n', hn', hid'⟩ := (hb c (List.mem_cons_of_mem _ (List.mem_cons_of_mem _ hc))).node hn
    exact ⟨n', hn', hid'.trans hid⟩
  · rw [kids_congr hl, kids_congr hr]
    exact h.nonempty

theorem sequence_congr (hl : SameBody s s' l) (hr : SameBody s s' r) (sep : K) :
    sequence N s' l sep r = sequence N s l sep r := by
  cases N <;> simp only [sequence, inOrder_congr hl, inOrder_congr hr]

end Frame

/-! ## The moves -/

section Moves
variable {N : NodeType} {s s' : IndexStore K V} {l r : PageIDType}

/-- The move of a merge, for both kinds of page. -/
def moveAllTo (N : NodeType) (this recipient : PageIDType) (middleKey : K) : IndexProg K V Unit :=
  match N with
  | .LeafPage => LeafPage.moveAllTo this recipient
  | .InternalPage => InternalPage.moveAllTo this recipient middleKey

theorem Pair.ne (h : Pair N s l r) : l ≠ r := by
  rintro rfl
  simpa using h.nodup

theorem Pair.leaf (h : Pair .LeafPage s l r) : ∃ p q, s.page l = some (.leaf p) ∧ s.page r = some (.leaf q) ∧
    p.pageID = l ∧ q.pageID = r := by
  obtain ⟨p, hp, hid⟩ := h.left
  obtain ⟨q, hq, hidq⟩ := h.right
  exact ⟨p, q, hp, hq, hid, hidq⟩

theorem Pair.internal (h : Pair .InternalPage s l r) :
    ∃ p q, InternalPair s l r p q ∧ p.array ≠ [] ∧ ∃ e Y, q.array = e :: Y := by
  obtain ⟨p, hp, hid⟩ := h.left
  obtain ⟨q, hq, hidq⟩ := h.right
  obtain ⟨-, -, hnd, hnodes, hne⟩ := h
  rw [kids_internal hp, kids_internal hq] at hnd hnodes hne
  obtain ⟨hp1, hq1⟩ := hne rfl
  exact ⟨p, q, ⟨hp, hq, hid, hidq, hnd, hnodes⟩, by simpa using hp1, List.exists_cons_of_ne_nil (by simpa using hq1)⟩

section Shared
variable {p q p' q' : LeafPage K V}

theorem Shared.adopted (h : Shared s s' l r p' q') (hp : s.page l = some (.leaf p)) (hq : s.page r = some (.leaf q))
    (hl : p'.parentPageID = p.parentPageID) (hr : q'.parentPageID = q.parentPageID) (a : PageIDType) :
    Adopted s s' [l, r] [] [] a := by
  refine ⟨fun c hc => absurd hc (by simp), fun c _ _ => ?_, fun c hc => ?_⟩
  · rcases eq_or_ne c l with rfl | hcl
    · rw [parentOf_leaf hp, parentOf_leaf h.left, hl]
    · rcases eq_or_ne c r with rfl | hcr
      · rw [parentOf_leaf hq, parentOf_leaf h.right, hr]
      · exact parentOf_congr (h.rest c hcl hcr)
  · simp only [List.mem_cons, List.not_mem_nil, or_false, not_or] at hc
    exact .of_eq (h.rest c hc.1 hc.2)

theorem Shared.pair (h : Shared s s' l r p' q') (hlr : l ≠ r) (hl : p'.pageID = l) (hr : q'.pageID = r) :
    Pair .LeafPage s' l r := by
  refine ⟨⟨p', h.left, hl⟩, ⟨q', h.right, hr⟩, ?_, ?_, by simp⟩
  · simpa [kids_leaf h.left, kids_leaf h.right] using hlr
  · simp [kids_leaf h.left, kids_leaf h.right]

end Shared

section Swapped
variable {p q : InternalPage K} {X Y : List (K × PageIDType)} {C : List PageIDType} {a : PageIDType}

theorem Swapped.adopted (h : Swapped s s' l r p q X Y C a) (hi : InternalPair s l r p q)
    (hpair : Pair .InternalPage s l r) :
    Adopted s s' [l, r] [] C a := by
  refine ⟨fun c hc => ?_, fun c hc _ => ?_, fun c hc => ?_⟩
  · have hsub := h.sub c hc
    rw [← kids_internal hi.left, ← kids_internal hi.right] at hsub
    obtain ⟨n, hn, -⟩ := hpair.nodes c hsub
    exact parentOf_set hn (h.moved c hc)
  · rcases eq_or_ne c l with rfl | hcl
    · rw [parentOf_internal hi.left, parentOf_internal h.left]
    · rcases eq_or_ne c r with rfl | hcr
      · rw [parentOf_internal hi.right, parentOf_internal h.right]
      · exact parentOf_congr (h.rest c hcl hcr hc)
  · simp only [List.mem_cons, List.not_mem_nil, or_false, not_or] at hc
    by_cases hm : c ∈ C
    · rw [SameBody, h.moved c hm]
      cases s.page c <;> simp
    · exact .of_eq (h.rest c hc.1 hc.2 hm)

/-- The two pages have shared out the same children anew. -/
theorem Swapped.pair (h : Swapped s s' l r p q X Y C a) (hi : InternalPair s l r p q) (hpair : Pair .InternalPage s l r)
    (hX : X ≠ []) (hY : Y ≠ []) (hkids : X.map (·.2) ++ Y.map (·.2) = p.array.map (·.2) ++ q.array.map (·.2)) :
    Pair .InternalPage s' l r := by
  have hl := kids_internal h.left
  have hr := kids_internal h.right
  simp only at hl hr
  refine ⟨⟨_, h.left, hi.leftID⟩, ⟨_, h.right, hi.rightID⟩, ?_, fun c hc => ?_, ?_⟩
  · rw [hl, hr, hkids]
    exact hi.nodup
  · rw [hl, hr, hkids] at hc
    obtain ⟨hcl, hcr⟩ := hi.apart hc
    rw [← kids_internal hi.left, ← kids_internal hi.right] at hc
    obtain ⟨n, hn, hid⟩ := hpair.nodes c hc
    by_cases hm : c ∈ C
    · obtain ⟨pg, hpg, hn⟩ := Option.bind_eq_some_iff.1 hn
      exact ⟨{ n with parentPageID := some a }, by rw [h.moved c hm, hpg]; exact node_setParentPageID hn _, hid⟩
    · exact ⟨n, by rw [h.rest c hcl hcr hm, hn], hid⟩
  · rw [hl, hr]
    simp [hX, hY]

end Swapped

/-- All of the right page, under the separator, comes after the left one. -/
theorem Pair.moveAllTo (h : Pair N s l r) (key : K) : wp exec (moveAllTo N r l key) (fun _ s' =>
    inOrder s' l = sequence N s l key r ∧ inOrder s' r = [] ∧ Adopted s s' [l, r] [] (kids s r) l ∧
    s'.pins = s.pins ∧ s'.member = s.member) s := by
  cases N with
  | LeafPage =>
    obtain ⟨p, q, hp, hq, -⟩ := h.leaf
    refine wp_conseq (LeafPage.moveAllTo_shared hp hq h.ne) fun _ s' hsh => ⟨?_, ?_, ?_, hsh.pins, hsh.member⟩
    · simp [sequence, inOrder_leaf hsh.left, inOrder_leaf hp, inOrder_leaf hq]
    · simp [inOrder_leaf hsh.right]
    · rw [kids_leaf hq]
      exact hsh.adopted hp hq rfl rfl l
  | InternalPage =>
    obtain ⟨p, q, hi, hp, e, Y, hY⟩ := h.internal
    refine wp_conseq (hi.moveAllTo hY key) fun _ s' hsw => ⟨?_, ?_, ?_, hsw.pins, hsw.member⟩
    · rw [sequence, inOrder_internal hsw.left, inOrder_internal hi.left, inOrder_internal hi.right, hY,
        alternate_join hp]
    · rw [inOrder_internal hsw.right]
      rfl
    · rw [kids_internal hi.right]
      exact hsw.adopted hi h

/-- What a borrowing leaves of two pages: one entry has gone from `donor` to `recipient`, the
sequence is the one before under another separator. -/
structure Borrowed (N : NodeType) (s s' : IndexStore K V) (own : List PageIDType) (l r : PageIDType) (sep sep' : K)
    (donor recipient : PageIDType) (moved : List PageIDType) : Prop where
  pair : Pair N s' l r
  inOrder : sequence N s' l sep' r = sequence N s l sep r
  kids : kids s' l ++ kids s' r = kids s l ++ kids s r
  adopted : Adopted s s' own [] moved recipient
  given : sizeOf s' donor + 1 = sizeOf s donor
  taken : sizeOf s' recipient = sizeOf s recipient + 1

theorem Borrowed.of_page {s0 : IndexStore K V} {own : List PageIDType} {sep sep' : K} {donor recipient : PageIDType}
    {moved : List PageIDType} (h : Borrowed N s0 s' own l r sep sep' donor recipient moved) (h0 : s0.page = s.page) :
    Borrowed N s s' own l r sep sep' donor recipient moved := by
  have hp : ∀ x, SameBody s s0 x := fun x => .of_eq (congrFun h0 x)
  refine ⟨h.pair, ?_, ?_, ⟨h.adopted.adopted, fun c hc hm => ?_, fun c hc => ?_⟩, ?_, ?_⟩
  · rw [h.inOrder, sequence_congr (hp l) (hp r)]
  · rw [h.kids, kids_congr (hp l), kids_congr (hp r)]
  · rw [h.adopted.others c hc hm, parentOf_congr (congrFun h0 c)]
  · exact (hp c).trans (h.adopted.body c hc)
  · rw [h.given, sizeOf_congr (hp donor)]
  · rw [h.taken, sizeOf_congr (hp recipient)]

theorem Pair.moveLast_leaf (h : Pair .LeafPage s l r) (h2 : 2 ≤ sizeOf s l) (sep : K) :
    wp exec (LeafPage.moveLastToFrontOf l r) (fun _ s' => ∃ (sep' : K) (q : LeafPage K V), s'.page r = some (.leaf q) ∧
      q.keyAt 0 = some sep' ∧ Borrowed .LeafPage s s' [l, r] l r sep sep' l r (kids s l).getLast?.toList) s := by
  obtain ⟨p, q, hp, hq, hid, hidq⟩ := h.leaf
  rw [sizeOf_leaf hp] at h2
  obtain ⟨X, e, hX, -⟩ := last_of_two h2
  refine wp_conseq (LeafPage.moveLastToFrontOf_shared hp hq h.ne hX) fun _ s' hsh => ⟨e.1, _, hsh.right, rfl, ?_⟩
  refine ⟨hsh.pair h.ne hid hidq, ?_, ?_, ?_, ?_, ?_⟩
  · simp [sequence, inOrder_leaf hsh.left, inOrder_leaf hsh.right, inOrder_leaf hp, inOrder_leaf hq, hX]
  · rw [kids_leaf hsh.left, kids_leaf hsh.right, kids_leaf hp, kids_leaf hq]
  · rw [kids_leaf hp]
    exact hsh.adopted hp hq rfl rfl r
  · rw [sizeOf_leaf hsh.left, sizeOf_leaf hp, hX, List.length_append, List.length_singleton]
  · rw [sizeOf_leaf hsh.right, sizeOf_leaf hq, List.length_cons]

theorem Pair.moveLast_internal (h : Pair .InternalPage s l r) (h2 : 2 ≤ sizeOf s l) (sep : K) :
    ∃ (sep' : K) (p : InternalPage K), s.page l = some (.internal p) ∧ p.keyAt (p.getSize - 1) = some sep' ∧
      wp exec (InternalPage.moveLastToFrontOf l r sep)
        (fun _ s' => Borrowed .InternalPage s s' [l, r] l r sep sep' l r (kids s l).getLast?.toList) s := by
  obtain ⟨p, q, hi, -, e, Y, hY⟩ := h.internal
  rw [sizeOf_internal hi.left] at h2
  obtain ⟨X, f, hX, hX1⟩ := last_of_two h2
  refine ⟨f.1, p, hi.left, InternalPage.keyAt_eq hX (by simp [InternalPage.getSize, hX]), ?_⟩
  refine wp_conseq (hi.moveLastToFrontOf hX hY sep) fun _ s' hsw => ?_
  refine ⟨hsw.pair hi h hX1 (by simp) (by simp [hX, hY]), ?_, ?_, ?_, ?_, ?_⟩
  · rw [sequence, sequence, inOrder_internal hsw.left, inOrder_internal hsw.right, inOrder_internal hi.left,
      inOrder_internal hi.right, hY, alternate_join hX1, alternate_join (by simp [hX]), hX]
    simp
  · rw [kids_internal hsw.left, kids_internal hsw.right, kids_internal hi.left, kids_internal hi.right, hX, hY]
    simp
  · have hlast : (kids s l).getLast?.toList = [f.2] := by simp [kids_internal hi.left, hX]
    rw [hlast]
    exact hsw.adopted hi h
  · rw [sizeOf_internal hsw.left, sizeOf_internal hi.left, hX, List.length_append, List.length_singleton]
  · rw [sizeOf_internal hsw.right, sizeOf_internal hi.right, hY]
    rfl

theorem Pair.moveFirst_leaf (h : Pair .LeafPage s l r) (h2 : 2 ≤ sizeOf s r) (sep : K) :
    wp exec (LeafPage.moveFirstToEndOf r l) (fun _ s' => ∃ (sep' : K) (q : LeafPage K V), s'.page r = some (.leaf q) ∧
      q.keyAt 0 = some sep' ∧ Borrowed .LeafPage s s' [l, r] l r sep sep' r l (kids s r).head?.toList) s := by
  obtain ⟨p, q, hp, hq, hid, hidq⟩ := h.leaf
  rw [sizeOf_leaf hq] at h2
  obtain ⟨e, f, Y, hY⟩ := two_firsts h2
  refine wp_conseq (LeafPage.moveFirstToEndOf_shared hp hq h.ne hY) fun _ s' hsh => ⟨f.1, _, hsh.right, rfl, ?_⟩
  refine ⟨hsh.pair h.ne hid hidq, ?_, ?_, ?_, ?_, ?_⟩
  · simp [sequence, inOrder_leaf hsh.left, inOrder_leaf hsh.right, inOrder_leaf hp, inOrder_leaf hq, hY]
  · rw [kids_leaf hsh.left, kids_leaf hsh.right, kids_leaf hp, kids_leaf hq]
  · rw [kids_leaf hq]
    exact hsh.adopted hp hq rfl rfl l
  · rw [sizeOf_leaf hsh.right, sizeOf_leaf hq, hY, List.length_cons (a := e)]
  · rw [sizeOf_leaf hsh.left, sizeOf_leaf hp, List.length_append, List.length_singleton]

theorem Pair.moveFirst_internal (h : Pair .InternalPage s l r) (h2 : 2 ≤ sizeOf s r) (sep : K) :
    ∃ (sep' : K) (q : InternalPage K), s.page r = some (.internal q) ∧ q.keyAt 1 = some sep' ∧
      wp exec (InternalPage.moveFirstToEndOf r l sep)
        (fun _ s' => Borrowed .InternalPage s s' [l, r] l r sep sep' r l (kids s r).head?.toList) s := by
  obtain ⟨p, q, hi, hp, -⟩ := h.internal
  rw [sizeOf_internal hi.right] at h2
  obtain ⟨e, f, Y, hY⟩ := two_firsts h2
  refine ⟨f.1, q, hi.right, InternalPage.keyAt_eq (X := [e]) hY rfl, ?_⟩
  refine wp_conseq (hi.moveFirstToEndOf hY sep) fun _ s' hsw => ?_
  refine ⟨hsw.pair hi h (by simp) (by simp) (by simp [hY]), ?_, ?_, ?_, ?_, ?_⟩
  · rw [sequence, sequence, inOrder_internal hsw.left, inOrder_internal hsw.right, inOrder_internal hi.left,
      inOrder_internal hi.right, hY, alternate_join (by simp), alternate_join hp]
    simp
  · rw [kids_internal hsw.left, kids_internal hsw.right, kids_internal hi.left, kids_internal hi.right, hY]
    simp
  · have hfirst : (kids s r).head?.toList = [e.2] := by simp [kids_internal hi.right, hY]
    rw [hfirst]
    exact hsw.adopted hi h
  · rw [sizeOf_internal hsw.right, sizeOf_internal hi.right, hY, List.length_cons (a := e)]
  · rw [sizeOf_internal hsw.left, sizeOf_internal hi.left, List.length_append, List.length_singleton]

end Moves

/-! ## Moves with the separator -/

theorem InternalPage.around {p : InternalPage K} {i : Nat} {x : PageIDType} (h : p.valueAt i = some x) :
    ∃ X k Y, p.array = X ++ (k, x) :: Y ∧ X.length = i := by
  obtain ⟨e, he, rfl⟩ := Option.map_eq_some_iff.1 h
  obtain ⟨hi, he⟩ := List.getElem?_eq_some_iff.1 he
  refine ⟨p.array.take i, e.1, p.array.drop (i + 1), ?_, List.length_take_of_le hi.le⟩
  show p.array = p.array.take i ++ e :: p.array.drop (i + 1)
  rw [← he, List.getElem_cons_drop, List.take_append_drop]

theorem insertIdx_after {α : Type} {X Y : List α} {e a : α} :
    (X ++ e :: Y).insertIdx (X.length + 1) a = X ++ e :: a :: Y := by
  induction X with
  | nil => rfl
  | cons f X ih => simpa using ih

namespace Siblings
variable {N : NodeType} {s s' : IndexStore K V} {parent l r : PageIDType} {p : InternalPage K} {i : Nat} {sep : K}

theorem array (h : Siblings N s parent p i l r sep) :
    ∃ X k Y, p.array = X ++ (k, l) :: (sep, r) :: Y ∧ X.length = i := by
  obtain ⟨X, k, Y, hp, hX⟩ := InternalPage.around h.valueAt
  have hentry := h.entry
  rw [hp, ← hX, List.getElem?_append_right (by omega), Nat.add_sub_cancel_left, List.getElem?_cons_succ] at hentry
  cases Y with
  | nil => simp at hentry
  | cons e Y =>
    obtain rfl : e = (sep, r) := by simpa using hentry
    exact ⟨X, k, Y, hp, hX⟩

/-- The entry of `r` is read, taken out, and its key written. -/
theorem accesses (h : Siblings N s parent p i l r sep) : p.valueAt (i + 1) = some r ∧ p.keyAt (i + 1) = some sep ∧
    p.remove (i + 1) = some { p with array := p.array.eraseIdx (i + 1) } ∧
    ∀ key, p.setKeyAt (i + 1) key = some { p with array := p.array.set (i + 1) (key, r) } := by
  obtain ⟨X, k, Y, hp, hX⟩ := h.array
  have hp' : p.array = (X ++ [(k, l)]) ++ (sep, r) :: Y := by simp [hp]
  have hn : i + 1 = (X ++ [(k, l)]).length := by simp [hX]
  refine ⟨InternalPage.valueAt_eq hp' hn, InternalPage.keyAt_eq hp' hn, ?_, fun key => ?_⟩
  · rw [InternalPage.remove, InternalPage.getSize, if_pos (by rw [hp', hn]; simp)]
  · rw [InternalPage.setKeyAt_eq hp' hn, hp', hn]
    simp

/-- A merge: the parent loses the separator, and the call goes on with the parent. -/
theorem coalesce (h : Siblings N s parent p i l r sep) :
    ∃ s', (∀ (rec : PageIDType → IndexProg K V Bool) x y, x = l ∧ y = r ∨ x = r ∧ y = l →
        run exec (BPlusTree.coalesce rec N x y parent (i + 1)) s = run exec (do
          if (p.array.eraseIdx (i + 1)).length < p.getMinSize then pure (l, r, ← rec parent)
          else pure (l, r, false)) s') ∧
      s'.page parent = some (.internal { p with array := p.array.eraseIdx (i + 1) }) ∧
      inOrder s' l = sequence N s l sep r ∧ inOrder s' r = [] ∧ Adopted s s' [parent, l, r] [] (kids s r) l ∧
      s'.pins = s.pins ∧ s'.member = s.member := by
  obtain ⟨hval, hkey, hremove, -⟩ := h.accesses
  obtain ⟨hpl, hpr, hpk⟩ : parent ≠ l ∧ parent ≠ r ∧ parent ∉ kids s l ++ kids s r := by simpa using h.apart
  have hpk' : parent ∉ kids s r := fun hk => hpk (List.mem_append_right _ hk)
  obtain ⟨_, s1, hrun, hl1, hr1, had, hpins, hmem⟩ := h.toPair.moveAllTo sep
  -- the move does not reach the parent
  have hp1 : s1.page parent = some (.internal p) := by
    rw [had.page (by simp [hpl, hpr]) hpk' (by simp), h.page]
  have hwrite : (s1.setPage parent (.internal { p with array := p.array.eraseIdx (i + 1) })).page =
      Function.update s1.page parent (some (.internal { p with array := p.array.eraseIdx (i + 1) })) := rfl
  refine ⟨_, fun rec x y hxy => ?_, Function.update_self .., ?_, ?_, had.write hpk' h.page hwrite rfl, hpins, hmem⟩
  · refine run_ext fun Q => ?_
    have hswap : ∀ n : BPlusTreePage, n.pageID = x → (if r = n.pageID then (y, x) else (x, y)) = (l, r) := by
      rintro n rfl
      rcases hxy with ⟨h1, rfl⟩ | ⟨h1, rfl⟩
      · rw [h1, if_neg (Ne.symm h.ne)]
      · rw [h1, if_pos rfl]
    obtain ⟨n, hn, hid⟩ : ∃ n, (s.page x).bind IndexFilePage.node = some n ∧ n.pageID = x := by
      rcases hxy with ⟨rfl, -⟩ | ⟨rfl, -⟩
      · exact h.left.node
      · exact h.right.node
    simp only [BPlusTree.coalesce, wp_bind, wp_getInternal, h.page, Option.some.injEq, IndexFilePage.internal.injEq,
      exists_eq_left', wp_require, hval, wp_getNode, hn, hswap n hid]
    have hrest : wp exec (do
          let p ← require ((← getInternal parent).remove (i + 1))
          setInternal parent p
          if p.getSize < p.getMinSize then pure (l, r, ← rec parent) else pure (l, r, false)) Q s1 ↔
        wp exec (do
          if (p.array.eraseIdx (i + 1)).length < p.getMinSize then pure (l, r, ← rec parent) else pure (l, r, false)) Q
          (s1.setPage parent (.internal { p with array := p.array.eraseIdx (i + 1) })) := by
      simp only [wp_bind, wp_getInternal, hp1, Option.some.injEq, IndexFilePage.internal.injEq, exists_eq_left',
        wp_require, hremove, wp_setInternal]
      rw [and_iff_right ⟨_, rfl⟩]
      rfl
    cases N with
    | LeafPage =>
      have hrun : run exec (LeafPage.moveAllTo r l) s = _ := hrun
      rw [wp_bind, wp_of_run hrun, hrest]
    | InternalPage =>
      have hrun : run exec (InternalPage.moveAllTo r l sep) s = _ := hrun
      simp only [wp_bind, wp_require, hkey, Option.some.injEq, exists_eq_left', wp_of_run hrun] at hrest ⊢
      exact hrest
  · rw [← hl1]
    exact inOrder_congr (.of_eq (Function.update_of_ne (Ne.symm hpl) ..))
  · rw [← hr1]
    exact inOrder_congr (.of_eq (Function.update_of_ne (Ne.symm hpr) ..))

/-- The parent gets the new separator after a borrowing. -/
theorem borrowed {s1 : IndexStore K V} {sep' : K} {donor recipient : PageIDType} {moved : List PageIDType}
    (h : Siblings N s parent p i l r sep) (hb : Borrowed N s s1 [l, r] l r sep sep' donor recipient moved)
    (hm : ∀ c ∈ moved, c ∈ kids s l ++ kids s r) (hs : s'.page = Function.update s1.page parent
      (some (.internal { p with array := p.array.set (i + 1) (sep', r) }))) (hd : donor = l ∨ donor = r)
    (hr : recipient = l ∨ recipient = r) :
    Siblings N s' parent { p with array := p.array.set (i + 1) (sep', r) } i l r sep' ∧
      Borrowed N s s' [parent, l, r] l r sep sep' donor recipient moved := by
  have hne : ∀ c, c ≠ parent → s'.page c = s1.page c := fun c hc => by rw [hs, Function.update_of_ne hc]
  have hapart : parent ∉ l :: r :: (kids s1 l ++ kids s1 r) := by
    rw [hb.kids]
    exact h.apart
  have hpages : ∀ c ∈ l :: r :: (kids s1 l ++ kids s1 r), s'.page c = s1.page c := by
    intro c hc
    apply hne c
    rintro rfl
    exact hapart hc
  have hbody := fun c hc => SameBody.of_eq (hpages c hc)
  have hl := hbody l (by simp)
  have hr' := hbody r (by simp)
  have hpar : ∀ c, c = l ∨ c = r → parentOf s' c = parentOf s c := by
    intro c hc
    rw [parentOf_congr (hpages c (by rcases hc with rfl | rfl <;> simp)), hb.adopted.others c ?_ (by simp)]
    intro hcm
    have hnd := h.nodup
    have hck := hm c hcm
    rcases hc with rfl | rfl <;> simp_all
  obtain ⟨X, k, Y, hp, hX⟩ := h.array
  -- the parent's write touches neither sibling nor child
  refine ⟨⟨hb.pair.congr hbody, ?_, ?_, ?_, ?_, ?_⟩, ⟨hb.pair.congr hbody, ?_, ?_, ?_, ?_, ?_⟩⟩
  · rw [hs, Function.update_self]
  · simp [InternalPage.valueAt, hp, ← hX]
  · simp [hp, ← hX]
  · rw [hpar l (.inl rfl), hpar r (.inr rfl)]
    exact h.parents
  · rw [kids_congr hl, kids_congr hr']
    exact hapart
  · rw [sequence_congr hl hr', hb.inOrder]
  · rw [kids_congr hl, kids_congr hr', hb.kids]
  · refine hb.adopted.write (fun hk => h.apart ?_) h.page hs rfl
    exact List.mem_cons_of_mem _ (List.mem_cons_of_mem _ (hm parent hk))
  · rw [← hb.given, sizeOf_congr (hbody donor (by rcases hd with rfl | rfl <;> simp))]
  · rw [← hb.taken, sizeOf_congr (hbody recipient (by rcases hr with rfl | rfl <;> simp))]

theorem hasParent (h : Siblings N s parent p i l r sep) {x : PageIDType} (hx : x = l ∨ x = r) :
    HasParent s x (some parent) := by
  rcases hx with rfl | rfl
  · exact h.left.hasParent h.parents.1
  · exact h.right.hasParent h.parents.2

/-- The end of a borrowing: the parent, read before the move, is written with the new separator. -/
theorem finish {s0 s1 : IndexStore K V} {sep' : K} {donor recipient : PageIDType} {moved : List PageIDType}
    (h : Siblings N s parent p i l r sep) (h0 : s0.page = s.page)
    (hb : Borrowed N s0 s1 [l, r] l r sep sep' donor recipient moved) (hm : ∀ c ∈ moved, c ∈ kids s l ++ kids s r)
    (hd : donor = l ∨ donor = r) (hr : recipient = l ∨ recipient = r) :
    wp exec (do setInternal parent (← require (p.setKeyAt (i + 1) sep'))) (fun _ s' => ∃ sep',
      Siblings N s' parent { p with array := p.array.set (i + 1) (sep', r) } i l r sep' ∧
        Borrowed N s s' [parent, l, r] l r sep sep' donor recipient moved) s1 := by
  have hb := hb.of_page h0
  obtain ⟨hpl, hpr, hpk⟩ : parent ≠ l ∧ parent ≠ r ∧ parent ∉ kids s l ++ kids s r := by simpa using h.apart
  have hp1 : s1.page parent = some (.internal p) := by
    rw [hb.adopted.page (by simp [hpl, hpr]) (fun hk => hpk (hm parent hk)) (by simp), h.page]
  simp only [wp_bind, wp_require, h.accesses.2.2.2, Option.some.injEq, exists_eq_left', wp_setInternal]
  exact ⟨⟨_, hp1⟩, sep', h.borrowed hb hm rfl hd hr⟩

/-- A borrowing from the left page. -/
theorem redistribute_left (h : Siblings N s parent p i l r sep) (h2 : 2 ≤ sizeOf s l) :
    wp exec (BPlusTree.redistribute N l r (i + 1)) (fun _ s' => ∃ sep',
      Siblings N s' parent { p with array := p.array.set (i + 1) (sep', r) } i l r sep' ∧
        Borrowed N s s' [parent, l, r] l r sep sep' l r (kids s l).getLast?.toList) s := by
  obtain ⟨hval, hkey, -, -⟩ := h.accesses
  obtain ⟨n, hn, hid, hpar⟩ := h.hasParent (.inr rfl)
  have hm : ∀ c ∈ (kids s l).getLast?.toList, c ∈ kids s l ++ kids s r := fun c hc =>
    List.mem_append_left _ (List.mem_of_getLast? (by simpa using hc))
  simp only [BPlusTree.redistribute, wp_bind, wp_getNode, hn, Option.some.injEq, exists_eq_left', wp_require, hpar,
    wp_fetchPage, wp_getInternal, setPins_page, h.page, IndexFilePage.internal.injEq, hval, hid, if_true]
  refine ⟨⟨_, rfl⟩, ?_⟩
  set s0 := s.setPins parent (s.pins parent + 1)
  have h0 : s0.page = s.page := rfl
  have hk0 : kids s0 l = kids s l := rfl
  have hpair : Pair N s0 l r := h.toPair.congr fun _ _ => .of_eq rfl
  cases N with
  | LeafPage =>
    rw [wp_bind]
    apply wp_conseq (hpair.moveLast_leaf h2 sep)
    rintro - s1 ⟨sep', q, hq, hk, hb⟩
    rw [hk0] at hb
    have hend := h.finish h0 hb hm (.inl rfl) (.inr rfl)
    simpa only [wp_bind, wp_getLeaf, hq, Option.some.injEq, IndexFilePage.leaf.injEq, exists_eq_left', wp_require,
      hk] using hend
  | InternalPage =>
    obtain ⟨sep', q, hq, hk, hmove⟩ := hpair.moveLast_internal h2 sep
    simp only [wp_bind, wp_getInternal, hq, Option.some.injEq, IndexFilePage.internal.injEq, exists_eq_left',
      wp_require, hk, hkey]
    refine wp_conseq hmove fun _ s1 hb => ?_
    rw [hk0] at hb
    simpa only [wp_bind, wp_require] using h.finish h0 hb hm (.inl rfl) (.inr rfl)

/-- A borrowing from the right page. -/
theorem redistribute_right (h : Siblings N s parent p i l r sep) (h2 : 2 ≤ sizeOf s r) :
    wp exec (BPlusTree.redistribute N r l (i + 1)) (fun _ s' => ∃ sep',
      Siblings N s' parent { p with array := p.array.set (i + 1) (sep', r) } i l r sep' ∧
        Borrowed N s s' [parent, l, r] l r sep sep' r l (kids s r).head?.toList) s := by
  obtain ⟨hval, hkey, -, -⟩ := h.accesses
  obtain ⟨n, hn, hid, hpar⟩ := h.hasParent (.inl rfl)
  have hm : ∀ c ∈ (kids s r).head?.toList, c ∈ kids s l ++ kids s r := fun c hc =>
    List.mem_append_right _ (List.mem_of_head? (by simpa using hc))
  simp only [BPlusTree.redistribute, wp_bind, wp_getNode, hn, Option.some.injEq, exists_eq_left', wp_require, hpar,
    wp_fetchPage, wp_getInternal, setPins_page, h.page, IndexFilePage.internal.injEq, hval, hid, if_neg (Ne.symm h.ne)]
  refine ⟨⟨_, rfl⟩, ?_⟩
  set s0 := s.setPins parent (s.pins parent + 1)
  have h0 : s0.page = s.page := rfl
  have hk0 : kids s0 r = kids s r := rfl
  have hpair : Pair N s0 l r := h.toPair.congr fun _ _ => .of_eq rfl
  cases N with
  | LeafPage =>
    rw [wp_bind]
    apply wp_conseq (hpair.moveFirst_leaf h2 sep)
    rintro - s1 ⟨sep', q, hq, hk, hb⟩
    rw [hk0] at hb
    have hend := h.finish h0 hb hm (.inr rfl) (.inl rfl)
    simpa only [wp_bind, wp_getLeaf, hq, Option.some.injEq, IndexFilePage.leaf.injEq, exists_eq_left', wp_require,
      hk] using hend
  | InternalPage =>
    obtain ⟨sep', q, hq, hk, hmove⟩ := hpair.moveFirst_internal h2 sep
    simp only [wp_bind, wp_getInternal, hq, Option.some.injEq, IndexFilePage.internal.injEq, exists_eq_left',
      wp_require, hk, hkey]
    refine wp_conseq hmove fun _ s1 hb => ?_
    rw [hk0] at hb
    simpa only [wp_bind, wp_require] using h.finish h0 hb hm (.inr rfl) (.inl rfl)

end Siblings

/-! ## Splits -/

/-- A split up to the key that goes to the parent: a new leaf also comes into the list of leaves.
`insertIntoLeaf` makes it (`insertIntoLeaf_eq`), and `insertIntoParent` (`Pair.insertIntoParent`). -/
def splitNode (N : NodeType) (node : PageIDType) : IndexProg K V (PageIDType × K) := do
  let newNode ← BPlusTree.split N node
  match N with
  | .LeafPage => do
    let p ← getLeaf node
    let q ← getLeaf newNode
    setLeaf newNode { q with nextPageID := p.nextPageID }
    setLeaf node { p with nextPageID := some q.pageID }
    pure (newNode, ← require (q.keyAt 0))
  | .InternalPage => do
    let q ← getInternal newNode
    pure (newNode, ← require (q.keyAt 0))

/-- The split that an insertion into a leaf makes. -/
theorem insertIntoLeaf_eq [LinearOrder K] [Inhabited K] (fuel : Nat) (key : K) (value : V) :
    BPlusTree.insertIntoLeaf fuel key value = (do
      let leaf ← BPlusTree.findLeafPage fuel key false
      let p ← getLeaf leaf
      if (p.lookup key).isSome then
        pure false
      else
        setLeaf leaf (p.insert key value)
        if p.maxSize ≤ (p.insert key value).getSize then
          let (newLeaf, up) ← splitNode .LeafPage leaf
          BPlusTree.insertIntoParent fuel leaf up newLeaf
          unpinPage (← getLeaf newLeaf).pageID true
        unpinPage (← getLeaf leaf).pageID true
        pure true : IndexProg K V Bool) := by
  simp only [BPlusTree.insertIntoLeaf, splitNode, Prog.bind_assoc, Prog.pure_bind]

/-- A page that is to be split: its children name it as their parent. -/
structure Full (N : NodeType) (s : IndexStore K V) (used : List PageIDType) (x : PageIDType) : Prop where
  kind : IsKind N s x
  nodup : (x :: kids s x).Nodup
  used : ∀ y ∈ x :: kids s x, y ∈ used
  parents : ∀ c ∈ kids s x, HasParent s c (some x)
  full : ∀ n, (s.page x).bind IndexFilePage.node = some n → n.maxSize ≤ n.size
  two : 2 ≤ sizeOf s x

/-- The page `x` is cut in two, under the key `key` of the new page. -/
structure Halved (N : NodeType) (s s' : IndexStore K V) (used : List PageIDType) (x new : PageIDType) (key : K) :
    Prop where
  fresh : new ∉ used
  pair : Pair N s' x new
  inOrder : sequence N s' x key new = inOrder s x
  divided : kids s' x ++ kids s' new = kids s x
  adopted : Adopted s s' [0, x, new] [new] (kids s' new) new
  parent : parentOf s' new = parentOf s x
  alloc : ∃ free h, Alloc s' (new :: used) free h

section Splits
variable {N : NodeType} {s s' : IndexStore K V} {used free : List Nat} {h : IndexFileHeader} {x : PageIDType}

theorem split_in_two {α : Type} {es : List α} (h : 2 ≤ es.length) :
    ∃ X e Y, es.take ((es.length + 1) / 2) = X ∧ es.drop ((es.length + 1) / 2) = e :: Y ∧
    es = X ++ e :: Y ∧ X ≠ [] := by
  obtain ⟨e, Y, hY⟩ : ∃ e Y, es.drop ((es.length + 1) / 2) = e :: Y := by
    apply List.exists_cons_of_length_pos
    rw [List.length_drop]
    omega
  refine ⟨_, e, Y, rfl, hY, ?_, List.ne_nil_of_length_pos ?_⟩
  · rw [← hY, List.take_append_drop]
  · rw [List.length_take]
    omega

theorem setParentPageID_self {pg : IndexPage K V} {n : BPlusTreePage} (hn : pg.node = some n) :
    pg.setParentPageID n.parentPageID = pg := by
  cases pg <;> simp_all [IndexFilePage.node, IndexFilePage.setParentPageID] <;> (subst hn; rfl)

/-- A leaf is cut in two, and a merge with the key of the new leaf makes it whole. -/
theorem Full.leaf (hf : Full .LeafPage s used x) (ha : Alloc s used free h) :
    wp exec (splitNode .LeafPage x) (fun a s' => Halved .LeafPage s s' used x a.1 a.2 ∧
      wp exec (moveAllTo .LeafPage a.1 x a.2) (fun _ s2 => ∀ c, c ≠ 0 → c ≠ a.1 → s2.page c = s.page c) s') s := by
  obtain ⟨p, hp, hid⟩ := hf.kind
  have hxu := hf.used x (by simp)
  have hx0 := ha.ne_zero hxu
  have h2 := hf.two
  rw [sizeOf_leaf hp] at h2
  obtain ⟨X, e, Y, hX, hY, hes, -⟩ := split_in_two h2
  simp only [splitNode, wp_bind]
  apply wp_conseq (split_leaf_spec ha hp (hf.full _ (by rw [hp]; rfl)) hxu)
  rintro q s1 ⟨free', h', hq, hq0, -, h1x, h1q, h1, -, -, ha1⟩
  rw [hX] at h1x
  rw [hY] at h1q
  have hxq : x ≠ q := by
    rintro rfl
    exact hq hxu
  simp only [wp_getLeaf, h1x, h1q, Option.some.injEq, IndexFilePage.leaf.injEq, exists_eq_left', wp_setLeaf,
    setPage_page, Function.update_of_ne hxq, wp_require, wp_pure]
  refine ⟨⟨_, rfl⟩, ⟨_, rfl⟩, e.1, rfl, ?_⟩
  set s' := (s1.setPage q _).setPage x _ with hs'
  have hx' : s'.page x = some (.leaf { p with array := X, nextPageID := some q }) := by simp [hs']
  have hq' : s'.page q = some (.leaf ⟨q, p.parentPageID, s.member.leafMaxSize, p.nextPageID, e :: Y⟩) := by
    simp [hs', Ne.symm hxq]
  have hh' : s'.page 0 = some (.header h') := by simp [hs', Ne.symm hx0, Ne.symm hq0, ha1.header]
  have hrest : ∀ c, c ≠ 0 → c ≠ x → c ≠ q → s'.page c = s.page c := by
    intro c h0 hcx hcq
    simp [hs', hcx, hcq, h1 c h0 hcx hcq]
  refine ⟨⟨hq, ⟨⟨_, hx', hid⟩, ⟨_, hq', rfl⟩, ?_, ?_, by simp⟩, ?_, ?_, ?_, ?_, free', h', ?_⟩, ?_⟩
  · simpa [kids_leaf hx', kids_leaf hq'] using hxq
  · simp [kids_leaf hx', kids_leaf hq']
  · simp [sequence, inOrder_leaf hx', inOrder_leaf hq', inOrder_leaf hp, hes]
  · rw [kids_leaf hx', kids_leaf hq', kids_leaf hp]
    rfl
  · rw [kids_leaf hq']
    refine ⟨fun c hc => absurd hc (by simp), fun c _ hc => ?_, fun c hc => ?_⟩
    · rcases eq_or_ne c 0 with rfl | h0
      · rw [parentOf_header hh', parentOf_header ha.header]
      · rcases eq_or_ne c x with rfl | hcx
        · rw [parentOf_leaf hx', parentOf_leaf hp]
        · exact parentOf_congr (hrest c h0 hcx (by simpa using hc))
    · simp only [List.mem_cons, List.not_mem_nil, or_false, not_or] at hc
      exact .of_eq (hrest c hc.1 hc.2.1 hc.2.2)
  · rw [parentOf_leaf hq', parentOf_leaf hp]
  · refine ha1.frame rfl (fun y hy => ?_) fun _ _ _ => rfl
    simp only [List.mem_cons, not_or] at hy
    have hyx : y ≠ x := by
      rintro rfl
      exact hy.2 hxu
    simp [hs', hyx, hy.1]
  · refine wp_conseq (LeafPage.moveAllTo_shared hx' hq' hxq) fun _ s2 hsh c h0 hcq => ?_
    rcases eq_or_ne c x with rfl | hcx
    · rw [hsh.left, hp]
      simp only [← hes]
    · rw [hsh.rest c hcx hcq, hrest c h0 hcx hcq]

/-- An internal page is cut in two, and a merge with the key of the new page makes it whole: the
children that went are back under their old parent. -/
theorem Full.internal (hf : Full .InternalPage s used x) (ha : Alloc s used free h) :
    wp exec (splitNode .InternalPage x) (fun a s' => Halved .InternalPage s s' used x a.1 a.2 ∧
      wp exec (moveAllTo .InternalPage a.1 x a.2) (fun _ s2 => ∀ c, c ≠ 0 → c ≠ a.1 → s2.page c = s.page c) s') s := by
  obtain ⟨p, hp, hid⟩ := hf.kind
  obtain ⟨-, hnd, hused, hpars, hfull, h2⟩ := hf
  rw [kids_internal hp] at hnd hused hpars
  have hxu := hused x (by simp)
  have hx0 := ha.ne_zero hxu
  rw [sizeOf_internal hp] at h2
  obtain ⟨X, e, Y, hX, hY, hes, hX1⟩ := split_in_two h2
  have hnode : ∀ c ∈ p.array.map (·.2), ∃ pg n, s.page c = some pg ∧ pg.node = some n ∧ n.pageID = c ∧
      n.parentPageID = some x := by
    intro c hc
    obtain ⟨n, hn, hnid, hpar⟩ := hpars c hc
    obtain ⟨pg, hpg, hn⟩ := Option.bind_eq_some_iff.1 hn
    exact ⟨pg, n, hpg, hn, hnid, hpar⟩
  simp only [splitNode, wp_bind]
  refine wp_conseq (split_internal_spec ha hp (hfull _ (by rw [hp]; rfl)) hxu hnd fun c hc => ?_) ?_
  · obtain ⟨pg, -, hpg, -⟩ := hnode c hc
    exact ⟨hused c (List.mem_cons_of_mem _ hc), pg, hpg⟩
  rintro q s' ⟨free', h', hq, hq0, -, hx', hq', hmoved, hrest, -, -, ha'⟩
  rw [hX] at hx'
  rw [hY] at hq' hmoved hrest
  have hxq : x ≠ q := by
    rintro rfl
    exact hq hxu
  have hkids : X.map (·.2) ++ (e :: Y).map (·.2) = p.array.map (·.2) := by rw [← List.map_append, ← hes]
  have hsub : ∀ c ∈ (e :: Y).map (·.2), c ∈ p.array.map (·.2) := fun c hc => hkids ▸ List.mem_append_right _ hc
  have hkx := kids_internal hx'
  have hkq := kids_internal hq'
  simp only at hkx hkq
  -- the children lie apart from both pages
  have happart : ∀ c ∈ p.array.map (·.2), c ≠ 0 ∧ c ≠ x ∧ c ≠ q := by
    intro c hc
    have hcu := hused c (List.mem_cons_of_mem _ hc)
    refine ⟨ha.ne_zero hcu, ?_, ?_⟩
    · rintro rfl
      exact (List.nodup_cons.1 hnd).1 hc
    · rintro rfl
      exact hq hcu
  have hpages : ∀ c ∈ p.array.map (·.2), ∃ n, (s'.page c).bind IndexFilePage.node = some n ∧ n.pageID = c := by
    intro c hc
    obtain ⟨h0, hcx, hcq⟩ := happart c hc
    obtain ⟨pg, n, hpg, hn, hnid, -⟩ := hnode c hc
    -- the second half of the children gets the new page as parent
    by_cases hm : c ∈ (e :: Y).map (·.2)
    · exact ⟨{ n with parentPageID := some q }, by rw [hmoved c hm, hpg]; exact node_setParentPageID hn _, hnid⟩
    · exact ⟨n, by rw [hrest c h0 hcx hcq hm, hpg]; exact hn, hnid⟩
  have hnodup : (x :: q :: (X.map (·.2) ++ (e :: Y).map (·.2))).Nodup := by
    rw [hkids]
    obtain ⟨hxk, hk⟩ := List.nodup_cons.1 hnd
    refine List.nodup_cons.2 ⟨?_, List.nodup_cons.2 ⟨fun hqk => (happart q hqk).2.2 rfl, hk⟩⟩
    simp only [List.mem_cons, not_or]
    exact ⟨hxq, hxk⟩
  have hi : InternalPair s' x q { p with array := X } ⟨q, p.parentPageID, internalMax s, e :: Y⟩ := by
    refine ⟨hx', hq', hid, rfl, hnodup, fun c hc => ?_⟩
    rw [hkids] at hc
    exact hpages c hc
  simp only [wp_getInternal, hq', Option.some.injEq, IndexFilePage.internal.injEq, exists_eq_left', wp_require, wp_pure]
  refine ⟨e.1, rfl, ⟨hq, ⟨⟨_, hx', hid⟩, ⟨_, hq', rfl⟩, ?_, fun c hc => ?_, ?_⟩, ?_, ?_, ?_, ?_, free', h', ha'⟩, ?_⟩
  · rw [hkx, hkq]
    exact hnodup
  · rw [hkx, hkq, hkids] at hc
    exact hpages c hc
  · rw [hkx, hkq]
    simp [hX1]
  · rw [sequence, inOrder_internal hx', inOrder_internal hq', inOrder_internal hp, alternate_join hX1, hes]
  · rw [hkx, hkq, kids_internal hp, hkids]
  · rw [hkq]
    refine ⟨fun c hc => ?_, fun c hc hcq => ?_, fun c hc => ?_⟩
    · obtain ⟨pg, n, hpg, hn, -⟩ := hnode c (hsub c hc)
      exact parentOf_set (n := n) (by rw [hpg]; exact hn) (hmoved c hc)
    · rcases eq_or_ne c 0 with rfl | h0
      · rw [parentOf_header ha'.header, parentOf_header ha.header]
      · rcases eq_or_ne c x with rfl | hcx
        · rw [parentOf_internal hx', parentOf_internal hp]
        · exact parentOf_congr (hrest c h0 hcx (by simpa using hcq) hc)
    · simp only [List.mem_cons, List.not_mem_nil, or_false, not_or] at hc
      by_cases hm : c ∈ (e :: Y).map (·.2)
      · rw [SameBody, hmoved c hm]
        cases s.page c <;> simp
      · exact .of_eq (hrest c hc.1 hc.2.1 hc.2.2 hm)
  · rw [parentOf_internal hq', parentOf_internal hp]
  -- the merge gives the moved children their old parent again
  · refine wp_conseq (hi.moveAllTo rfl e.1) fun _ s2 hsw c h0 hcq => ?_
    rcases eq_or_ne c x with rfl | hcx
    · rw [hsw.left, hp]
      simp only [← hes]
    · by_cases hc : c ∈ (e :: Y).map (·.2)
      · obtain ⟨pg, n, hpg, hn, -, hpar⟩ := hnode c (hsub c hc)
        rw [hsw.moved c hc, hmoved c hc, hpg, Option.map_some, Option.map_some, setParentPageID_twice, ← hpar,
          setParentPageID_self hn]
      · rw [hsw.rest c hcx hcq hc, hrest c h0 hcx hcq hc]

variable [Inhabited K]

/-- The call for two pages below a parent: the new one comes after the old one, and if that makes
the parent too large, it is split in its turn. -/
theorem Pair.insertIntoParent {i : Nat} {parent new : PageIDType} {p : InternalPage K} (hpair : Pair N s x new)
    (hp : s.page parent = some (.internal p)) (hx : p.valueAt i = some x) (hnd : (p.array.map (·.2)).Nodup)
    (hpar : parentOf s x = some (some parent) ∧ parentOf s new = some (some parent))
    (hapart : parent ∉ x :: new :: (kids s x ++ kids s new)) (fuel : Nat) (key : K) :
    ∃ s', s' = (s.setPins parent (s.pins parent + 1)).setPage parent
        (.internal { p with array := p.array.insertIdx (i + 1) (key, new) }) ∧
      run exec (BPlusTree.insertIntoParent (fuel + 1) x key new) s = run exec (do
        if p.maxSize ≤ (p.array.insertIdx (i + 1) (key, new)).length then
          let (newInternal, up) ← splitNode .InternalPage parent
          BPlusTree.insertIntoParent fuel parent up newInternal
          unpinPage (← getInternal newInternal).pageID true
        unpinPage (← getInternal parent).pageID true) s' ∧
      (p.pageID = parent → (p.array.insertIdx (i + 1) (key, new)).length < p.maxSize →
        run exec (BPlusTree.insertIntoParent (fuel + 1) x key new) s = some ((), s'.setPins parent (s.pins parent))) ∧
      Siblings N s' parent { p with array := p.array.insertIdx (i + 1) (key, new) } i x new key ∧
      sequence N s' x key new = sequence N s x key new ∧ Adopted s s' [parent] [] [] parent := by
  obtain ⟨X, k, Y, hes, rfl⟩ := InternalPage.around hx
  have hidx : p.array.insertIdx (X.length + 1) (key, new) = X ++ (k, x) :: (key, new) :: Y := by
    rw [hes, insertIdx_after]
  have hxY : x ∉ Y.map (·.2) := by
    rw [hes, List.map_append, List.map_cons] at hnd
    exact (List.nodup_cons.1 (List.nodup_append.1 hnd).2.1).1
  have hins := InternalPage.insertNodeAfter_eq (d := key) (n := new) hes hxY
  rw [← hidx] at hins
  obtain ⟨n, hn, hid, hparn⟩ := hpair.left.hasParent hpar.1
  obtain ⟨m, hm, hidm⟩ := hpair.right.node
  set p' : InternalPage K := { p with array := p.array.insertIdx (X.length + 1) (key, new) } with hp'
  set s' := (s.setPins parent (s.pins parent + 1)).setPage parent (.internal p') with hs'
  have hother : ∀ c, c ≠ parent → s'.page c = s.page c := fun c hc => by simp [hs', hc]
  have hbody : ∀ c ∈ x :: new :: (kids s x ++ kids s new), SameBody s s' c := by
    intro c hc
    refine .of_eq (hother c ?_)
    rintro rfl
    exact hapart hc
  have hx' := hbody x (by simp)
  have hn' := hbody new (by simp)
  have hkept : Adopted s s [] [] [] parent := ⟨fun c hc => absurd hc (by simp), fun _ _ _ => rfl, fun _ _ => .rfl⟩
  have had : Adopted s s' [parent] [] [] parent := hkept.write (by simp) hp rfl rfl
  have hpage : s'.page parent = some (.internal p') := Function.update_self ..
  -- up to the new separator the call is the write of `s'`
  have hrun : run exec (BPlusTree.insertIntoParent (fuel + 1) x key new) s = run exec (do
        if p.maxSize ≤ (p.array.insertIdx (X.length + 1) (key, new)).length then
          let (newInternal, up) ← splitNode .InternalPage parent
          BPlusTree.insertIntoParent fuel parent up newInternal
          unpinPage (← getInternal newInternal).pageID true
        unpinPage (← getInternal parent).pageID true) s' := by
    refine run_ext fun Q => ?_
    simp only [BPlusTree.insertIntoParent, wp_bind, wp_getNode, hn, hm, Option.some.injEq, exists_eq_left', hparn, hid,
      hidm, wp_fetchPage, wp_getInternal, setPins_page, hp, IndexFilePage.internal.injEq, wp_require, hins,
      wp_setInternal]
    rw [and_iff_right ⟨_, rfl⟩, and_iff_right ⟨_, rfl⟩]
    simp only [splitNode, Prog.bind_assoc, Prog.pure_bind]
    rfl
  refine ⟨s', rfl, hrun, fun hpid hroom => ?_, ⟨hpair.congr hbody, hpage, ?_, ?_, ?_, ?_⟩,
    sequence_congr hx' hn' key, had⟩
  · rw [hrun, if_neg (Nat.not_le.2 hroom)]
    apply run_eq_iff.2
    simp only [wp_bind, wp_getInternal, hpage, Option.some.injEq, IndexFilePage.internal.injEq, exists_eq_left',
      wp_unpinPage]
    simp [hs', hp', hpid]
  · simp [InternalPage.valueAt, hp', hidx]
  · simp [hp', hidx]
  · rw [had.others x (by simp) (by simp), had.others new (by simp) (by simp)]
    exact hpar
  · rw [kids_congr hx', kids_congr hn']
    exact hapart

/-- The call for two pages without a parent: the new root holds the two and their separator. -/
theorem Pair.insertIntoNewRoot {new : PageIDType} (hpair : Pair N s x new) (ha : Alloc s used free h)
    (hu : ∀ y ∈ x :: new :: (kids s x ++ kids s new), y ∈ used)
    (hpar : parentOf s x = some none ∧ parentOf s new = some none) (fuel : Nat) (key : K) :
    wp exec (BPlusTree.insertIntoParent (fuel + 1) x key new) (fun _ s' => ∃ root p, root ∉ used ∧
      s'.member.rootPageID = some root ∧ Siblings N s' root p 0 x new key ∧
      sequence N s' x key new = sequence N s x key new ∧ Adopted s s' [0, root] [root] [x, new] root) s := by
  have hhas : ∀ y, y = x ∨ y = new → HasParent s y none := by
    rintro y (rfl | rfl)
    · exact hpair.left.hasParent hpar.1
    · exact hpair.right.hasParent hpar.2
  refine wp_conseq (insertIntoParent_newRoot (hhas x (.inl rfl)) (hhas new (.inr rfl)) ha (hu x (by simp))
    (hu new (by simp)) (Ne.symm hpair.ne)) ?_
  rintro - s' ⟨root, free', h', hq, hq0, hroot, hhalves, hrest, -, hmem, ha'⟩
  -- the call changes no entry, only the parents of the two pages
  have hbody : ∀ c, c ≠ 0 → c ≠ root → SameBody s s' c := by
    intro c h0 hcr
    by_cases hc : c = x ∨ c = new
    · rw [SameBody, hhalves c hc]
      cases s.page c <;> simp
    · rw [not_or] at hc
      exact .of_eq (hrest c h0 hcr hc.1 hc.2)
  have hne : ∀ c ∈ x :: new :: (kids s x ++ kids s new), c ≠ root := by
    rintro c hc rfl
    exact hq (hu c hc)
  have hpages : ∀ c ∈ x :: new :: (kids s x ++ kids s new), SameBody s s' c := fun c hc =>
    hbody c (ha.ne_zero (hu c hc)) (hne c hc)
  have hx' := hpages x (by simp)
  have hn' := hpages new (by simp)
  have hset : ∀ c, c = x ∨ c = new → parentOf s' c = some (some root) := by
    intro c hc
    obtain ⟨n, hn, -⟩ := hhas c hc
    exact parentOf_set hn (hhalves c hc)
  refine ⟨root, _, hq, by rw [hmem],
    ⟨hpair.congr hpages, hroot, rfl, rfl, ⟨hset x (.inl rfl), hset new (.inr rfl)⟩, ?_⟩,
    sequence_congr hx' hn' key, fun c hc => hset c (by simpa using hc), fun c hc hcr => ?_, fun c hc => ?_⟩
  · rw [kids_congr hx', kids_congr hn']
    exact fun hr => hne root hr rfl
  · simp only [List.mem_cons, List.not_mem_nil, or_false, not_or] at hc hcr
    rcases eq_or_ne c 0 with rfl | h0
    · rw [parentOf_header ha'.header, parentOf_header ha.header]
    · exact parentOf_congr (hrest c h0 hcr hc.1 hc.2)
  · simp only [List.mem_cons, List.not_mem_nil, or_false, not_or] at hc
    exact hbody c hc.1 hc.2

end Splits

/-! ## Siblings of a tree -/

variable [Inhabited K]

/-- Two neighbours of a row are a pair. -/
theorem Row.pair [LinearOrder K] {N : NodeType} {s : IndexStore K V} {fits : Nat → Nat → Prop}
    {A B M : Level K} {l r : Node K}
    {es : List (K × V)} (h : Row N s fits (A ++ l :: r :: B) es M) (hnd : (kidIds N M ++ ids (A ++ l :: r :: B)).Nodup)
    (hl : N = .InternalPage → 1 ≤ sizeOf s l.2) (hr : N = .InternalPage → 1 ≤ sizeOf s r.2) :
    Pair N s l.2 r.2 ∧ ∀ c ∈ kids s l.2 ++ kids s r.2, c ∈ kidIds N M := by
  cases N with
  | LeafPage =>
    obtain ⟨p, q, hp, hq, hid, hidq, -⟩ := leaf_pair h
    have hlr := (pair_apart rfl hnd).1
    rw [kids_leaf hp, kids_leaf hq]
    refine ⟨⟨⟨p, hp, hid⟩, ⟨q, hq, hidq⟩, ?_, ?_, by simp⟩, by simp⟩
    · simpa [kids_leaf hp, kids_leaf hq] using hlr
    · simp [kids_leaf hp, kids_leaf hq]
  | InternalPage =>
    obtain ⟨p, q, hi, -, -, hkp, hkq, hM, -⟩ := internal_pair h hnd
    have hl := hl rfl
    have hr := hr rfl
    rw [sizeOf_internal hi.left] at hl
    rw [sizeOf_internal hi.right] at hr
    rw [kids_internal hi.left, kids_internal hi.right]
    refine ⟨⟨⟨p, hi.left, hi.leftID⟩, ⟨q, hi.right, hi.rightID⟩, ?_, fun c hc => ?_, fun _ => ?_⟩, hM⟩
    · rw [kids_internal hi.left, kids_internal hi.right]
      exact hi.nodup
    · rw [kids_internal hi.left, kids_internal hi.right] at hc
      exact hi.kids c hc
    · rw [kids_internal hi.left, kids_internal hi.right]
      exact ⟨mt List.map_eq_nil_iff.1 (List.ne_nil_of_length_pos hl),
        mt List.map_eq_nil_iff.1 (List.ne_nil_of_length_pos hr)⟩

/-- The two pages a removal works on when one of them has become too small. -/
theorem Family.Short.siblings [LinearOrder K] {N : NodeType} {s : IndexStore K V} {L L' M : Level K}
    {Ls : List (Level K)}
    {f : Family s L L'} {es : List (K × V)} {x y : PageIDType} (h : f.Short N Ls es M x y) :
    Siblings N s f.m.2 f.p f.X.length f.l.2 f.er.2 f.er.1 := by
  obtain ⟨hrow, hnd⟩ := h.level (Eq.refl s.page) (Eq.refl s.member)
  obtain ⟨-, -, -, hlr, hml, hmr, hmk, -⟩ := f.apart h.nodup
  obtain ⟨hx1, hy1, -⟩ := h.sizes
  have hsize : N = .InternalPage → 1 ≤ sizeOf s f.l.2 ∧ 1 ≤ sizeOf s f.er.2 := by
    rintro rfl
    simp only [low] at hx1 hy1
    rcases h.found.page with ⟨rfl, rfl⟩ | ⟨rfl, rfl⟩ <;> omega
  obtain ⟨hpair, hkids⟩ := hrow.pair hnd (fun hN => (hsize hN).1) fun hN => (hsize hN).2
  have hnode : ∀ e ∈ f.p.array, parentOf s e.2 = some (some f.m.2) := by
    obtain ⟨p, hp, -, -, -, hpar, -⟩ := h.above.2.1 f.m (by simp [f.above])
    obtain rfl : p = f.p := by simpa [hp] using f.page
    intro e he
    obtain ⟨n, hn, -, hn'⟩ := hpar e he
    rw [parentOf, hn, ← hn']
    rfl
  refine ⟨hpair, f.page, ?_, ?_, ⟨?_, hnode f.er (by simp [f.array])⟩, ?_⟩
  · rw [f.left_id]
    exact InternalPage.valueAt_eq f.array rfl
  · simp [f.array]
  · rw [f.left_id]
    exact hnode f.el (by simp [f.array])
  · simp only [List.mem_cons, not_or]
    exact ⟨hml, hmr, fun hk => hmk (hkids _ hk)⟩

/-! ## Every move -/

/-- Every move between two siblings keeps their sequence, moves the parents of exactly the children
it moves, and writes the separator that goes with them. -/
theorem siblings_in_order (N : NodeType) :
    -- a split, and the merge that undoes it
    (∀ (s : IndexStore K V) used free h x, Full N s used x → Alloc s used free h →
      ∃ new key s' s'', run exec (splitNode N x) s = some ((new, key), s') ∧ Halved N s s' used x new key ∧
        run exec (moveAllTo N new x key) s' = some ((), s'') ∧ ∀ c, c ≠ 0 → c ≠ new → s''.page c = s.page c) ∧
    -- the new page comes into the parent, which may be split in its turn
    (∀ (s : IndexStore K V) x new parent p i fuel key, Pair N s x new → s.page parent = some (.internal p) →
      p.valueAt i = some x → (p.array.map (·.2)).Nodup → parentOf s x = some (some parent) →
      parentOf s new = some (some parent) → parent ∉ x :: new :: (kids s x ++ kids s new) →
      ∃ s', s' = (s.setPins parent (s.pins parent + 1)).setPage parent
          (.internal { p with array := p.array.insertIdx (i + 1) (key, new) }) ∧
        run exec (BPlusTree.insertIntoParent (fuel + 1) x key new) s = run exec (do
          if p.maxSize ≤ (p.array.insertIdx (i + 1) (key, new)).length then
            let (newInternal, up) ← splitNode .InternalPage parent
            BPlusTree.insertIntoParent fuel parent up newInternal
            unpinPage (← getInternal newInternal).pageID true
          unpinPage (← getInternal parent).pageID true) s' ∧
        (p.pageID = parent → (p.array.insertIdx (i + 1) (key, new)).length < p.maxSize →
          run exec (BPlusTree.insertIntoParent (fuel + 1) x key new) s = some ((), s'.setPins parent (s.pins parent))) ∧
        Siblings N s' parent { p with array := p.array.insertIdx (i + 1) (key, new) } i x new key ∧
        sequence N s' x key new = sequence N s x key new ∧ Adopted s s' [parent] [] [] parent) ∧
    -- or both come below a new root
    (∀ (s : IndexStore K V) used free h x new fuel key, Pair N s x new → Alloc s used free h →
      (∀ y ∈ x :: new :: (kids s x ++ kids s new), y ∈ used) → parentOf s x = some none → parentOf s new = some none →
      ∃ root p s', run exec (BPlusTree.insertIntoParent (fuel + 1) x key new) s = some ((), s') ∧ root ∉ used ∧
        s'.member.rootPageID = some root ∧ Siblings N s' root p 0 x new key ∧
        sequence N s' x key new = sequence N s x key new ∧ Adopted s s' [0, root] [root] [x, new] root) ∧
    -- a merge, whichever of the two is the small page
    (∀ (s : IndexStore K V) parent p i l r sep, Siblings N s parent p i l r sep →
      ∃ s', (∀ (rec : PageIDType → IndexProg K V Bool) x y, x = l ∧ y = r ∨ x = r ∧ y = l →
          run exec (BPlusTree.coalesce rec N x y parent (i + 1)) s = run exec (do
            if (p.array.eraseIdx (i + 1)).length < p.getMinSize then pure (l, r, ← rec parent)
            else pure (l, r, false)) s') ∧
        s'.page parent = some (.internal { p with array := p.array.eraseIdx (i + 1) }) ∧
        inOrder s' l = sequence N s l sep r ∧ inOrder s' r = [] ∧ Adopted s s' [parent, l, r] [] (kids s r) l ∧
        s'.pins = s.pins ∧ s'.member = s.member) ∧
    -- a borrowing from the left page
    (∀ (s : IndexStore K V) parent p i l r sep, Siblings N s parent p i l r sep → 2 ≤ sizeOf s l →
      ∃ sep' s', run exec (BPlusTree.redistribute N l r (i + 1)) s = some ((), s') ∧
        Siblings N s' parent { p with array := p.array.set (i + 1) (sep', r) } i l r sep' ∧
        Borrowed N s s' [parent, l, r] l r sep sep' l r (kids s l).getLast?.toList) ∧
    -- a borrowing from the right page
    (∀ (s : IndexStore K V) parent p i l r sep, Siblings N s parent p i l r sep → 2 ≤ sizeOf s r →
      ∃ sep' s', run exec (BPlusTree.redistribute N r l (i + 1)) s = some ((), s') ∧
        Siblings N s' parent { p with array := p.array.set (i + 1) (sep', r) } i l r sep' ∧
        Borrowed N s s' [parent, l, r] l r sep sep' r l (kids s r).head?.toList) := by
  refine ⟨?_, ?_, ?_, ?_, ?_, ?_⟩
  · intro s used free h x hf ha
    have hsplit : wp exec (splitNode N x) (fun a s' => Halved N s s' used x a.1 a.2 ∧
        wp exec (moveAllTo N a.1 x a.2) (fun _ s2 => ∀ c, c ≠ 0 → c ≠ a.1 → s2.page c = s.page c) s') s := by
      cases N with
      | LeafPage => exact hf.leaf ha
      | InternalPage => exact hf.internal ha
    obtain ⟨⟨new, key⟩, s', hrun, hhalved, _, s'', hmerge, hsame⟩ := hsplit
    exact ⟨new, key, s', s'', hrun, hhalved, hmerge, hsame⟩
  · intro s x new parent p i fuel key hpair hp hx hnd hpx hpn hapart
    exact hpair.insertIntoParent hp hx hnd ⟨hpx, hpn⟩ hapart fuel key
  · intro s used free h x new fuel key hpair ha hu hpx hpn
    obtain ⟨_, s', hrun, root, p, hroot⟩ := hpair.insertIntoNewRoot ha hu ⟨hpx, hpn⟩ fuel key
    exact ⟨root, p, s', hrun, hroot⟩
  · intro s parent p i l r sep h
    exact h.coalesce
  · intro s parent p i l r sep h h2
    obtain ⟨_, s', hrun, sep', hb⟩ := h.redistribute_left h2
    exact ⟨sep', s', hrun, hb⟩
  · intro s parent p i l r sep h h2
    obtain ⟨_, s', hrun, sep', hb⟩ := h.redistribute_right h2
    exact ⟨sep', s', hrun, hb⟩

/-- The pages 2 and 3 with their children 4 to 9, below page 1 with the entries `es`. -/
def twoPages (up : Option PageIDType) (es : List (Nat × PageIDType)) : IndexStore Nat Nat where
  page k := [.header ⟨10, some 1, none⟩, .internal ⟨1, none, 4, es⟩,
    .internal ⟨2, up, 4, [(0, 4), (10, 5), (20, 6), (30, 7)]⟩, .internal ⟨3, up, 4, [(0, 8), (60, 9)]⟩,
    .leaf ⟨4, some 2, 3, some 5, [(1, 1)]⟩, .leaf ⟨5, some 2, 3, some 6, [(11, 1)]⟩,
    .leaf ⟨6, some 2, 3, some 7, [(21, 1)]⟩, .leaf ⟨7, some 2, 3, some 8, [(31, 1)]⟩,
    .leaf ⟨8, some 3, 3, some 9, [(51, 1)]⟩, .leaf ⟨9, some 3, 3, none, [(61, 1)]⟩][k]?
  pins _ := 0
  latch _ := .reading 0
  member := ⟨some 1, 3, 4⟩

theorem siblings_in_order_pages :
    (∃ new key s' s'',
      run exec (splitNode .InternalPage 2) (twoPages (some 1) [(0, 2), (50, 3)]) = some ((new, key), s') ∧
      sequence .InternalPage s' 2 key new = [.child 4, .key 10, .child 5, .key 20, .child 6, .key 30, .child 7] ∧
      run exec (moveAllTo .InternalPage new 2 key) s' = some ((), s'') ∧
      s''.page 2 = some (.internal ⟨2, some 1, 4, [(0, 4), (10, 5), (20, 6), (30, 7)]⟩)) ∧
    (∃ s', run exec (BPlusTree.insertIntoParent 1 2 50 3) (twoPages (some 1) [(0, 2)]) = some ((), s'.setPins 1 0) ∧
      Siblings .InternalPage s' 1 ⟨1, none, 4, [(0, 2), (50, 3)]⟩ 0 2 3 50) ∧
    (∃ root p s', run exec (BPlusTree.insertIntoParent 1 2 50 3) (twoPages none [(0, 2)]) = some ((), s') ∧
      Siblings .InternalPage s' root p 0 2 3 50) ∧
    (∃ s', run exec (BPlusTree.coalesce (fun _ => pure true) .InternalPage 3 2 1 1) (twoPages (some 1) [(0, 2), (50, 3)]) =
        some ((2, 3, true), s') ∧
      inOrder s' 2 = [.child 4, .key 10, .child 5, .key 20, .child 6, .key 30, .child 7, .key 50, .child 8, .key 60,
        .child 9]) ∧
    (∃ sep s',
      run exec (BPlusTree.redistribute .InternalPage 2 3 1) (twoPages (some 1) [(0, 2), (50, 3)]) = some ((), s') ∧
      Siblings .InternalPage s' 1 ⟨1, none, 4, [(0, 2), (sep, 3)]⟩ 0 2 3 sep) ∧
    (∃ sep s',
      run exec (BPlusTree.redistribute .InternalPage 3 2 1) (twoPages (some 1) [(0, 2), (50, 3)]) = some ((), s') ∧
      Siblings .InternalPage s' 1 ⟨1, none, 4, [(0, 2), (sep, 3)]⟩ 0 2 3 sep) := by
  have hkids : ∀ up es, kids (twoPages up es) 2 = [4, 5, 6, 7] ∧ kids (twoPages up es) 3 = [8, 9] :=
    fun _ _ => ⟨rfl, rfl⟩
  have hnode : ∀ up es, ∀ c ∈ [4, 5, 6, 7, 8, 9],
      ∃ n, ((twoPages up es).page c).bind IndexFilePage.node = some n ∧ n.pageID = c := by
    intro up es c hc
    simp only [List.mem_cons, List.not_mem_nil, or_false] at hc
    rcases hc with rfl | rfl | rfl | rfl | rfl | rfl <;> exact ⟨_, rfl, rfl⟩
  have hpair : ∀ up es, Pair .InternalPage (twoPages up es) 2 3 := by
    intro up es
    refine ⟨⟨_, rfl, rfl⟩, ⟨_, rfl, rfl⟩, ?_, ?_, ?_⟩ <;> rw [(hkids up es).1, (hkids up es).2]
    · decide
    · exact hnode up es
    · exact fun _ => ⟨by decide, by decide⟩
  have hsib : Siblings .InternalPage (twoPages (some 1) [(0, 2), (50, 3)]) 1 ⟨1, none, 4, [(0, 2), (50, 3)]⟩ 0 2 3 50 :=
    ⟨hpair _ _, rfl, rfl, rfl, ⟨rfl, rfl⟩, by decide⟩
  have halloc : ∀ up es, Alloc (twoPages up es) [1, 2, 3, 4, 5, 6, 7, 8, 9] [] ⟨10, some 1, none⟩ := by
    intro up es
    refine ⟨rfl, rfl, by decide, rfl, by decide, fun x hx => ?_, fun _ _ _ => rfl⟩
    exact List.getElem?_eq_none hx
  have hfull : Full .InternalPage (twoPages (some 1) [(0, 2), (50, 3)]) [1, 2, 3, 4, 5, 6, 7, 8, 9] 2 := by
    refine ⟨⟨_, rfl, rfl⟩, by decide, by decide, fun c hc => ?_, fun n hn => ?_, by decide⟩
    · rw [(hkids _ _).1] at hc
      simp only [List.mem_cons, List.not_mem_nil, or_false] at hc
      rcases hc with rfl | rfl | rfl | rfl <;> exact ⟨_, rfl, rfl, rfl⟩
    · obtain rfl := Option.some.inj hn
      decide
  obtain ⟨hsplit, hchild, hroot, hmerge, hleft, hright⟩ := siblings_in_order (K := Nat) (V := Nat) .InternalPage
  refine ⟨?_, ?_, ?_, ?_, ?_, ?_⟩
  · obtain ⟨new, key, s', s'', hrun, hhalved, hmerge, hsame⟩ := hsplit _ _ _ _ _ hfull (halloc _ _)
    refine ⟨new, key, s', s'', hrun, hhalved.inOrder, hmerge, hsame 2 (by decide) ?_⟩
    rintro rfl
    exact hhalved.fresh (by decide)
  · obtain ⟨s', -, -, h, hsib, -⟩ := hchild (twoPages (some 1) [(0, 2)]) 2 3 1 _ 0 0 50 (hpair _ _) rfl rfl (by decide) rfl
      rfl (by decide)
    exact ⟨s', h rfl (by decide), hsib⟩
  · obtain ⟨root, p, s', hrun, -, -, h, -⟩ := hroot (twoPages none [(0, 2)]) _ _ _ 2 3 0 50 (hpair _ _) (halloc _ _)
      (by decide) rfl rfl
    exact ⟨root, p, s', hrun, h⟩
  · obtain ⟨s', hrun, -, h, -⟩ := hmerge _ _ _ _ _ _ _ hsib
    exact ⟨s', hrun (fun _ => pure true) 3 2 (.inr ⟨rfl, rfl⟩), h⟩
  · obtain ⟨sep, s', hrun, h, -⟩ := hleft _ _ _ _ _ _ _ hsib (by decide)
    exact ⟨sep, s', hrun, h⟩
  · obtain ⟨sep, s', hrun, h, -⟩ := hright _ _ _ _ _ _ _ hsib (by decide)
    exact ⟨sep, s', hrun, h⟩

end MisakiDB
