import MisakiDB.Index.Insert
import MisakiDB.Index.Moves
/-!
# Merging and borrowing between two siblings

`Row N s fits L es M` treats the two kinds of level alike: a leaf level has the
entries `es`, a level of internal pages leads to the level `M`. Each of the six
moves between neighbours `l` and `r` keeps the row, but for the bound and the
sizes of the two pages.
-/

namespace MisakiDB

open Prog PageStore Blocks

variable {K V : Type}

def Row [LinearOrder K] [Inhabited K] (N : NodeType) (s : IndexStore K V) (fits : Nat → Nat → Prop) (L : Level K)
    (es : List (K × V)) (M : Level K) :
    Prop :=
  match N with
  | .LeafPage => LeafLevel s fits L ∧ contents s L = es
  | .InternalPage => Linked s fits L ∧ below s L = M

/-- The pages below a row. -/
def kidIds (N : NodeType) (M : Level K) : List Nat :=
  match N with
  | .LeafPage => []
  | .InternalPage => ids M

/-- The page is of the row's kind and knows its id. -/
def IsKind (N : NodeType) (s : IndexStore K V) (x : Nat) : Prop :=
  match N with
  | .LeafPage => ∃ p : LeafPage K V, s.page x = some (.leaf p) ∧ p.pageID = x
  | .InternalPage => ∃ p : InternalPage K, s.page x = some (.internal p) ∧ p.pageID = x

/-- The capacity of the row's pages. -/
def capacity (N : NodeType) (s : IndexStore K V) : Nat :=
  match N with
  | .LeafPage => s.member.leafMaxSize
  | .InternalPage => internalMax s

/-- The number of entries of a tree page. -/
def sizeOf (s : IndexStore K V) (x : Nat) : Nat := (((s.page x).bind IndexFilePage.node).map (·.size)).getD 0

section Row
variable {N : NodeType} {s s' : IndexStore K V} {fits fits' : Nat → Nat → Prop} {L A B : Level K}
variable {es : List (K × V)} {M : Level K}

theorem sizeOf_leaf {x : Nat} {p : LeafPage K V} (hp : s.page x = some (.leaf p)) : sizeOf s x = p.array.length := by
  simp [sizeOf, hp]

theorem sizeOf_internal {x : Nat} {p : InternalPage K} (hp : s.page x = some (.internal p)) :
    sizeOf s x = p.array.length := by
  simp [sizeOf, hp]

/-- What `getNode` sees on a page of the row. -/
theorem Row.node [LinearOrder K] [Inhabited K] (h : Row N s fits L es M) {n : Node K} (hn : n ∈ L) :
    IsKind N s n.2 ∧ fits n.2 (sizeOf s n.2) ∧
    ∃ a, (s.page n.2).bind IndexFilePage.node = some ⟨N = .LeafPage, n.2, a, sizeOf s n.2, capacity N s⟩ := by
  cases N with
  | LeafPage =>
    obtain ⟨p, hp, hid, hmax, hs⟩ := h.1.leaves n hn
    refine ⟨⟨p, hp, hid⟩, by rwa [sizeOf_leaf hp], p.parentPageID, ?_⟩
    simp [hp, sizeOf_leaf hp, hid, hmax, capacity]
  | InternalPage =>
    obtain ⟨p, hp, hid, hmax, hs, -⟩ := h.1 n hn
    refine ⟨⟨p, hp, hid⟩, by rwa [sizeOf_internal hp], p.parentPageID, ?_⟩
    simp [hp, sizeOf_internal hp, hid, hmax, capacity]

theorem IsKind.node {x : Nat} (h : IsKind N s x) : ∃ n, (s.page x).bind IndexFilePage.node = some n ∧ n.pageID = x := by
  cases N with
  | LeafPage =>
    obtain ⟨p, hp, hid⟩ := h
    exact ⟨_, by rw [hp]; rfl, hid⟩
  | InternalPage =>
    obtain ⟨p, hp, hid⟩ := h
    exact ⟨_, by rw [hp]; rfl, hid⟩

theorem IsKind.congr {x : Nat} (h : IsKind N s x) (hb : SameBody s s' x) : IsKind N s' x := by
  cases N with
  | LeafPage =>
    obtain ⟨p, hp, hid⟩ := h
    obtain ⟨a, ha⟩ := hb.leaf hp
    exact ⟨_, ha, hid⟩
  | InternalPage =>
    obtain ⟨p, hp, hid⟩ := h
    obtain ⟨a, ha⟩ := hb.internal hp
    exact ⟨_, ha, hid⟩

variable [LinearOrder K] [Inhabited K]

theorem Row.congr (h : Row N s fits L es M) (hb : ∀ x ∈ ids L, SameBody s s' x)
    (hl : s'.member.leafMaxSize = s.member.leafMaxSize) (hi : s'.member.internalMaxSize = s.member.internalMaxSize)
    (hk : ∀ x ∈ kidIds N M, ∀ a, HasParent s x a → HasParent s' x a) : Row N s' fits L es M := by
  cases N with
  | LeafPage => exact ⟨h.1.congr hb hl, by rw [← h.2, contents, contents, blocks_congr hb]⟩
  | InternalPage => exact ⟨h.1.congr hb hi (by rw [h.2]; exact hk), by rw [below_congr hb, h.2]⟩

theorem Row.mono (h : Row N s fits L es M) (hf : ∀ x ∈ ids L, ∀ size, fits x size → fits' x size) :
    Row N s fits' L es M := by
  cases N with
  | LeafPage => exact ⟨h.1.mono hf, h.2⟩
  | InternalPage => exact ⟨h.1.mono hf, h.2⟩

end Row

/-! ## What a move changes -/

/-- A move between `l` and `r` changes those two pages and the parents of the pages below. -/
structure Moved (N : NodeType) (s s' : IndexStore K V) (l r : Nat) (M : Level K) : Prop where
  page : ∀ y, y ≠ l → y ≠ r → y ∉ kidIds N M → s'.page y = s.page y
  body : ∀ y ∈ kidIds N M, SameBody s s' y
  parent : ∀ y a, y = l ∨ y = r → HasParent s y a → HasParent s' y a
  kind : ∀ y, y = l ∨ y = r → IsKind N s' y
  pins : s'.pins = s.pins
  member : s'.member = s.member

section Leaf
variable {s s' : IndexStore K V} {fits fits' : Nat → Nat → Prop} {A B : Level K} {l r : Node K} {p q : LeafPage K V}
variable {es : List (K × V)} {M : Level K}

theorem pair_apart {L A B : Level K} {l r : Node K} {R : List Nat} (hL : L = A ++ l :: r :: B)
    (hnd : (R ++ ids L).Nodup) :
    l.2 ≠ r.2 ∧ (∀ x ∈ ids A ++ ids B, x ≠ l.2 ∧ x ≠ r.2) ∧ ∀ x ∈ R, x ∉ ids L := by
  subst hL
  refine ⟨?_, ?_, ?_⟩
  · intro h
    simp only [ids, List.map_append, List.map_cons, h] at hnd
    grind [List.nodup_append]
  · intro x hx
    simp only [ids, List.map_append, List.map_cons] at hnd hx
    constructor <;> (rintro rfl; grind [List.nodup_append])
  · exact fun x hx hx' => (List.nodup_append.1 hnd).2.2 x hx x hx' rfl

/-- Both leaves at once: what the store must hold for the row to go on. -/
theorem leafLevel_pair [LinearOrder K] [Inhabited K] {N : Level K} (hl : Row .LeafPage s fits (A ++ l :: r :: B) es M)
    (hp : s.page l.2 = some (.leaf p)) (hq : s.page r.2 = some (.leaf q))
    (hpage : ∀ y, y ≠ l.2 → y ≠ r.2 → s'.page y = s.page y)
    (hnd : (kidIds .LeafPage M ++ ids (A ++ l :: r :: B)).Nodup) (hm : s'.member = s.member)
    (hf : ∀ x ∈ ids A ++ ids B, ∀ size, fits x size → fits' x size) (hN : Leaves s' fits' N)
    (hfirst : first N (first B none) = some l.2) (hchain : Chained s' N (first B none))
    (hord : Ordered (blocks s A ++ (l.1, p.array) :: (r.1, q.array) :: blocks s B) →
      Ordered (blocks s A ++ blocks s' N ++ blocks s B)) (hflat : flat (blocks s' N) = p.array ++ q.array) :
    Row .LeafPage s' fits' (A ++ N ++ B) es M := by
  obtain ⟨hl, rfl⟩ := hl
  have hL : A ++ l :: r :: B = A ++ [l, r] ++ B := by simp
  have hside : ∀ x ∈ ids A ++ ids B, SameBody s s' x := by
    intro x hx
    obtain ⟨h1, h2⟩ := (pair_apart rfl hnd).2.1 x hx
    exact .of_eq (hpage x h1 h2)
  have hbl : blocks s (A ++ l :: r :: B) = blocks s A ++ (l.1, p.array) :: (r.1, q.array) :: blocks s B := by
    rw [blocks_append, blocks_cons, blocks_cons, entries_eq hp, entries_eq hq]
  have ho := hl.ordered
  rw [hbl] at ho
  refine ⟨LeafLevel.splice (M := [l, r]) (hL ▸ hl) hside (by rw [hm]) hf hN ?_ hchain (hord ho), ?_⟩
  · rw [hfirst]
    rfl
  · simp only [List.forall_mem_append] at hside
    rw [contents, contents, hbl, blocks_append, blocks_append, blocks_congr hside.1, blocks_congr hside.2]
    simp only [flat_append, flat_cons, hflat]
    simp

theorem Moved.leaf {p' q' : LeafPage K V} (hp : s.page l.2 = some (.leaf p)) (hq : s.page r.2 = some (.leaf q))
    (hp' : s'.page l.2 = some (.leaf p')) (hq' : s'.page r.2 = some (.leaf q'))
    (hl : p.pageID = l.2 ∧ p'.pageID = p.pageID ∧ p'.parentPageID = p.parentPageID)
    (hr : q.pageID = r.2 ∧ q'.pageID = q.pageID ∧ q'.parentPageID = q.parentPageID)
    (hpage : ∀ y, y ≠ l.2 → y ≠ r.2 → s'.page y = s.page y) (hpins : s'.pins = s.pins) (hm : s'.member = s.member) :
    Moved .LeafPage s s' l.2 r.2 M := by
  refine ⟨fun y h1 h2 _ => hpage y h1 h2, fun y hy => absurd hy (by simp [kidIds]), ?_, ?_, hpins, hm⟩
  · rintro y a (rfl | rfl) hpa
    · rw [hasParent_leaf hp] at hpa
      rw [hasParent_leaf hp', hl.2.1, hl.2.2]
      exact hpa
    · rw [hasParent_leaf hq] at hpa
      rw [hasParent_leaf hq', hr.2.1, hr.2.2]
      exact hpa
  · rintro y (rfl | rfl)
    · exact ⟨_, hp', hl.2.1.trans hl.1⟩
    · exact ⟨_, hq', hr.2.1.trans hr.1⟩

variable [LinearOrder K] [Inhabited K]

/-- Two neighbouring leaves, read off the level. -/
theorem leaf_pair (hl : Row .LeafPage s fits (A ++ l :: r :: B) es M) :
    ∃ p q, s.page l.2 = some (.leaf p) ∧ s.page r.2 = some (.leaf q) ∧ p.pageID = l.2 ∧ q.pageID = r.2 ∧
      p.maxSize = s.member.leafMaxSize ∧ q.maxSize = s.member.leafMaxSize ∧ p.nextPageID = some r.2 ∧
      q.nextPageID = first B none := by
  obtain ⟨p, hp, hid, hmax, -⟩ := hl.1.leaves l (by simp)
  obtain ⟨q, hq, hidq, hmaxq, -⟩ := hl.1.leaves r (by simp)
  have hchain := hl.1.chained
  rw [chained_append] at hchain
  obtain ⟨-, h1, h2, -⟩ := hchain
  rw [nextOf_eq hp, Option.some.injEq] at h1
  rw [nextOf_eq hq, Option.some.injEq] at h2
  exact ⟨p, q, hp, hq, hid, hidq, hmax, hmaxq, h1, h2⟩

theorem moveAllTo_leaf (hl : Row .LeafPage s fits (A ++ l :: r :: B) es M)
    (hnd : (kidIds .LeafPage M ++ ids (A ++ l :: r :: B)).Nodup)
    (hf : ∀ x ∈ ids A ++ ids B, ∀ size, fits x size → fits' x size) (hs : fits' l.2 (sizeOf s l.2 + sizeOf s r.2)) :
    wp exec (LeafPage.moveAllTo r.2 l.2) (fun _ s' =>
      Row .LeafPage s' fits' (A ++ l :: B) es M ∧ Moved .LeafPage s s' l.2 r.2 M) s := by
  obtain ⟨p, q, hp, hq, hid, hidq, hmax, hmaxq, -, hnext⟩ := leaf_pair hl
  rw [sizeOf_leaf hp, sizeOf_leaf hq] at hs
  have hlr := (pair_apart rfl hnd).1
  apply wp_conseq (LeafPage.moveAllTo_shared hp hq hlr)
  rintro - s' ⟨hpl, hpr, hpage, hpins, hm⟩
  have hN : A ++ l :: B = A ++ [l] ++ B := by simp
  have hbl : blocks s' [l] = [(l.1, p.array ++ q.array)] := by
    rw [blocks_cons, entries_eq hpl]
    rfl
  refine ⟨?_, .leaf hp hq hpl hpr ⟨hid, rfl, rfl⟩ ⟨hidq, rfl, rfl⟩ hpage hpins hm⟩
  rw [hN]
  refine leafLevel_pair hl hp hq hpage hnd hm hf ?_ rfl ?_ ?_ ?_
  · intro n hn
    rw [List.mem_singleton] at hn
    subst hn
    exact ⟨_, hpl, hid, by rw [hm]; exact hmax, by simpa using hs⟩
  · exact ⟨by rw [nextOf_eq hpl, ← hnext]; rfl, trivial⟩
  · intro ho
    rw [hbl]
    simpa using ho.join
  · rw [hbl]
    simp

/-- The two leaves share their entries out anew, each keeping some. -/
theorem leafLevel_cut {X Y : List (K × V)} {e : K × V} (hl : Row .LeafPage s fits (A ++ l :: r :: B) es M)
    (hnd : (kidIds .LeafPage M ++ ids (A ++ l :: r :: B)).Nodup)
    (hf : ∀ x ∈ ids A ++ ids B, ∀ size, fits x size → fits' x size) (hp : s.page l.2 = some (.leaf p))
    (hq : s.page r.2 = some (.leaf q)) (hp' : s'.page l.2 = some (.leaf { p with array := X }))
    (hq' : s'.page r.2 = some (.leaf { q with array := e :: Y }))
    (hpage : ∀ y, y ≠ l.2 → y ≠ r.2 → s'.page y = s.page y)
    (hpins : s'.pins = s.pins) (hm : s'.member = s.member) (hes : X ++ e :: Y = p.array ++ q.array)
    (hne : X ≠ []) (hsl : fits' l.2 X.length) (hsr : fits' r.2 (e :: Y).length) :
    Row .LeafPage s' fits' (A ++ l :: ((e.1 : WithBot K), r.2) :: B) es M ∧ Moved .LeafPage s s' l.2 r.2 M := by
  obtain ⟨p0, q0, hp0, hq0, hid, hidq, hmax, hmaxq, hnl, hnr⟩ := leaf_pair hl
  obtain rfl : p0 = p := by simpa [hp0] using hp
  obtain rfl : q0 = q := by simpa [hq0] using hq
  refine ⟨?_, .leaf hp hq hp' hq' ⟨hid, rfl, rfl⟩ ⟨hidq, rfl, rfl⟩ hpage hpins hm⟩
  have hN : A ++ l :: ((e.1 : WithBot K), r.2) :: B = A ++ [l, ((e.1 : WithBot K), r.2)] ++ B := by simp
  have hbl : blocks s' [l, ((e.1 : WithBot K), r.2)] = [(l.1, X), ((e.1 : WithBot K), e :: Y)] := by
    rw [blocks_cons, blocks_cons, entries_eq hp', entries_eq (n := ((e.1 : WithBot K), r.2)) hq']
    rfl
  rw [hN]
  refine leafLevel_pair hl hp hq hpage hnd hm hf ?_ rfl ?_ ?_ ?_
  · intro n hn
    rw [List.mem_cons, List.mem_singleton] at hn
    rcases hn with rfl | rfl
    · exact ⟨_, hp', hid, by rw [hm]; exact hmax, hsl⟩
    · exact ⟨_, hq', hidq, by rw [hm]; exact hmaxq, hsr⟩
  · refine ⟨?_, ?_, trivial⟩
    · rw [nextOf_eq hp']
      exact congrArg some hnl
    · rw [nextOf_eq hq']
      exact congrArg some hnr
  · intro ho
    have hj := ho.join
    rw [← hes] at hj
    rw [hbl]
    simpa using hj.cut hne
  · rw [hbl]
    simpa using hes

theorem moveLastToFrontOf_leaf (hl : Row .LeafPage s fits (A ++ l :: r :: B) es M)
    (hnd : (kidIds .LeafPage M ++ ids (A ++ l :: r :: B)).Nodup)
    (hf : ∀ x ∈ ids A ++ ids B, ∀ size, fits x size → fits' x size) (h2 : 2 ≤ sizeOf s l.2)
    (hsl : fits' l.2 (sizeOf s l.2 - 1)) (hsr : fits' r.2 (sizeOf s r.2 + 1)) :
    wp exec (LeafPage.moveLastToFrontOf l.2 r.2) (fun _ s' => ∃ (key : K) (q : LeafPage K V),
      s'.page r.2 = some (.leaf q) ∧ q.keyAt 0 = some key ∧
      Row .LeafPage s' fits' (A ++ l :: ((key : WithBot K), r.2) :: B) es M ∧ Moved .LeafPage s s' l.2 r.2 M) s := by
  obtain ⟨p, q, hp, hq, -⟩ := leaf_pair hl
  rw [sizeOf_leaf hp] at h2 hsl
  rw [sizeOf_leaf hq] at hsr
  have hlr := (pair_apart rfl hnd).1
  obtain ⟨X, e, hX, hX1⟩ := last_of_two h2
  rw [hX] at hsl
  apply wp_conseq (LeafPage.moveLastToFrontOf_shared hp hq hlr hX)
  rintro - s' ⟨hpl, hpr, hpage, hpins, hm⟩
  refine ⟨e.1, _, hpr, rfl, ?_⟩
  exact leafLevel_cut (X := X) (Y := q.array) hl hnd hf hp hq hpl hpr hpage hpins hm (by simp [hX])
    hX1 (by simpa using hsl) (by simpa using hsr)

theorem moveFirstToEndOf_leaf (hl : Row .LeafPage s fits (A ++ l :: r :: B) es M)
    (hnd : (kidIds .LeafPage M ++ ids (A ++ l :: r :: B)).Nodup)
    (hf : ∀ x ∈ ids A ++ ids B, ∀ size, fits x size → fits' x size) (h2 : 2 ≤ sizeOf s r.2)
    (hsl : fits' l.2 (sizeOf s l.2 + 1)) (hsr : fits' r.2 (sizeOf s r.2 - 1)) :
    wp exec (LeafPage.moveFirstToEndOf r.2 l.2) (fun _ s' => ∃ (key : K) (q : LeafPage K V),
      s'.page r.2 = some (.leaf q) ∧ q.keyAt 0 = some key ∧
      Row .LeafPage s' fits' (A ++ l :: ((key : WithBot K), r.2) :: B) es M ∧ Moved .LeafPage s s' l.2 r.2 M) s := by
  obtain ⟨p, q, hp, hq, -⟩ := leaf_pair hl
  rw [sizeOf_leaf hq] at h2 hsr
  rw [sizeOf_leaf hp] at hsl
  have hlr := (pair_apart rfl hnd).1
  obtain ⟨e, f, Y, hY⟩ := two_firsts h2
  rw [hY] at hsr
  apply wp_conseq (LeafPage.moveFirstToEndOf_shared hp hq hlr hY)
  rintro - s' ⟨hpl, hpr, hpage, hpins, hm⟩
  refine ⟨f.1, _, hpr, rfl, ?_⟩
  exact leafLevel_cut (X := p.array ++ [e]) (Y := Y) hl hnd hf hp hq hpl hpr hpage hpins hm (by simp [hY]) (by simp)
    (by simpa using hsl) (by simpa using hsr)

end Leaf

section Internal
variable {s s' : IndexStore K V} {fits fits' : Nat → Nat → Prop} {A B : Level K} {l r : Node K} {p q : InternalPage K}
variable {es : List (K × V)} {M : Level K}

/-- The pages `l` and `r` with their children `P` and `Q` are apart from the pages beside and below. -/
theorem nodup_pair {U P Q W A B : List Nat} {l r : Nat} (h : (U ++ (P ++ Q) ++ W ++ (A ++ l :: r :: B)).Nodup) :
    (l :: r :: (P ++ Q)).Nodup ∧ ∀ x ∈ A ++ B ++ (U ++ W), x ≠ l ∧ x ≠ r ∧ x ∉ P ++ Q := by
  simp only [List.nodup_append, List.nodup_cons, List.mem_append, List.mem_cons] at h ⊢
  refine ⟨by grind, ?_⟩
  rintro x hx
  refine ⟨?_, ?_, ?_⟩
  · rintro rfl
    grind
  · rintro rfl
    grind
  · grind

/-- The pages of a row of internal pages and of the row below it. -/
theorem kidIds_pair (hp : s.page l.2 = some (.internal p)) (hq : s.page r.2 = some (.internal q))
    (hM : below s (A ++ l :: r :: B) = M) : kidIds .InternalPage M ++ ids (A ++ l :: r :: B) =
      ids (below s A) ++ (p.array.map (·.2) ++ q.array.map (·.2)) ++ ids (below s B) ++ (ids A ++ l.2 :: r.2 :: ids B) := by
  rw [kidIds, ← hM, below_append, below_cons, below_cons, children_eq hp, children_eq hq]
  simp

variable [LinearOrder K] [Inhabited K]

/-- Two neighbouring internal pages, read off the level, and where their children are. -/
theorem internal_pair (hl : Row .InternalPage s fits (A ++ l :: r :: B) es M)
    (hnd : (kidIds .InternalPage M ++ ids (A ++ l :: r :: B)).Nodup) :
    ∃ p q, InternalPair s l.2 r.2 p q ∧ p.maxSize = internalMax s ∧ q.maxSize = internalMax s ∧
      (∀ e ∈ p.array, HasParent s e.2 (some l.2)) ∧ (∀ e ∈ q.array, HasParent s e.2 (some r.2)) ∧
      (∀ x ∈ p.array.map (·.2) ++ q.array.map (·.2), x ∈ kidIds .InternalPage M) ∧ FirstKey l.1 p.array := by
  obtain ⟨p, hp, hid, hmax, -, hk, hfk⟩ := hl.1 l (by simp)
  obtain ⟨q, hq, hidq, hmaxq, -, hkq, -⟩ := hl.1 r (by simp)
  rw [kidIds_pair hp hq hl.2] at hnd
  refine ⟨p, q, ⟨hp, hq, hid, hidq, (nodup_pair hnd).1, fun c hc => ?_⟩, hmax, hmaxq, hk, hkq, fun x hx => ?_, hfk⟩
  · obtain ⟨a, n, hn, hnid, -⟩ : ∃ a, HasParent s c a := by
      rcases List.mem_append.1 hc with hc | hc
      · obtain ⟨e, he, rfl⟩ := List.mem_map.1 hc
        exact ⟨_, hk e he⟩
      · obtain ⟨e, he, rfl⟩ := List.mem_map.1 hc
        exact ⟨_, hkq e he⟩
    exact ⟨n, hn, hnid⟩
  · rw [kidIds, ← hl.2, below_append, below_cons, below_cons, children_eq hp, children_eq hq]
    simpa [or_assoc] using Or.inr (Or.inl hx)

section Swapped
variable {X Y : List (K × Nat)} {C : List Nat} {a : Nat}

theorem Swapped.moves (h : Swapped s s' l.2 r.2 p q X Y C a) (hl : Row .InternalPage s fits (A ++ l :: r :: B) es M)
    (hnd : (kidIds .InternalPage M ++ ids (A ++ l :: r :: B)).Nodup) (hp : s.page l.2 = some (.internal p))
    (hq : s.page r.2 = some (.internal q)) : Moved .InternalPage s s' l.2 r.2 M := by
  obtain ⟨p0, q0, ⟨hp0, hq0, hid, hidq, -, -⟩, -, -, -, -, hM, -⟩ := internal_pair hl hnd
  obtain rfl : p0 = p := by simpa [hp0] using hp
  obtain rfl : q0 = q := by simpa [hq0] using hq
  refine ⟨fun y h1 h2 h3 => h.rest y h1 h2 fun hy => h3 (hM y (h.sub y hy)), fun y hy => ?_, ?_, ?_, h.pins, h.member⟩
  · by_cases hc : y ∈ C
    · rw [SameBody, h.moved y hc]
      cases s.page y <;> simp
    · have hapart := (pair_apart rfl hnd).2.2 y hy
      refine .of_eq (h.rest y ?_ ?_ hc)
      · rintro rfl
        exact hapart (by simp)
      · rintro rfl
        exact hapart (by simp)
  · rintro y b (rfl | rfl) hpb
    · rw [hasParent_internal hp] at hpb
      exact (hasParent_internal h.left).2 hpb
    · rw [hasParent_internal hq] at hpb
      exact (hasParent_internal h.right).2 hpb
  · rintro y (rfl | rfl)
    · exact ⟨_, h.left, hid⟩
    · exact ⟨_, h.right, hidq⟩

omit [LinearOrder K] [Inhabited K] in
/-- A child that was moved has its new parent. -/
theorem Swapped.child (h : Swapped s s' l.2 r.2 p q X Y C a) {x : Nat} {b : Option Nat} (hx : x ∈ C)
    (hpb : HasParent s x b) : HasParent s' x (some a) := by
  obtain ⟨n, hn, -⟩ := id hpb
  obtain ⟨pg, hpg, -⟩ := Option.bind_eq_some_iff.1 hn
  apply hpb.set hpg
  rw [h.moved x hx, hpg]
  rfl

omit [LinearOrder K] [Inhabited K] in
/-- A child that was not keeps the old one. -/
theorem Swapped.stays (h : Swapped s s' l.2 r.2 p q X Y C a) {x : Nat} {b : Option Nat} (hx : x ≠ l.2 ∧ x ≠ r.2)
    (hc : x ∉ C) (hpb : HasParent s x b) : HasParent s' x b :=
  hpb.congr (h.rest x hx.1 hx.2 hc)

/-- Both pages at once: what they must hold for the row to go on. -/
theorem Swapped.row {N : Level K} (h : Swapped s s' l.2 r.2 p q X Y C a)
    (hl : Row .InternalPage s fits (A ++ l :: r :: B) es M)
    (hnd : (kidIds .InternalPage M ++ ids (A ++ l :: r :: B)).Nodup) (hp : s.page l.2 = some (.internal p))
    (hq : s.page r.2 = some (.internal q)) (hf : ∀ x ∈ ids A ++ ids B, ∀ size, fits x size → fits' x size)
    (hN : Linked s' fits' N) (hbelow : below s' N = MisakiDB.row l.1 p.array ++ MisakiDB.row r.1 q.array) :
    Row .InternalPage s' fits' (A ++ N ++ B) es M := by
  obtain ⟨hl, rfl⟩ := hl
  rw [kidIds_pair hp hq rfl] at hnd
  have hside : ∀ x ∈ ids A ++ ids B ++ (ids (below s A) ++ ids (below s B)), s'.page x = s.page x := by
    intro x hx
    obtain ⟨h1, h2, h3⟩ := (nodup_pair hnd).2 x hx
    exact h.rest x h1 h2 fun hc => h3 (h.sub x hc)
  rw [List.forall_mem_append, List.forall_mem_append, List.forall_mem_append] at hside
  obtain ⟨⟨hA, hB⟩, hbA, hbB⟩ := hside
  have hlA := (linked_append.1 hl).1
  have hlB := (linked_cons.1 (linked_cons.1 (linked_append.1 hl).2).2).2
  rw [List.forall_mem_append] at hf
  refine ⟨linked_append.2 ⟨linked_append.2 ⟨?_, hN⟩, ?_⟩, ?_⟩
  · exact (hlA.congr (fun x hx => .of_eq (hA x hx)) (by rw [h.member]) fun x hx a hpa => hpa.congr (hbA x hx)).mono hf.1
  · exact (hlB.congr (fun x hx => .of_eq (hB x hx)) (by rw [h.member]) fun x hx a hpa => hpa.congr (hbB x hx)).mono hf.2
  · rw [below_append, below_append, hbelow, below_congr fun x hx => .of_eq (hA x hx),
      below_congr fun x hx => .of_eq (hB x hx)]
    simp [children_eq hp, children_eq hq]

/-- The two pages share their entries out anew; the right one starts with `f`. -/
theorem Swapped.cut {f : K × Nat} (h : Swapped s s' l.2 r.2 p q X (f :: Y) C a)
    (hl : Row .InternalPage s fits (A ++ l :: r :: B) es M)
    (hnd : (kidIds .InternalPage M ++ ids (A ++ l :: r :: B)).Nodup) (hp : s.page l.2 = some (.internal p))
    (hq : s.page r.2 = some (.internal q)) (hf : ∀ x ∈ ids A ++ ids B, ∀ size, fits x size → fits' x size)
    (hfk : FirstKey l.1 X) (hX : ∀ e ∈ X, HasParent s' e.2 (some l.2)) (hY : ∀ e ∈ f :: Y, HasParent s' e.2 (some r.2))
    (hsl : fits' l.2 X.length) (hsr : fits' r.2 (Y.length + 1))
    (hrow : MisakiDB.row l.1 X ++ (f :: Y).map cell = MisakiDB.row l.1 p.array ++ MisakiDB.row r.1 q.array) :
    Row .InternalPage s' fits' (A ++ l :: ((f.1 : WithBot K), r.2) :: B) es M ∧ Moved .InternalPage s s' l.2 r.2 M := by
  obtain ⟨p0, q0, ⟨hp0, hq0, hid, hidq, -, -⟩, hmax, hmaxq, -⟩ := internal_pair hl hnd
  obtain rfl : p0 = p := by simpa [hp0] using hp
  obtain rfl : q0 = q := by simpa [hq0] using hq
  have hN : A ++ l :: ((f.1 : WithBot K), r.2) :: B = A ++ [l, ((f.1 : WithBot K), r.2)] ++ B := by simp
  have him : internalMax s' = internalMax s := by rw [internalMax, internalMax, h.member]
  refine ⟨?_, h.moves hl hnd hp hq⟩
  rw [hN]
  refine h.row hl hnd hp hq hf (fun n hn => ?_) ?_
  · rw [List.mem_cons, List.mem_singleton] at hn
    rcases hn with rfl | rfl
    · exact ⟨_, h.left, hid, hmax.trans him.symm, hsl, hX, hfk⟩
    · exact ⟨_, h.right, hidq, hmaxq.trans him.symm, hsr, hY, FirstKey.own f Y⟩
  · rw [below_cons, below_cons, below_nil, children_eq h.left, children_eq (n := ((f.1 : WithBot K), r.2)) h.right,
      row_own, List.append_nil, hrow]

end Swapped

theorem moveAllTo_internal {k : K} (hl : Row .InternalPage s fits (A ++ l :: r :: B) es M)
    (hnd : (kidIds .InternalPage M ++ ids (A ++ l :: r :: B)).Nodup)
    (hf : ∀ x ∈ ids A ++ ids B, ∀ size, fits x size → fits' x size) (hk : r.1 = (k : WithBot K))
    (hl1 : 1 ≤ sizeOf s l.2) (hr1 : 1 ≤ sizeOf s r.2) (hs : fits' l.2 (sizeOf s l.2 + sizeOf s r.2)) :
    wp exec (InternalPage.moveAllTo r.2 l.2 k) (fun _ s' =>
      Row .InternalPage s' fits' (A ++ l :: B) es M ∧ Moved .InternalPage s s' l.2 r.2 M) s := by
  obtain ⟨p, q, hpair, hmax, hmaxq, hkp, hkq, hM, hfk⟩ := internal_pair hl hnd
  obtain ⟨hp, hq, hid, hidq, hndp, -⟩ := id hpair
  rw [sizeOf_internal hp] at hl1
  rw [sizeOf_internal hq] at hr1
  rw [sizeOf_internal hp, sizeOf_internal hq] at hs
  obtain ⟨e, Y, hY⟩ := List.exists_cons_of_length_pos hr1
  have hC : ((k, e.2) :: Y).map (·.2) = q.array.map (·.2) := by simp [hY]
  apply wp_conseq (hpair.moveAllTo hY k)
  intro _ s' hsw
  have hdisj := List.nodup_append.1 (List.nodup_cons.1 (List.nodup_cons.1 hndp).2).2
  have hN : A ++ l :: B = A ++ [l] ++ B := by simp
  refine ⟨?_, hsw.moves hl hnd hp hq⟩
  rw [hN]
  refine hsw.row hl hnd hp hq hf (fun n hn => ?_) ?_
  · rw [List.mem_singleton] at hn
    subst hn
    refine ⟨_, hsw.left, hid, by simpa [internalMax, hsw.member] using hmax, by simpa [hY] using hs, fun f hf => ?_,
      (FirstKey.append (List.ne_nil_of_length_pos hl1) _).2 hfk⟩
    rcases List.mem_append.1 hf with hf | hf
    · have hfm : f.2 ∈ p.array.map (·.2) := List.mem_map_of_mem hf
      exact hsw.stays (hpair.apart (List.mem_append_left _ hfm)) (fun hc => hdisj.2.2 _ hfm _ hc rfl) (hkp f hf)
    · have hfm : f.2 ∈ q.array.map (·.2) := by
        rw [← hC]
        exact List.mem_map_of_mem hf
      obtain ⟨g, hg, hgf⟩ := List.mem_map.1 hfm
      exact hsw.child hfm (hgf ▸ hkq g hg)
  · rw [below_cons, below_nil, children_eq hsw.left, row_append (List.ne_nil_of_length_pos hl1), List.append_nil, hY,
      hk, row_cons]
    simp [cell]

theorem moveLastToFrontOf_internal {k key : K} (hl : Row .InternalPage s fits (A ++ l :: r :: B) es M)
    (hnd : (kidIds .InternalPage M ++ ids (A ++ l :: r :: B)).Nodup)
    (hf : ∀ x ∈ ids A ++ ids B, ∀ size, fits x size → fits' x size) (hk : r.1 = (k : WithBot K))
    (hp : s.page l.2 = some (.internal p)) (hkey : p.keyAt (p.getSize - 1) = some key) (h2 : 2 ≤ sizeOf s l.2)
    (hr1 : 1 ≤ sizeOf s r.2) (hsl : fits' l.2 (sizeOf s l.2 - 1)) (hsr : fits' r.2 (sizeOf s r.2 + 1)) :
    wp exec (InternalPage.moveLastToFrontOf l.2 r.2 k) (fun _ s' =>
      Row .InternalPage s' fits' (A ++ l :: ((key : WithBot K), r.2) :: B) es M ∧
      Moved .InternalPage s s' l.2 r.2 M) s := by
  obtain ⟨p0, q, hpair, hmax, hmaxq, hkp, hkq, hM, hfk⟩ := internal_pair hl hnd
  obtain rfl : p0 = p := by simpa [hpair.left] using hp
  have hq := hpair.right
  rw [sizeOf_internal hp] at h2 hsl
  rw [sizeOf_internal hq] at hr1 hsr
  obtain ⟨e, Y, hY⟩ := List.exists_cons_of_length_pos hr1
  obtain ⟨X, f, hX, hX1⟩ := last_of_two h2
  obtain rfl : f.1 = key := by
    rw [InternalPage.keyAt_eq hX (by simp [InternalPage.getSize, hX])] at hkey
    simpa using hkey
  have hpf := hkp f (by simp [hX])
  apply wp_conseq (hpair.moveLastToFrontOf hX hY k)
  intro _ s' hsw
  have hdisj := (List.nodup_cons.1 (List.nodup_cons.1 hpair.nodup).2).2
  rw [hX] at hdisj
  simp only [List.map_append, List.map_cons, List.map_nil] at hdisj
  -- the child that moves is in no other place, so every other keeps its parent
  refine hsw.cut hl hnd hp hq hf ((FirstKey.append hX1 [f]).1 (hX ▸ hfk)) (fun g hg => ?_) (fun g hg => ?_)
    (by simpa [hX] using hsl) (by simpa [hY] using hsr) ?_
  · have hgm : g.2 ∈ X.map (·.2) := List.mem_map_of_mem hg
    refine hsw.stays (hpair.apart (by simp [hX, hgm])) ?_ (hkp g (by simp [hX, hg]))
    rw [List.mem_singleton]
    intro hgf
    rw [hgf] at hgm
    grind [List.nodup_append]
  · rw [List.mem_cons] at hg
    rcases hg with rfl | hg
    · exact hsw.child (List.mem_singleton_self _) hpf
    · have hgm : g.2 ∈ q.array.map (·.2) := by
        rw [hY]
        exact List.mem_map_of_mem (f := (·.2)) (l := (k, e.2) :: Y) hg
      obtain ⟨g', hg', hgg⟩ := List.mem_map.1 hgm
      refine hsw.stays (hpair.apart (List.mem_append_right _ hgm)) ?_ (hgg ▸ hkq g' hg')
      rw [List.mem_singleton]
      intro hgf
      rw [hgf] at hgm
      grind [List.nodup_append]
  · rw [hX, row_append hX1, hY, hk, row_cons]
    simp [cell]

theorem moveFirstToEndOf_internal {k key : K} (hl : Row .InternalPage s fits (A ++ l :: r :: B) es M)
    (hnd : (kidIds .InternalPage M ++ ids (A ++ l :: r :: B)).Nodup)
    (hf : ∀ x ∈ ids A ++ ids B, ∀ size, fits x size → fits' x size) (hk : r.1 = (k : WithBot K))
    (hq : s.page r.2 = some (.internal q)) (hkey : q.keyAt 1 = some key) (hl1 : 1 ≤ sizeOf s l.2)
    (hsl : fits' l.2 (sizeOf s l.2 + 1)) (hsr : fits' r.2 (sizeOf s r.2 - 1)) :
    wp exec (InternalPage.moveFirstToEndOf r.2 l.2 k) (fun _ s' =>
      Row .InternalPage s' fits' (A ++ l :: ((key : WithBot K), r.2) :: B) es M ∧
      Moved .InternalPage s s' l.2 r.2 M) s := by
  obtain ⟨p, q0, hpair, hmax, hmaxq, hkp, hkq, hM, hfk⟩ := internal_pair hl hnd
  obtain rfl : q0 = q := by simpa [hpair.right] using hq
  have hp := hpair.left
  rw [sizeOf_internal hp] at hl1 hsl
  rw [sizeOf_internal hq] at hsr
  obtain ⟨e, f, Y, hY⟩ : ∃ e f Y, q0.array = e :: f :: Y := by
    rcases hq : q0.array with _ | ⟨e, _ | ⟨f, Y⟩⟩
    · simp [InternalPage.keyAt, hq] at hkey
    · simp [InternalPage.keyAt, hq] at hkey
    · exact ⟨e, f, Y, rfl⟩
  obtain rfl : f.1 = key := by simpa [InternalPage.keyAt, hY] using hkey
  have hpe := hkq e (by simp [hY])
  refine wp_conseq (hpair.moveFirstToEndOf hY k) ?_
  intro _ s' hsw
  have hdisj := (List.nodup_cons.1 (List.nodup_cons.1 hpair.nodup).2).2
  rw [hY] at hdisj
  simp only [List.map_cons] at hdisj
  refine hsw.cut hl hnd hp hq hf ((FirstKey.append (List.ne_nil_of_length_pos hl1) _).2 hfk) (fun g hg => ?_)
    (fun g hg => ?_) (by simpa using hsl) (by simpa [hY] using hsr) ?_
  · rcases List.mem_append.1 hg with hg | hg
    · have hgm : g.2 ∈ p.array.map (·.2) := List.mem_map_of_mem hg
      refine hsw.stays (hpair.apart (List.mem_append_left _ hgm)) ?_ (hkp g hg)
      rw [List.mem_singleton]
      intro hge
      rw [hge] at hgm
      grind [List.nodup_append]
    · rw [List.mem_singleton.1 hg]
      exact hsw.child (List.mem_singleton_self _) hpe
  · have hgm : g.2 ∈ (f :: Y).map (·.2) := List.mem_map_of_mem (f := (·.2)) hg
    refine hsw.stays (hpair.apart (List.mem_append_right _ (by rw [hY, List.map_cons]; exact List.mem_cons_of_mem _ hgm))) ?_
      (hkq g (by rw [hY]; exact List.mem_cons_of_mem _ hg))
    rw [List.mem_singleton]
    intro hge
    rw [hge, List.map_cons] at hgm
    grind [List.nodup_append]
  · rw [hY, row_append (List.ne_nil_of_length_pos hl1), hk, row_cons]
    simp [cell]

end Internal

end MisakiDB
