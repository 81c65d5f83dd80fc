import MisakiDB.Index.Insert
/-!
# Well-formed trees, page by page

`Formed s root` says in terms of pages what a B+ tree with this root has to keep:
where its leaves are, how full its pages are, which keys are below a child, which
page a page names as its parent, and how the leaves are linked. The levels of a
`Tree` are what `Reaches` finds at each depth, so a `Tree` is well formed.
-/

namespace MisakiDB

open Prog PageStore Blocks

variable {K V : Type}

/-- The page `x` is `d` levels below the page `root`. -/
inductive Reaches (s : IndexStore K V) (root : Nat) : Nat → Nat → Prop
  | refl : Reaches s root 0 root
  | child {d a p e} : Reaches s root d a → s.page a = some (.internal p) → e ∈ p.array → Reaches s root (d + 1) e.2

def IsLeaf (s : IndexStore K V) (x : Nat) : Prop := ∃ p, s.page x = some (.leaf p)

/-- The leaf below the first children. -/
inductive Leftmost (s : IndexStore K V) : Nat → Nat → Prop
  | leaf {x} : IsLeaf s x → Leftmost s x x
  | child {x p c y} : s.page x = some (.internal p) → p.valueAt 0 = some c → Leftmost s c y → Leftmost s x y

/-- The next-page ids lead from `start` through these leaves and end. -/
def Follows (s : IndexStore K V) : Option Nat → List Nat → Prop
  | start, [] => start = INVALID_PAGE_ID
  | start, x :: xs => start = some x ∧ ∃ p, s.page x = some (.leaf p) ∧ Follows s p.nextPageID xs

/-- The entries of a leaf. -/
def leafEntries (s : IndexStore K V) (x : Nat) : List (K × V) :=
  match s.page x with
  | some (.leaf p) => p.array
  | _ => []

/-- Every key below the `i`th child is from `key(i)` on, unless the key is one of the
`exempt`, and before `key(i + 1)`. -/
def ChildBounds [LinearOrder K] (s : IndexStore K V) (root : Nat) (exempt : Nat → K → Prop) : Prop :=
  ∀ n a p, Reaches s root n a → s.page a = some (.internal p) → ∀ i e, p.array[i]? = some e →
    ∀ m x, Reaches s e.2 m x → ∀ f ∈ leafEntries s x,
      (exempt i e.1 ∨ e.1 ≤ f.1) ∧ ∀ e', p.array[i + 1]? = some e' → f.1 < e'.1

structure Formed [LinearOrder K] [Inhabited K] (s : IndexStore K V) (root : Nat) : Prop where
  depth : ∃ d, ∀ n x, Reaches s root n x → (IsLeaf s x ↔ n = d)
  size : ∀ n x, Reaches s root n x → ∃ b, (s.page x).bind IndexFilePage.node = some b ∧
    b.maxSize = (if b.isLeafPage then s.member.leafMaxSize else max s.member.internalMaxSize 4) ∧ b.size < b.maxSize ∧
    (x ≠ root → b.getMinSize ≤ b.size) ∧ (x = root → (if b.isLeafPage then 1 else 2) ≤ b.size)
  sorted : ∀ n x, Reaches s root n x → Sorted (leafEntries s x)
  bounds : ChildBounds s root fun i key => i = 0 ∧ key = default
  root_parent : HasParent s root INVALID_PAGE_ID
  parent : ∀ n a p, Reaches s root n a → s.page a = some (.internal p) → ∀ e ∈ p.array, HasParent s e.2 (some a)
  links : ∃ x leaves, Leftmost s root x ∧ Follows s (some x) leaves ∧ leaves.Nodup ∧
    (∀ y, y ∈ leaves ↔ IsLeaf s y ∧ ∃ n, Reaches s root n y) ∧ Sorted (leaves.flatMap (leafEntries s))

/-! ## Depths are levels -/

/-- The level `n` below a level. -/
def down (s : IndexStore K V) : Nat → Level K → Level K
  | 0, L => L
  | n + 1, L => below s (down s n L)

section Down
variable {s : IndexStore K V} {L : Level K} {Ls : List (Level K)} {r : Nat}

theorem down_append (n : Nat) (A B : Level K) : down s n (A ++ B) = down s n A ++ down s n B := by
  induction n with
  | zero => rfl
  | succ n ih => rw [down, ih, below_append, down, down]

theorem down_down (m n : Nat) (L : Level K) : down s n (down s m L) = down s (m + n) L := by
  induction n with
  | zero => rfl
  | succ n ih => rw [down, ih]; rfl

variable [Inhabited K]

theorem mem_below {x : Nat} : x ∈ ids (below s L) ↔
    ∃ a p, ∃ e : K × Nat, a ∈ ids L ∧ s.page a = some (.internal p) ∧ e ∈ p.array ∧ e.2 = x := by
  induction L with
  | nil => simp
  | cons n L ih =>
    rw [below_cons, ids, List.map_append, List.mem_append, ih]
    constructor
    · rintro (h | ⟨a, p, e, ha, hp, he, hx⟩)
      · rcases hp : s.page n.2 with _ | ⟨_ | _ | _ | _ | p⟩
        case some.internal =>
          rw [children_eq hp, ← ids, ids_row] at h
          obtain ⟨e, he, hx⟩ := List.mem_map.1 h
          exact ⟨n.2, p, e, by simp, hp, he, hx⟩
        all_goals simp [children, hp] at h
      · exact ⟨a, p, e, List.mem_cons_of_mem _ ha, hp, he, hx⟩
    · rintro ⟨a, p, e, ha, hp, he, hx⟩
      rcases List.mem_cons.1 ha with rfl | ha
      · left
        rw [children_eq hp, ← ids, ids_row]
        exact List.mem_map.2 ⟨e, he, hx⟩
      · exact .inr ⟨a, p, e, ha, hp, he, hx⟩

theorem reaches_iff {x n : Nat} {b : WithBot K} : Reaches s r n x ↔ x ∈ ids (down s n [(b, r)]) := by
  induction n generalizing x with
  | zero =>
    constructor
    · rintro ⟨⟩
      simp [down]
    · intro h
      obtain rfl : x = r := by simpa [down] using h
      exact .refl
  | succ n ih =>
    rw [down, mem_below]
    constructor
    · rintro (_ | ⟨ha, hp, he⟩)
      exact ⟨_, _, _, ih.1 ha, hp, he, rfl⟩
    · rintro ⟨a, p, e, ha, hp, he, rfl⟩
      exact .child (ih.2 ha) hp he

theorem Above.root_eq (hab : Above s L Ls) (hr : s.member.rootPageID = some r) :
    L = down s Ls.length [(⊥, r)] ∧ HasParent s r none := by
  induction Ls generalizing L with
  | nil =>
    obtain ⟨r', rfl, hr', hpar⟩ := hab
    obtain rfl : r = r' := by simpa [hr] using hr'
    exact ⟨rfl, hpar⟩
  | cons L' Ls ih =>
    obtain ⟨rfl, -, ha⟩ := hab
    obtain ⟨h1, h2⟩ := ih ha
    exact ⟨by rw [List.length_cons, down, ← h1], h2⟩

/-- The levels between the root and the leaves hold internal pages. -/
theorem Above.at (hab : Above s L Ls) (hr : s.member.rootPageID = some r) {n : Nat} (hn : n < Ls.length) :
    ∃ Ls' : List (Level K), Ls'.length = n ∧ Linked s (fun _ => InternalFits s (Ls' = [])) (down s n [(⊥, r)]) := by
  induction Ls generalizing L with
  | nil => simp at hn
  | cons L' Ls ih =>
    obtain ⟨-, hl, ha⟩ := hab
    rcases Nat.lt_succ_iff_lt_or_eq.1 hn with hn | rfl
    · exact ih ha hn
    · exact ⟨Ls, rfl, by rwa [← (ha.root_eq hr).1]⟩

end Down

/-! ## A tree is well formed -/

section Formed
variable {s : IndexStore K V} {L : Level K} {Ls : List (Level K)} {r : Nat}

theorem entries_leaf (n : Node K) : entries s n = leafEntries s n.2 := rfl

theorem Tree.leaf_iff [LinearOrder K] [Inhabited K] (ht : Tree s L Ls) (hr : s.member.rootPageID = some r) {n x : Nat}
    (h : Reaches s r n x) :
    n ≤ Ls.length ∧ (IsLeaf s x ↔ n = Ls.length) := by
  have hL := (ht.above.root_eq hr).1
  have hleaf : ∀ y ∈ ids L, IsLeaf s y := by
    intro y hy
    obtain ⟨m, hm, rfl⟩ := List.mem_map.1 hy
    obtain ⟨p, hp, -⟩ := ht.level.leaves m hm
    exact ⟨p, hp⟩
  rcases lt_trichotomy n Ls.length with hn | rfl | hn
  · refine ⟨hn.le, fun ⟨p, hp⟩ => ?_, fun he => absurd he hn.ne⟩
    obtain ⟨Ls', -, hl⟩ := ht.above.at hr hn
    obtain ⟨m, hm, rfl⟩ := List.mem_map.1 ((reaches_iff (b := ⊥)).1 h)
    obtain ⟨q, hq, -⟩ := hl m hm
    rw [hq] at hp
    cases hp
  · rw [reaches_iff (b := ⊥), ← hL] at h
    exact ⟨le_rfl, fun _ => rfl, fun _ => hleaf x h⟩
  · exfalso
    obtain ⟨k, rfl⟩ : ∃ k, n = Ls.length + 1 + k := ⟨n - Ls.length - 1, by omega⟩
    have hempty : ∀ k, down s (Ls.length + 1 + k) [(⊥, r)] = [] := by
      intro k
      rw [← down_down, down, ← hL]
      have hb : below s L = [] := by
        refine List.flatMap_eq_nil_iff.2 fun m hm => ?_
        obtain ⟨p, hp⟩ := hleaf m.2 (List.mem_map_of_mem hm)
        simp [children, hp]
      rw [hb]
      induction k with
      | zero => rfl
      | succ k ih => rw [down, ih]; rfl
    rw [reaches_iff (b := ⊥), hempty] at h
    simp at h

theorem Tree.size [LinearOrder K] [Inhabited K] (ht : Tree s L Ls) (hr : s.member.rootPageID = some r) {n x : Nat}
    (h : Reaches s r n x) :
    ∃ b, (s.page x).bind IndexFilePage.node = some b ∧
      b.maxSize = (if b.isLeafPage then s.member.leafMaxSize else max s.member.internalMaxSize 4) ∧
      b.size < b.maxSize ∧ (x ≠ r → b.getMinSize ≤ b.size) ∧ (x = r → (if b.isLeafPage then 1 else 2) ≤ b.size) := by
  have hL := (ht.above.root_eq hr).1
  have hx := (reaches_iff (b := ⊥)).1 h
  rcases (ht.leaf_iff hr h).1.lt_or_eq with hn | rfl
  · obtain ⟨Ls', hlen, hl⟩ := ht.above.at hr hn
    obtain ⟨m, hm, rfl⟩ := List.mem_map.1 hx
    obtain ⟨p, hp, -, hmax, hfit, -⟩ := hl m hm
    refine ⟨_, by rw [hp]; exact IndexFilePage.node_internal (V := V) p, by simpa [internalMax] using hmax,
      by rw [hmax]; exact hfit.2.2,
      fun hne => ?_, fun _ => by simpa using hfit.1⟩
    rw [BPlusTreePage.getMinSize, hmax]
    apply hfit.2.1
    rintro rfl
    obtain rfl : 0 = n := hlen
    exact hne (by simpa [down] using hx)
  · rw [← hL] at hx
    obtain ⟨m, hm, rfl⟩ := List.mem_map.1 hx
    obtain ⟨p, hp, -, hmax, hfit⟩ := ht.level.leaves m hm
    refine ⟨_, by rw [hp]; exact IndexFilePage.node_leaf p, by simpa [internalMax] using hmax,
      by rw [hmax]; exact hfit.2.2,
      fun hne => ?_, fun _ => by simpa using hfit.1⟩
    rw [BPlusTreePage.getMinSize, hmax]
    apply hfit.2.1
    rintro rfl
    rw [hL] at hx
    exact hne (by simpa [down] using hx)

/-- The first bound of a level below is the first bound of the level. -/
theorem head_down {A : Level K} (m : Nat)
    (h : ∀ j < m, ∀ y ∈ ids (down s j A), ∃ p, s.page y = some (.internal p) ∧ p.array ≠ []) :
    (down s m A).head?.map (·.1) = A.head?.map (·.1) := by
  induction m with
  | zero => rfl
  | succ m ih =>
    rw [← ih fun j hj => h j (by omega), down]
    have hm := h m (by omega)
    rcases hd : down s m A with _ | ⟨n, B⟩
    · rfl
    · obtain ⟨p, hp, hne⟩ := hm n.2 (by simp [hd])
      obtain ⟨e, es, he⟩ := List.exists_cons_of_ne_nil hne
      simp [below_cons, children_eq hp, he]

/-- The entries below a piece of a level are between its first bound and the next. -/
theorem entries_between [LinearOrder K] {U C D : Level K} (hord : Ordered (blocks s (U ++ C ++ D)))
    {n : Node K} (hn : n ∈ C)
    {f : K × V} (hf : f ∈ entries s n) :
    (∀ lo ∈ C.head?.map (·.1), lo ≤ (f.1 : WithBot K)) ∧ ∀ hi ∈ D.head?.map (·.1), (f.1 : WithBot K) < hi := by
  rw [blocks_append, blocks_append] at hord
  have hnb : (n.1, entries s n) ∈ blocks s C := List.mem_map.2 ⟨n, hn, rfl⟩
  have hlow := hord.above (n.1, entries s n) (by simp [hnb]) f hf
  refine ⟨fun lo hlo => ?_, fun hi hhi => ?_⟩
  · rcases C with _ | ⟨c, C⟩
    · simp at hn
    · obtain rfl : c.1 = lo := by simpa using hlo
      rcases List.mem_cons.1 hn with rfl | hn
      · exact hlow
      · have hp := (List.pairwise_append.1 (List.pairwise_append.1 hord.apart).1).2.1
        have := ((List.pairwise_cons.1 hp).1 (n.1, entries s n) (List.mem_map.2 ⟨n, hn, rfl⟩)).1
        exact le_trans (le_of_lt this) hlow
  · rcases D with _ | ⟨d, D⟩
    · simp at hhi
    · obtain rfl : d.1 = hi := by simpa using hhi
      have hp := (List.pairwise_append.1 hord.apart).2.2
      exact (hp (n.1, entries s n) (by simp [hnb]) (d.1, entries s d) (by simp)).2 f hf

/-- The `i`th child starts at its own key, unless that is a first key never written. -/
theorem row_at [Inhabited K] {lo : WithBot K} {X : List (K × Nat)} {e : K × Nat} {Y : List (K × Nat)}
    (h : FirstKey lo (X ++ e :: Y)) :
    ∃ l R, row lo (X ++ e :: Y) = R ++ (l, e.2) :: Y.map cell ∧
      (l = (e.1 : WithBot K) ∨ (X.length = 0 ∧ e.1 = default)) := by
  rcases X with _ | ⟨g, X⟩
  · exact ⟨lo, [], by simp, (h e rfl).imp id fun h => ⟨rfl, h.2⟩⟩
  · exact ⟨(e.1 : WithBot K), (lo, g.2) :: X.map cell, by simp [cell], .inl rfl⟩

theorem Reaches.trans {a b : Nat} {m n x : Nat} (h : Reaches s a m b) (h' : Reaches s b n x) :
    Reaches s a (m + n) x := by
  induction h' with
  | refl => exact h
  | child _ hp he ih => exact .child ih hp he

theorem Tree.bounds [LinearOrder K] [Inhabited K] (ht : Tree s L Ls) (hr : s.member.rootPageID = some r) {n a : Nat}
    {p : InternalPage K}
    (h : Reaches s r n a) (hp : s.page a = some (.internal p)) {i : Nat} {e : K × Nat} (hi : p.array[i]? = some e)
    {m x : Nat} (hx : Reaches s e.2 m x) {f : K × V} (hf : f ∈ leafEntries s x) :
    ((i = 0 ∧ e.1 = default) ∨ e.1 ≤ f.1) ∧ ∀ e', p.array[i + 1]? = some e' → f.1 < e'.1 := by
  have hL := (ht.above.root_eq hr).1
  have hmem : e ∈ p.array := List.mem_of_getElem? hi
  have hreach : Reaches s r (n + 1 + m) x := (Reaches.child h hp hmem).trans hx
  obtain ⟨hle, hiff⟩ := ht.leaf_iff hr hreach
  have hleaf : IsLeaf s x := by
    rcases hq : s.page x with _ | ⟨_ | _ | _ | q | _⟩
    case some.leaf => exact ⟨q, hq⟩
    all_goals simp [leafEntries, hq] at hf
  have hlen := hiff.1 hleaf
  -- the children of `a`, cut at the `i`th
  obtain ⟨hil, hei⟩ := List.getElem?_eq_some_iff.1 hi
  have hcut : p.array = p.array.take i ++ e :: p.array.drop (i + 1) := by
    rw [← hei, ← List.drop_eq_getElem_cons hil, List.take_append_drop]
  obtain ⟨node, hnode, hna⟩ := List.mem_map.1 ((reaches_iff (b := ⊥)).1 h)
  obtain ⟨A, B, hAB⟩ := List.append_of_mem hnode
  have hpn : s.page node.2 = some (.internal p) := by rw [hna, hp]
  have hfirst : FirstKey node.1 p.array := by
    obtain ⟨Ls', -, hlink⟩ := ht.above.at hr (n := n) (by omega)
    obtain ⟨q, hq, -, -, -, -, hfk⟩ := hlink node hnode
    obtain rfl : q = p := by simpa [hpn] using hq.symm
    exact hfk
  obtain ⟨l, R, hrow, hl⟩ := row_at (hcut ▸ hfirst)
  rw [← hcut] at hrow
  have hnext : down s (n + 1) [(⊥, r)] =
      (below s A ++ R) ++ [(l, e.2)] ++ ((p.array.drop (i + 1)).map cell ++ below s B) := by
    rw [down, hAB, below_append, below_cons, children_eq hpn, hrow]
    simp
  have hbottom : L = down s m (below s A ++ R) ++ down s m [(l, e.2)] ++
      down s m ((p.array.drop (i + 1)).map cell ++ below s B) := by
    rw [hL, ← hlen, ← down_down, hnext, down_append, down_append]
  have hfull : ∀ C : Level K, C ⊆ down s (n + 1) [(⊥, r)] → ∀ j < m, ∀ y ∈ ids (down s j C),
      ∃ q, s.page y = some (.internal q) ∧ q.array ≠ [] := by
    intro C hC j hj y hy
    obtain ⟨Ls', -, hlink⟩ := ht.above.at hr (n := n + 1 + j) (by omega)
    have hsub : ∀ z ∈ ids (down s j C), z ∈ ids (down s (n + 1 + j) [(⊥, r)]) := by
      intro z hz
      rw [← down_down]
      have hmono : ∀ (j : Nat) {A B : Level K}, ids A ⊆ ids B → ids (down s j A) ⊆ ids (down s j B) := by
        intro j
        induction j with
        | zero => exact fun h => h
        | succ j ih =>
          intro A B hAB z hz
          rw [down, mem_below] at hz ⊢
          obtain ⟨a, p, e, ha, hp, he, hx⟩ := hz
          exact ⟨a, p, e, ih hAB ha, hp, he, hx⟩
      exact hmono j (List.map_subset _ hC) hz
    obtain ⟨w, hw, rfl⟩ := List.mem_map.1 (hsub y hy)
    obtain ⟨q, hq, -, -, hfit, -⟩ := hlink w hw
    exact ⟨q, hq, List.ne_nil_of_length_pos (lt_of_lt_of_le (by omega) hfit.1)⟩
  obtain ⟨w, hw, rfl⟩ := List.mem_map.1 ((reaches_iff (b := l)).1 hx)
  obtain ⟨hlo, hhi⟩ := entries_between (hbottom ▸ ht.level.ordered) hw hf
  refine ⟨?_, fun e' he' => ?_⟩
  · have := hlo l (by rw [head_down m (hfull _ (by rw [hnext]; simp))]; rfl)
    rcases hl with rfl | ⟨h0, hdef⟩
    · exact .inr (WithBot.coe_le_coe.1 this)
    · rw [List.length_take] at h0
      exact .inl ⟨by omega, hdef⟩
  · have hdrop : p.array.drop (i + 1) = e' :: p.array.drop (i + 2) := by
      obtain ⟨hil', hei'⟩ := List.getElem?_eq_some_iff.1 he'
      rw [← hei', ← List.drop_eq_getElem_cons hil']
    have := hhi (e'.1 : WithBot K) (by
      rw [head_down m (hfull _ (by rw [hnext]; exact List.subset_append_right _ _)), hdrop]
      rfl)
    exact WithBot.coe_lt_coe.1 this

theorem Chained.follows {M : Level K} (hc : Chained s M none) (hl : ∀ y ∈ ids M, IsLeaf s y) :
    Follows s (first M none) (ids M) := by
  induction M with
  | nil => rfl
  | cons n M ih =>
    obtain ⟨h1, h2⟩ := hc
    obtain ⟨p, hp⟩ := hl n.2 (by simp)
    rw [nextOf_eq hp, Option.some.injEq] at h1
    refine ⟨rfl, p, hp, ?_⟩
    rw [h1]
    exact ih h2 fun y hy => hl y (by simp at hy ⊢; exact .inr hy)

variable [Inhabited K]

/-- The first pages of the levels are below one another. -/
theorem Above.leftmost (hab : Above s L Ls) (hr : s.member.rootPageID = some r) {n : Node K} {M : Level K}
    (hL : L = n :: M) {y : Nat} (hy : Leftmost s n.2 y) : Leftmost s r y := by
  induction Ls generalizing L n M with
  | nil =>
    obtain ⟨r', hL', hr', -⟩ := hab
    obtain rfl : r = r' := by simpa [hr] using hr'
    rw [hL, List.cons.injEq] at hL'
    rwa [hL'.1] at hy
  | cons L' Ls ih =>
    obtain ⟨hb, hl, ha⟩ := hab
    rcases L' with _ | ⟨m, L'⟩
    · rw [below_nil] at hb
      rw [← hb] at hL
      cases hL
    · obtain ⟨p, hp, -, -, hfit, -⟩ := hl m (by simp)
      obtain ⟨e, es, he⟩ := List.exists_cons_of_length_pos (lt_of_lt_of_le (by omega) hfit.1)
      refine ih ha rfl (.child hp (c := e.2) (by simp [InternalPage.valueAt, he]) ?_)
      rw [below_cons, children_eq hp, he, row_cons, List.cons_append] at hb
      rw [← hb, List.cons.injEq] at hL
      rwa [← hL.1] at hy

theorem Tree.formed [LinearOrder K] (ht : Tree s L Ls) (hr : s.member.rootPageID = some r) (hnd : (ids L).Nodup) :
    Formed s r := by
  obtain ⟨hL, hpar⟩ := ht.above.root_eq hr
  have hleaf : ∀ y ∈ ids L, IsLeaf s y := by
    intro y hy
    obtain ⟨m, hm, rfl⟩ := List.mem_map.1 hy
    obtain ⟨p, hp, -⟩ := ht.level.leaves m hm
    exact ⟨p, hp⟩
  -- every path to a leaf has the length of the list of levels
  refine ⟨⟨Ls.length, fun n x h => (ht.leaf_iff hr h).2⟩, fun n x h => ht.size hr h, fun n x h => ?_,
    fun n a p h hp i e hi m x hx f hf => ht.bounds hr h hp hi hx hf, hpar, fun n a p h hp e he => ?_, ?_⟩
  · by_cases hx : IsLeaf s x
    · have hn := (ht.leaf_iff hr h).2.1 hx
      rw [reaches_iff (b := ⊥), hn, ← hL] at h
      obtain ⟨m, hm, rfl⟩ := List.mem_map.1 h
      exact ht.level.ordered.sorted (m.1, entries s m) (List.mem_map.2 ⟨m, hm, rfl⟩)
    · have : leafEntries s x = [] := by
        rcases hq : s.page x with _ | ⟨_ | _ | _ | q | _⟩
        case some.leaf => exact absurd ⟨q, hq⟩ hx
        all_goals simp [leafEntries, hq]
      rw [this]
      exact List.Pairwise.nil
  · obtain ⟨hle, hiff⟩ := ht.leaf_iff hr h
    have hn : n < Ls.length := by
      refine lt_of_le_of_ne hle fun hn => ?_
      obtain ⟨q, hq⟩ := hiff.2 hn
      rw [hq] at hp
      cases hp
    obtain ⟨Ls', -, hl⟩ := ht.above.at hr hn
    obtain ⟨m, hm, rfl⟩ := List.mem_map.1 ((reaches_iff (b := ⊥)).1 h)
    obtain ⟨q, hq, -, -, -, hk, -⟩ := hl m hm
    obtain rfl : q = p := by simpa [hq] using hp
    exact hk e he
  · obtain ⟨n, M, hLM⟩ := List.exists_cons_of_ne_nil ht.above.length_le.1
    refine ⟨n.2, ids L, ht.above.leftmost hr hLM (.leaf (hleaf _ (by simp [hLM]))), ?_, hnd, fun y => ?_, ?_⟩
    · have := ht.level.chained.follows hleaf
      rwa [hLM] at this ⊢
    · constructor
      · exact fun hy => ⟨hleaf y hy, Ls.length, (reaches_iff (b := ⊥)).2 (hL ▸ hy)⟩
      · rintro ⟨hy, k, hk⟩
        have hn := (ht.leaf_iff hr hk).2.1 hy
        rw [reaches_iff (b := ⊥), hn, ← hL] at hk
        exact hk
    · have := ht.level.ordered.flat_sorted
      rw [blocks, flat, List.flatMap_map] at this
      rwa [ids, List.flatMap_map]

end Formed

end MisakiDB
