import MisakiDB.Index.Calls
import MisakiDB.Lib.Latched
/-!
# The tree under `m_treeRWLatch`

`getValue` takes the latch of the tree shared, `insert` and `remove` take it exclusive, so
the calls to the pool of several searches mix. A search pins the pages on its way and
unpins them again. What the pins of all the threads add up to is no part of what a search
reads, so the tree is to its callers a map whose calls happen at once.

The pool is a `PageStore`: it has a frame for every page, so no fetch waits, and a page is
in one frame only. A pool that runs out of frames makes a fetch wait, and two threads that
wait for the same page can get it in two frames.
-/

namespace MisakiDB.TreeThreads

open Prog PageStore Runs Latched

/-! ## Reading beside other pins -/

section Pool
variable {κ π ρ : Type} [DecidableEq κ] [Inhabited π]

/-- A store with these pins. -/
def pinnedBy (b : PageStore κ π ρ) (pins : κ → Nat) : PageStore κ π ρ := { b with pins }

/-- What a search asks of the pool. -/
def Reads : PageOp κ π ρ → Prop
  | .fetchPage _ => True
  | .unpinPage _ _ => True
  | .getData _ => True
  | .getMember => True
  | _ => False

theorem update_add (f g : κ → Nat) (k : κ) (n : Nat) :
    Function.update (f + g) k (n + g k) = Function.update f k n + g := by
  funext x
  by_cases hx : x = k
  · subst hx
    simp
  · simp [hx]

/-- An unpin takes away a pin of its own: one more thread's pins do not matter to it. -/
theorem framed_of_reads (o : PageOp κ π ρ) (ho : Reads o) : Framed exec pinnedBy o := by
  intro b f r s hop
  cases o with
  | fetchPage k =>
    simp only [exec, pinnedBy, Option.map_eq_some_iff] at hop ⊢
    obtain ⟨p, hp, heq⟩ := hop
    obtain ⟨-, rfl⟩ := Prod.mk.inj heq
    refine ⟨Function.update f k (f k + 1), rfl, fun g => ⟨p, hp, ?_⟩⟩
    rw [← update_add, Nat.add_right_comm]
    rfl
  | unpinPage k d =>
    by_cases hk : 0 < (pinnedBy b f).pins k
    · rw [exec, if_pos hk, Option.some.injEq, Prod.mk.injEq] at hop
      obtain ⟨-, rfl⟩ := hop
      refine ⟨Function.update f k (f k - 1), rfl, fun g => ?_⟩
      have hpos : 0 < (f + g) k := Nat.add_pos_left (show 0 < f k from hk) _
      have hsub : (f + g) k - 1 = f k - 1 + g k := Nat.sub_add_comm (show 0 < f k from hk)
      simp only [exec, pinnedBy, if_pos hpos, setPins, hsub, update_add]
    · rw [exec, if_neg hk] at hop
      cases hop
  | getData k =>
    simp only [exec, pinnedBy, Option.map_eq_some_iff] at hop ⊢
    obtain ⟨p, hp, heq⟩ := hop
    obtain ⟨rfl, rfl⟩ := Prod.mk.inj heq
    exact ⟨f, rfl, fun g => ⟨p, hp, rfl⟩⟩
  | getMember =>
    obtain ⟨rfl, rfl⟩ := Prod.mk.inj (Option.some.inj hop)
    exact ⟨f, rfl, fun g => rfl⟩
  | _ => exact ho.elim

end Pool

/-! ## A search only reads -/

section Search
variable {K V : Type}

theorem reads_getData (k : PageIDType) : Uses Reads (getData k : IndexProg K V (IndexPage K V)) :=
  .perform (o := PageOp.getData k) trivial

theorem reads_fetchPage (k : PageIDType) : Uses Reads (fetchPage k : IndexProg K V Unit) :=
  .perform (o := PageOp.fetchPage k) trivial

theorem reads_unpinPage (k : PageIDType) (d : Bool) : Uses Reads (unpinPage k d : IndexProg K V Unit) :=
  .perform (o := PageOp.unpinPage k d) trivial

theorem reads_getMember : Uses Reads (getMember : IndexProg K V BPlusTree) := .perform (o := PageOp.getMember) trivial

theorem reads_require {α : Type} (o : Option α) : Uses Reads (require o : IndexProg K V α) := by
  cases o with
  | none => exact .fail
  | some a => exact .ret a

theorem reads_getLeaf (x : PageIDType) : Uses Reads (getLeaf x : IndexProg K V (LeafPage K V)) := by
  unfold getLeaf
  apply (reads_getData x).bind
  intro p
  cases p with
  | leaf l => exact .ret l
  | _ => exact .fail

theorem reads_getInternal (x : PageIDType) : Uses Reads (getInternal x : IndexProg K V (InternalPage K)) := by
  unfold getInternal
  apply (reads_getData x).bind
  intro p
  cases p with
  | internal l => exact .ret l
  | _ => exact .fail

variable [LinearOrder K]

theorem reads_descend (key : K) (leftMost : Bool) (fuel : Nat) (page : PageIDType) :
    Uses Reads (BPlusTree.descend key leftMost fuel page : IndexProg K V PageIDType) := by
  induction fuel generalizing page with
  | zero => exact .fail
  | succ fuel ih =>
    unfold BPlusTree.descend
    apply Uses.bind ((reads_getData page).bind fun p => reads_require p.node)
    intro n
    split
    · exact .ret page
    · apply (reads_getInternal page).bind
      intro p
      apply (reads_require _).bind
      intro child
      exact (reads_unpinPage n.pageID false).bind fun _ => (reads_fetchPage child).bind fun _ => ih child

theorem reads_getValue (fuel : Nat) (key : K) :
    Uses Reads (BPlusTree.getValue fuel key : IndexProg K V (Option V)) := by
  unfold BPlusTree.getValue
  apply reads_getMember.bind
  intro b
  split
  · exact .ret _
  · unfold BPlusTree.findLeafPage
    apply Uses.bind
    · apply reads_getMember.bind
      intro c
      split
      · exact .fail
      · exact (reads_fetchPage _).bind fun _ => reads_descend key false fuel _
    · intro leaf
      apply (reads_getLeaf leaf).bind
      intro p
      exact (reads_unpinPage p.pageID false).bind fun _ => .ret _

end Search

/-! ## The tree serves as a map -/

section
variable {K V τ : Type} [LinearOrder K] [Inhabited K] [Fintype τ] [DecidableEq τ]

/-- The calls that take `m_treeRWLatch` shared. -/
def shared : Call K V → Prop
  | .getValue _ => True
  | _ => False

/-- What a call runs once it has the latch. -/
def progOf (c : Call K V) (s : IndexStore K V) : IndexProg K V (Answer V) := c.prog (bound s)

/-- The store holds a tree with the entries of `m`. -/
def IsTree (leafMax internalMax : Nat) (s : IndexStore K V) (m : K → Option V) : Prop :=
  ∃ orphans, TreeInv leafMax internalMax s m orphans

variable {leafMax internalMax : Nat}

theorem IsTree.unpinned {s : IndexStore K V} {m : K → Option V} {orphans : List Nat}
    (hi : TreeInv leafMax internalMax s m orphans) : TreeInv leafMax internalMax (pinnedBy s fun _ => 0) m orphans := by
  obtain ⟨hl, hm, pages, es, used, free, h, ha, hh, hperm, hmap⟩ := hi
  refine ⟨hl, hm, pages, es, used, free, h, ha.frame rfl (fun _ _ => rfl) fun x h0 hx => ?_,
    hh.congr (fun _ _ => rfl) rfl,
    hperm, hmap⟩
  exact (ha.unpinned x h0 hx).symm

theorem linearizes (h2 : 2 ≤ leafMax) :
    Linearizes exec pinnedBy (progOf (K := K) (V := V)) shared (fun m c => c.onMap m) (IsTree leafMax internalMax) where
  apart s m _ := ⟨s, s.pins, rfl⟩
  own b f g h := congrArg PageStore.pins h
  call s m c := by
    rintro ⟨orphans, hi⟩
    obtain ⟨s', hc, hi', -⟩ := hi.call h2 c
    exact ⟨s', hc, _, hi'⟩
  framed c s hc := by
    cases c with
    | getValue key =>
      apply Uses.imp framed_of_reads
      exact (reads_getValue _ key).bind fun v => .ret _
    | _ => exact hc.elim
  read b f g m c hc := by
    rintro ⟨orphans, hi⟩
    cases c with
    | getValue key =>
      refine ⟨?_, rfl⟩
      obtain ⟨-, -, pages, es, used, free, h, ha, hh, hperm, rfl⟩ := IsTree.unpinned hi
      obtain ⟨r, s', hrun, rfl, rfl⟩ := getValue_spec key hh ha hperm ha.bound_eq.ge
      exact run_then _ hrun
    | _ => exact hc.elim

/-- What the threads of a tree are at. -/
abbrev TreeState (K V τ : Type) : Type :=
  State (PageOp PageIDType (IndexPage K V) BPlusTree) PageOp.Res (IndexStore K V) (Call K V) (Answer V) τ

/-- One step of one thread: from its call, a call to the pool at a time, to its return. -/
abbrev TreeStep : TreeState K V τ → Event τ (Call K V) (Answer V) → TreeState K V τ → Prop :=
  Latched.Step exec progOf shared

/-- The threads of a finite map. -/
abbrev MapStep : AtomicState (K → Option V) (Call K V) (Answer V) τ → Event τ (Call K V) (Answer V) →
    AtomicState (K → Option V) (Call K V) (Answer V) τ → Prop :=
  AtomicStep fun m c => c.onMap m

variable {l : List (Event τ (Call K V) (Answer V) × TreeState K V τ)} {x : TreeState K V τ}

/-- However the threads' calls to the pool mix, the callers of a tree see a map whose calls
happen at once, and while nobody has the latch the file holds a tree with its entries. -/
theorem tree_linearizable (h2 : 2 ≤ leafMax) (internalMax : Nat)
    (hp : Path TreeStep (State.new (BPlusTree.create leafMax internalMax)) l x) :
    ∃ l' y, Path MapStep (AtomicState.new fun _ => none) l' y ∧ trace Event.see l' = trace Event.see l ∧
      (x.Free → IsTree leafMax internalMax x.store y.store) :=
  linearizable (linearizes h2) ⟨[], TreeInv.create leafMax internalMax⟩ hp

/-- In no run does a call on a tree come to wait for ever. -/
theorem calls_finish (h2 : 2 ≤ leafMax) (internalMax : Nat)
    (hp : Path TreeStep (State.new (BPlusTree.create leafMax internalMax)) l x) :
    ∃ l' x', Path TreeStep x l' x' ∧ trace Event.see l' = [] ∧
      ∀ t, x'.phase t = .idle ∨ ∃ a, x'.phase t = .returning a :=
  never_stuck (linearizes h2) ⟨[], TreeInv.create leafMax internalMax⟩ hp

end

/-! ## Two searches at once -/

section
variable {K V τ : Type} [LinearOrder K] [Inhabited K] [DecidableEq τ]

/-- One thread makes the calls, and nobody else makes any. -/
theorem calls_path (t : τ) {cs : List (Call K V)} {answers : List (Answer V)} {s s' : IndexStore K V}
    (hcs : calls cs s = some (answers, s')) : ∃ l, Path TreeStep (State.new s : TreeState K V τ) l (State.new s') ∧
      trace Event.see l = (cs.zip answers).flatMap fun e => [.call t e.1, .ret t e.2] := by
  induction cs generalizing s answers with
  | nil =>
    obtain ⟨rfl, rfl⟩ : [] = answers ∧ s = s' := by simpa [calls] using hcs
    exact ⟨[], .nil, rfl⟩
  | cons c cs ih =>
    obtain ⟨⟨a, s1⟩, hc, hrest⟩ := Option.bind_eq_some_iff.1 hcs
    obtain ⟨⟨as, s2⟩, hcs', heq⟩ := Option.bind_eq_some_iff.1 hrest
    obtain ⟨rfl, rfl⟩ : a :: as = answers ∧ s2 = s' := by simpa using heq
    have hfree : (State.new s : TreeState K V τ).Free := fun u d p hu => by cases hu
    obtain ⟨l, hp, htr⟩ := performs (h := exec) progOf shared (t := t) rfl hfree hc
    obtain ⟨l', hp', htr'⟩ := ih hcs'
    refine ⟨l ++ l', hp.append hp', ?_⟩
    rw [trace_append, htr, htr']
    rfl

end

/-- Both threads search, and one of them has read the root's id. -/
theorem both_inside (s : IndexStore Nat Nat) : ∃ l x p, Path TreeStep (State.new s : TreeState Nat Nat Bool) l x ∧
    trace Event.see l = [.call false (.getValue 1), .call true (.getValue 2)] ∧ x.store = s ∧
    x.phase false = .running (.getValue 1) (progOf (.getValue 1) s) ∧ x.phase true = .running (.getValue 2) p := by
  have h0 : Path TreeStep (State.new s : TreeState Nat Nat Bool) [] _ := .nil
  have h1 := h0.snoc (.call (t := false) (c := .getValue 1) rfl)
  have h2 := h1.snoc (.call (t := true) (c := .getValue 2) rfl)
  have h3 := h2.snoc (.lockShared (t := true) rfl trivial fun u d p hu => by cases u <;> cases hu)
  have h4 := h3.snoc (.act (t := true) rfl rfl)
  have h5 := h4.snoc (.lockShared (t := false) rfl trivial fun u d p hu => by
    cases u <;> cases hu
    trivial)
  exact ⟨_, _, _, h5, rfl, rfl, rfl, rfl⟩

/-- Three leaves under a root. -/
def threeLeaves : List (Call Nat Nat) := [.insert 1 10, .insert 2 20, .insert 3 30]

/-- What two threads see: one of them makes the tree, then both search; it ends its search,
calls again, and has to wait for the other. -/
def overlap : List (Event Bool (Call Nat Nat) (Answer Nat)) :=
  [.call false (.insert 1 10), .ret false (.inserted true), .call false (.insert 2 20), .ret false (.inserted true),
    .call false (.insert 3 30), .ret false (.inserted true), .call false (.getValue 1), .call true (.getValue 2),
    .ret false (.found (some 10)), .call false (.remove 2)]

theorem searches_overlap : ∃ l x p, Path TreeStep (State.new (BPlusTree.create 2 4)) l x ∧ trace Event.see l = overlap ∧
    x.phase false = .waiting (.remove 2) ∧ x.phase true = .running (.getValue 2) p := by
  obtain ⟨s, orphans, hcs, hi⟩ := (TreeInv.create 2 4).calls (le_refl 2) threeLeaves
  obtain ⟨s', hrun, -⟩ := hi.call (le_refl 2) (.getValue 1)
  obtain ⟨l1, hp1, htr1⟩ := calls_path (τ := Bool) false hcs
  obtain ⟨l2, x, p, hp2, htr2, rfl, hfalse, htrue⟩ := both_inside s
  obtain ⟨l3, hp3, htr3⟩ := runs_out progOf shared hfalse hrun
  have h4 := ((hp1.append hp2).append hp3).snoc (.ret (t := false) rfl)
  have h5 := h4.snoc (.call (t := false) (c := .remove 2) rfl)
  refine ⟨_, _, p, h5, ?_, rfl, ?_⟩
  · simp only [trace_append, htr1, htr2, htr3]
    rfl
  · simpa [State.goto, State.withStore] using htrue

/-- The threads go on until nobody has the latch. -/
theorem tree_linearizable_overlap : ∃ (x : TreeState Nat Nat Bool) (l' : _) (y : _),
    Path MapStep (AtomicState.new fun _ => none) l' y ∧ trace Event.see l' = overlap ∧ x.Free ∧
    IsTree 2 4 x.store y.store := by
  obtain ⟨l, x, p, hp, htr, -⟩ := searches_overlap
  obtain ⟨l1, x1, hp1, htr1, hout⟩ := never_stuck (linearizes (le_refl 2)) ⟨[], TreeInv.create 2 4⟩ hp
  obtain ⟨l', y, hp', htr', htree⟩ := tree_linearizable (le_refl 2) 4 (hp.append hp1)
  have hfree : x1.Free := by
    intro t c p ht
    rcases hout t with hidle | ⟨a, hret⟩
    · rw [hidle] at ht
      cases ht
    · rw [hret] at ht
      cases ht
  refine ⟨x1, l', y, hp', ?_, hfree, htree hfree⟩
  rw [htr', trace_append, htr, htr1, List.append_nil]

/-- Whoever searches and whoever waits for the latch come to an end. -/
theorem calls_finish_overlap : ∃ l x p, Path TreeStep (State.new (BPlusTree.create 2 4) : TreeState Nat Nat Bool) l x ∧
    x.phase false = .waiting (.remove 2) ∧ x.phase true = .running (.getValue 2) p ∧
    ∃ l' x', Path TreeStep x l' x' ∧ trace Event.see l' = [] ∧
      ∀ t, x'.phase t = .idle ∨ ∃ a, x'.phase t = .returning a := by
  obtain ⟨l, x, p, hp, -, hwaits, hsearches⟩ := searches_overlap
  exact ⟨l, x, p, hp, hwaits, hsearches, calls_finish (le_refl 2) 4 hp⟩

end MisakiDB.TreeThreads
