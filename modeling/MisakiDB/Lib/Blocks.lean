import Mathlib.Order.WithBot
import Mathlib.Data.List.Pairwise
import Mathlib.Data.List.DropRight
import Mathlib.Data.List.Flatten
/-!
# An ordered sequence cut into blocks

A list of key-value entries with increasing keys, cut into blocks that each
carry a lower bound for their keys: the leaf level of a search tree, or the
fence keys of a sorted file. `Ordered` is the invariant; the lemmas say which
cuts, joins and replacements keep it and where a key has to be looked for.
-/

namespace MisakiDB.Blocks

variable {K V : Type} [LinearOrder K]

/-! ## Entries with increasing keys -/

/-- The keys increase. -/
def Sorted (es : List (K × V)) : Prop := es.Pairwise fun e f => e.1 < f.1

/-- The finite map a list of entries stands for. -/
def toMap (es : List (K × V)) (k : K) : Option V := (es.find? fun e => e.1 = k).map (·.2)

theorem toMap_eq_none {es : List (K × V)} {k : K} : toMap es k = none ↔ ∀ e ∈ es, e.1 ≠ k := by
  simp [toMap]

theorem toMap_append (es fs : List (K × V)) (k : K) : toMap (es ++ fs) k = (toMap es k).or (toMap fs k) := by
  simp only [toMap, List.find?_append]
  cases es.find? fun e => e.1 = k <;> simp

theorem toMap_cons (e : K × V) (es : List (K × V)) (k : K) :
    toMap (e :: es) k = if e.1 = k then some e.2 else toMap es k := by
  simp only [toMap, List.find?_cons]
  by_cases h : e.1 = k <;> simp [h]

/-- The entries from a key on are a tail of the list. -/
theorem Sorted.filter_le {es : List (K × V)} (h : Sorted es) (k : K) :
    es.filter (fun e => k ≤ e.1) = es.dropWhile fun e => e.1 < k := by
  induction es with
  | nil => rfl
  | cons e es ih =>
    obtain ⟨he, hes⟩ := List.pairwise_cons.1 h
    by_cases hlt : e.1 < k
    · rw [List.filter_cons_of_neg (by simpa using hlt), List.dropWhile_cons_of_pos (by simpa using hlt), ih hes]
    · rw [List.dropWhile_cons_of_neg (by simpa using hlt), List.filter_eq_self]
      intro f hf
      have hle := not_lt.1 hlt
      rcases List.mem_cons.1 hf with rfl | hf
      · simpa using hle
      · simpa using le_of_lt (lt_of_le_of_lt hle (he f hf))

/-- The list with an entry put where the keys stop being larger, from the back. -/
def insertSorted (es : List (K × V)) (k : K) (v : V) : List (K × V) :=
  es.rdropWhile (fun e => k < e.1) ++ (k, v) :: es.rtakeWhile (fun e => k < e.1)

section Insert
variable {es : List (K × V)} {k : K}

theorem insert_split (h : Sorted es) (hk : toMap es k = none) :
    ∃ X Y, es = X ++ Y ∧ (∀ v, insertSorted es k v = X ++ (k, v) :: Y) ∧ (∀ e ∈ X, e.1 < k) ∧ ∀ e ∈ Y, k < e.1 := by
  refine ⟨_, _, List.rdropWhile_append_rtakeWhile.symm, fun v => rfl, fun e he => ?_, fun e he => ?_⟩
  · have hne : es.rdropWhile (fun e => decide (k < e.1)) ≠ [] := List.ne_nil_of_mem he
    have hlast : (es.rdropWhile (fun e => decide (k < e.1))).getLast hne ∈ es :=
      (List.rdropWhile_prefix _ _).subset (List.getLast_mem hne)
    have hnot := List.rdropWhile_last_not (fun e => decide (k < e.1)) es hne
    have hle : e.1 ≤ ((es.rdropWhile (fun e => decide (k < e.1))).getLast hne).1 := by
      have hs : Sorted (es.rdropWhile (fun e => decide (k < e.1))) :=
        h.sublist (List.rdropWhile_prefix _ _).sublist
      rw [← List.dropLast_append_getLast hne] at hs he
      rcases List.mem_append.1 he with he | he
      · exact le_of_lt ((List.pairwise_append.1 hs).2.2 e he _ (List.mem_singleton_self _))
      · rw [List.mem_singleton.1 he]
    have hlt : ((es.rdropWhile (fun e => decide (k < e.1))).getLast hne).1 < k := by
      apply lt_of_le_of_ne (not_lt.1 (by simpa using hnot))
      exact (toMap_eq_none.1 hk) _ hlast
    exact lt_of_le_of_lt hle hlt
  · simpa using List.mem_rtakeWhile_imp he

theorem Sorted.insertSorted (h : Sorted es) (hk : toMap es k = none) (v : V) : Sorted (insertSorted es k v) := by
  obtain ⟨X, Y, rfl, hi, hX, hY⟩ := insert_split h hk
  rw [hi v]
  obtain ⟨hx, hy, hxy⟩ := List.pairwise_append.1 h
  refine List.pairwise_append.2 ⟨hx, List.pairwise_cons.2 ⟨hY, hy⟩, fun e he f hf => ?_⟩
  rcases List.mem_cons.1 hf with rfl | hf
  · exact hX e he
  · exact hxy e he f hf

theorem mem_insertSorted (h : Sorted es) (hk : toMap es k = none) {v : V} {e : K × V} :
    e ∈ Blocks.insertSorted es k v ↔ e = (k, v) ∨ e ∈ es := by
  obtain ⟨X, Y, rfl, hi, -, -⟩ := insert_split h hk
  rw [hi v]
  simp only [List.mem_append, List.mem_cons]
  tauto

theorem length_insertSorted (h : Sorted es) (hk : toMap es k = none) (v : V) :
    (Blocks.insertSorted es k v).length = es.length + 1 := by
  obtain ⟨X, Y, rfl, hi, -, -⟩ := insert_split h hk
  rw [hi v]
  simp
  omega

theorem toMap_insertSorted (h : Sorted es) (hk : toMap es k = none) (v : V) (k' : K) :
    toMap (Blocks.insertSorted es k v) k' = if k' = k then some v else toMap es k' := by
  obtain ⟨X, Y, rfl, hi, -, -⟩ := insert_split h hk
  rw [hi v, toMap_append, toMap_append, toMap_cons]
  by_cases hkk : k' = k
  · subst hkk
    rw [toMap_append, Option.or_eq_none_iff] at hk
    simp [hk.1]
  · simp [hkk, Ne.symm hkk]

end Insert

/-! ## Taking an entry out -/

section Erase
variable {es : List (K × V)} {k : K}

theorem erase_split {v : V} (hk : toMap es k = some v) :
    ∃ X Y, es = X ++ (k, v) :: Y ∧ es.eraseP (fun e => e.1 = k) = X ++ Y ∧ ∀ e ∈ X, e.1 ≠ k := by
  obtain ⟨e, he, rfl⟩ := Option.map_eq_some_iff.1 hk
  obtain ⟨X, Y, hes, hX⟩ := (List.find?_eq_some_iff_append.1 he).2
  have hek : e.1 = k := by simpa using (List.find?_eq_some_iff_append.1 he).1
  refine ⟨X, Y, by rw [hes, ← hek], ?_, fun f hf => by simpa using hX f hf⟩
  rw [hes, List.eraseP_append_right _ (fun f hf => by simpa using hX f hf),
    List.eraseP_cons_of_pos (by simpa using hek)]

theorem toMap_erase (h : Sorted es) (k k' : K) :
    toMap (es.eraseP fun e => e.1 = k) k' = if k' = k then none else toMap es k' := by
  rcases hk : toMap es k with _ | v
  · have hno := toMap_eq_none.1 hk
    rw [List.eraseP_of_forall_not (fun e he => by simpa using hno e he)]
    split
    · next hkk => rw [hkk, hk]
    · rfl
  · obtain ⟨X, Y, rfl, he, hX⟩ := erase_split hk
    rw [he]
    by_cases hkk : k' = k
    · subst hkk
      rw [if_pos rfl, toMap_append, Option.or_eq_none_iff]
      refine ⟨toMap_eq_none.2 hX, toMap_eq_none.2 fun e heY => ?_⟩
      exact ne_of_gt ((List.pairwise_cons.1 (List.pairwise_append.1 h).2.1).1 e heY)
    · rw [if_neg hkk, toMap_append, toMap_append, toMap_cons, if_neg (Ne.symm hkk)]

end Erase

/-! ## Blocks -/

abbrev Block (K V : Type) := WithBot K × List (K × V)

/-- The entries of all blocks. -/
def flat (bs : List (Block K V)) : List (K × V) := bs.flatMap (·.2)

/-- Bounds and keys increase from block to block, keys increase inside a block and
are not below its bound. -/
structure Ordered (bs : List (Block K V)) : Prop where
  apart : bs.Pairwise fun b c => b.1 < c.1 ∧ ∀ e ∈ b.2, (e.1 : WithBot K) < c.1
  sorted : ∀ b ∈ bs, Sorted b.2
  above : ∀ b ∈ bs, ∀ e ∈ b.2, b.1 ≤ (e.1 : WithBot K)

omit [LinearOrder K] in
@[simp] theorem flat_nil : flat ([] : List (Block K V)) = [] := rfl

omit [LinearOrder K] in
@[simp] theorem flat_cons (b : Block K V) (bs : List (Block K V)) : flat (b :: bs) = b.2 ++ flat bs := by
  simp [flat]

omit [LinearOrder K] in
@[simp] theorem flat_append (bs cs : List (Block K V)) : flat (bs ++ cs) = flat bs ++ flat cs := by
  simp [flat]

section Ordered
variable {A B : List (Block K V)} {lo lo' : WithBot K} {es fs : List (K × V)}

theorem Ordered.bounds {bs : List (Block K V)} (h : Ordered bs) : (bs.map (·.1)).Pairwise (· < ·) :=
  List.pairwise_map.2 (h.apart.imp And.left)

/-- All entries, in increasing order. -/
theorem Ordered.flat_sorted {bs : List (Block K V)} (h : Ordered bs) : Sorted (flat bs) := by
  refine List.pairwise_flatMap.2 ⟨h.sorted, ?_⟩
  refine h.apart.imp_of_mem fun {b c} _ hc hbc e he f hf => ?_
  exact WithBot.coe_lt_coe.1 (lt_of_lt_of_le (hbc.2 e he) (h.above c hc f hf))

/-- The entries of the blocks before a bound are below every key that is not. -/
theorem Ordered.before (h : Ordered (A ++ (lo, es) :: B)) {k : K} (hlo : lo ≤ k) : ∀ e ∈ flat A, e.1 < k := by
  intro e he
  obtain ⟨b, hb, he⟩ := List.mem_flatMap.1 he
  have := ((List.pairwise_append.1 h.apart).2.2 b hb (lo, es) (by simp)).2 e he
  exact WithBot.coe_lt_coe.1 (lt_of_lt_of_le this hlo)

theorem Ordered.after (h : Ordered (A ++ (lo, es) :: B)) {k : K} (hB : ∀ b ∈ B, (k : WithBot K) < b.1) :
    ∀ e ∈ flat B, k < e.1 := by
  intro e he
  obtain ⟨b, hb, he⟩ := List.mem_flatMap.1 he
  have := h.above b (by simp [hb]) e he
  exact WithBot.coe_lt_coe.1 (lt_of_lt_of_le (hB b hb) this)

/-- A key between two bounds can only be in the block between them. -/
theorem Ordered.toMap_flat (h : Ordered (A ++ (lo, es) :: B)) {k : K} (hlo : lo ≤ k)
    (hB : ∀ b ∈ B, (k : WithBot K) < b.1) : toMap (flat (A ++ (lo, es) :: B)) k = toMap es k := by
  have hA : toMap (flat A) k = none := toMap_eq_none.2 fun e he => ne_of_lt (h.before hlo e he)
  have hB' : toMap (flat B) k = none := toMap_eq_none.2 fun e he => ne_of_gt (h.after hB e he)
  rw [flat_append, flat_cons, toMap_append, toMap_append, hA, hB']
  simp

/-- The entries from a key on: part of its block, and all blocks after it. -/
theorem Ordered.filter_flat (h : Ordered (A ++ (lo, es) :: B)) {k : K} (hlo : lo ≤ k)
    (hB : ∀ b ∈ B, (k : WithBot K) < b.1) :
    (flat (A ++ (lo, es) :: B)).filter (fun e => k ≤ e.1) = es.dropWhile (fun e => e.1 < k) ++ flat B := by
  have hA : (flat A).filter (fun e => k ≤ e.1) = [] := by
    rw [List.filter_eq_nil_iff]
    intro e he
    simpa using h.before hlo e he
  have hB' : (flat B).filter (fun e => k ≤ e.1) = flat B := by
    rw [List.filter_eq_self]
    intro e he
    simpa using le_of_lt (h.after hB e he)
  rw [flat_append, flat_cons, List.filter_append, List.filter_append, hA, hB', (h.sorted (lo, es) (by simp)).filter_le]
  rfl

/-- Other entries between the same bounds. -/
theorem Ordered.replace (h : Ordered (A ++ (lo, es) :: B)) (hs : Sorted fs) (hlo : ∀ e ∈ fs, lo ≤ (e.1 : WithBot K))
    (hB : ∀ e ∈ fs, ∀ b ∈ B, (e.1 : WithBot K) < b.1) : Ordered (A ++ (lo, fs) :: B) := by
  obtain ⟨ha, hb, hab⟩ := List.pairwise_append.1 h.apart
  obtain ⟨hb1, hb2⟩ := List.pairwise_cons.1 hb
  have hmem : ∀ b ∈ A ++ (lo, fs) :: B, b = (lo, fs) ∨ b ∈ A ++ (lo, es) :: B := by
    intro b hb
    simp only [List.mem_append, List.mem_cons] at hb ⊢
    tauto
  refine ⟨List.pairwise_append.2 ⟨ha, List.pairwise_cons.2 ⟨fun b hb => ⟨(hb1 b hb).1, fun e he => hB e he b hb⟩, hb2⟩,
    ?_⟩,
    fun b hb => ?_, fun b hb => ?_⟩
  · intro b hbA c hc
    rcases List.mem_cons.1 hc with rfl | hc
    · exact hab b hbA (lo, es) (by simp)
    · exact hab b hbA c (by simp [hc])
  · rcases hmem b hb with rfl | hb
    · exact hs
    · exact h.sorted b hb
  · rcases hmem b hb with rfl | hb
    · exact hlo
    · exact h.above b hb

/-- Fewer entries between the same bounds. -/
theorem Ordered.shrink (h : Ordered (A ++ (lo, es) :: B)) (hs : fs.Sublist es) : Ordered (A ++ (lo, fs) :: B) := by
  refine h.replace ((h.sorted (lo, es) (by simp)).sublist hs)
    (fun e he => h.above (lo, es) (by simp) e (hs.subset he)) ?_
  intro e he b hb
  exact ((List.pairwise_cons.1 (List.pairwise_append.1 h.apart).2.1).1 b hb).2 e (hs.subset he)

/-- Two neighbouring blocks become one. -/
theorem Ordered.join (h : Ordered (A ++ (lo, es) :: (lo', fs) :: B)) : Ordered (A ++ (lo, es ++ fs) :: B) := by
  obtain ⟨ha, hb, hab⟩ := List.pairwise_append.1 h.apart
  obtain ⟨hb1, hb2⟩ := List.pairwise_cons.1 hb
  obtain ⟨hc1, hc2⟩ := List.pairwise_cons.1 hb2
  have hlt := hb1 (lo', fs) (by simp)
  have hdrop : Ordered (A ++ (lo, es) :: B) := by
    have hsub : (A ++ (lo, es) :: B).Sublist (A ++ (lo, es) :: (lo', fs) :: B) := by simp
    exact ⟨h.apart.sublist hsub, fun b hb => h.sorted b (hsub.subset hb), fun b hb => h.above b (hsub.subset hb)⟩
  refine hdrop.replace ?_ ?_ ?_
  · refine List.pairwise_append.2 ⟨h.sorted (lo, es) (by simp), h.sorted (lo', fs) (by simp), fun e he f hf => ?_⟩
    exact WithBot.coe_lt_coe.1 (lt_of_lt_of_le (hlt.2 e he) (h.above (lo', fs) (by simp) f hf))
  · intro e he
    rcases List.mem_append.1 he with he | he
    · exact h.above (lo, es) (by simp) e he
    · exact le_trans (le_of_lt hlt.1) (h.above (lo', fs) (by simp) e he)
  · intro e he b hb
    rcases List.mem_append.1 he with he | he
    · exact (hb1 b (by simp [hb])).2 e he
    · exact (hc1 b hb).2 e he

/-- A block is cut before one of its entries, which becomes the bound of the right part. -/
theorem Ordered.cut {e : K × V} (h : Ordered (A ++ (lo, es ++ e :: fs) :: B)) (hne : es ≠ []) :
    Ordered (A ++ (lo, es) :: ((e.1 : WithBot K), e :: fs) :: B) := by
  obtain ⟨ha, hb, hab⟩ := List.pairwise_append.1 h.apart
  obtain ⟨hb1, hb2⟩ := List.pairwise_cons.1 hb
  have hsort := h.sorted (lo, es ++ e :: fs) (by simp)
  obtain ⟨hs1, hs2, hs12⟩ := List.pairwise_append.1 hsort
  obtain ⟨x, hx⟩ := List.exists_mem_of_ne_nil es hne
  have hxlo : lo ≤ (x.1 : WithBot K) := h.above (lo, es ++ e :: fs) (by simp) x (by simp [hx])
  -- an entry stays in the first half, so the second begins above the bound
  have hlo : lo < (e.1 : WithBot K) := lt_of_le_of_lt hxlo (WithBot.coe_lt_coe.2 (hs12 x hx e (by simp)))
  refine ⟨List.pairwise_append.2 ⟨ha, List.pairwise_cons.2 ⟨?_, List.pairwise_cons.2 ⟨?_, hb2⟩⟩, ?_⟩, ?_, ?_⟩
  · intro b hb
    rcases List.mem_cons.1 hb with rfl | hb
    · exact ⟨hlo, fun y hy => WithBot.coe_lt_coe.2 (hs12 y hy e (by simp))⟩
    · exact ⟨(hb1 b hb).1, fun y hy => (hb1 b hb).2 y (by simp [hy])⟩
  · intro b hb
    exact ⟨(hb1 b hb).2 e (by simp), fun y hy => (hb1 b hb).2 y (List.mem_append_right _ hy)⟩
  · intro b hbA c hc
    have hbl := hab b hbA (lo, es ++ e :: fs) (by simp)
    simp only [List.mem_cons] at hc
    rcases hc with rfl | rfl | hc
    · exact hbl
    · exact ⟨lt_trans hbl.1 hlo, fun y hy => lt_trans (hbl.2 y hy) hlo⟩
    · exact hab b hbA c (by simp [hc])
  · intro b hb
    simp only [List.mem_append, List.mem_cons] at hb
    rcases hb with hb | rfl | rfl | hb
    · exact h.sorted b (by simp [hb])
    · exact hs1
    · exact hs2
    · exact h.sorted b (by simp [hb])
  · intro b hb y hy
    simp only [List.mem_append, List.mem_cons] at hb
    rcases hb with hb | rfl | rfl | hb
    · exact h.above b (by simp [hb]) y hy
    · exact h.above (lo, es ++ e :: fs) (by simp) y (by simp [hy])
    · rcases List.mem_cons.1 hy with rfl | hy
      · exact le_rfl
      · exact le_of_lt (WithBot.coe_lt_coe.2 ((List.pairwise_cons.1 hs2).1 y hy))
    · exact h.above b (by simp [hb]) y hy

end Ordered

end MisakiDB.Blocks
