import Mathlib.Data.List.DropRight
import Mathlib.Logic.Function.Basic
/-!
# Arrays in a fixed space

`size` entries lie at the front of a space of `capacity` entries, and every access says
which entry it touches: outside the space it fails. What lies behind the last entry stays
there. `entries` is the list that the array stands for, and every loop has a rule that
says what it does to the list.
-/

namespace MisakiDB

structure BoundedArray (E : Type) where
  size : Nat
  array : Nat → E

namespace BoundedArray
variable {E : Type}

def entries (a : BoundedArray E) : List E := (List.range a.size).map a.array

def setSize (a : BoundedArray E) (size : Nat) : BoundedArray E := { a with size }

section Access
variable (capacity : Nat)

def read (a : BoundedArray E) (i : Nat) : Option E := if i < capacity then some (a.array i) else none

def write (a : BoundedArray E) (i : Nat) (e : E) : Option (BoundedArray E) :=
  if i < capacity then some { a with array := Function.update a.array i e } else none

/-- A read under the assertion that there is such an entry. -/
def item (a : BoundedArray E) (i : Nat) : Option E := if i < a.size then a.read capacity i else none

/-- `array[i] = array[i - 1]`, from `i` down to 1. -/
def shiftUp : Nat → BoundedArray E → Option (BoundedArray E)
  | 0, a => some a
  | i + 1, a => do
    let e ← a.read capacity i
    shiftUp i (← a.write capacity (i + 1) e)

/-- `array[i] = array[i - 1]`, from `i` down as long as the entry `i - 1` meets `p`. Ends
with the index where it stopped. -/
def shiftWhile (p : E → Bool) : Nat → BoundedArray E → Option (BoundedArray E × Nat)
  | 0, a => some (a, 0)
  | i + 1, a => do
    if p (← a.item capacity i) then
      let e ← a.read capacity i
      shiftWhile p i (← a.write capacity (i + 1) e)
    else some (a, i + 1)

/-- `array[i] = array[i + 1]`, `n` times from `i` up. -/
def shiftDown : Nat → Nat → BoundedArray E → Option (BoundedArray E)
  | 0, _, a => some a
  | n + 1, i, a => do
    let e ← a.read capacity (i + 1)
    shiftDown n (i + 1) (← a.write capacity i e)

/-- The first of `n` entries from `i` up that meets `p`, or the index behind them. -/
def scan (p : E → Bool) (a : BoundedArray E) : Nat → Nat → Option Nat
  | 0, i => some i
  | n + 1, i => do if p (← a.item capacity i) then some i else scan p a n (i + 1)

/-- `n` entries from `i` up. -/
def readN (a : BoundedArray E) : Nat → Nat → Option (List E)
  | 0, _ => some []
  | n + 1, i => do
    let e ← a.read capacity i
    let es ← readN a n (i + 1)
    some (e :: es)

def writeN : List E → Nat → BoundedArray E → Option (BoundedArray E)
  | [], _, a => some a
  | e :: es, i, a => do writeN es (i + 1) (← a.write capacity i e)

end Access

/-! ## The list -/

variable {a a' : BoundedArray E} {capacity i k n : Nat} {p : E → Bool}

@[simp] theorem entries_length (a : BoundedArray E) : a.entries.length = a.size := by simp [entries]

theorem entries_getElem? (a : BoundedArray E) (i : Nat) :
    a.entries[i]? = if i < a.size then some (a.array i) else none := by
  unfold entries
  rw [List.getElem?_map]
  by_cases hi : i < a.size
  · simp [hi]
  · simp [hi]

theorem entries_of_lt (hi : i < a.size) : a.entries[i]? = some (a.array i) := by rw [entries_getElem?, if_pos hi]

theorem entries_eq {l : List E} (hlen : l.length = a.size) (h : ∀ i, i < a.size → l[i]? = some (a.array i)) :
    a.entries = l := by
  apply List.ext_getElem?
  intro i
  by_cases hi : i < a.size
  · rw [entries_of_lt hi, h i hi]
  · rw [List.getElem?_eq_none (by rw [entries_length]; omega), List.getElem?_eq_none (by omega)]

theorem entries_congr (hs : a'.size = a.size) (h : ∀ i, i < a.size → a'.array i = a.array i) :
    a'.entries = a.entries := by
  refine entries_eq (by rw [entries_length, hs]) fun i hi => ?_
  rw [hs] at hi
  rw [entries_of_lt hi, h i hi]

theorem entries_setSize (h : n ≤ a.size) : (a.setSize n).entries = a.entries.take n := by
  refine entries_eq (by rw [List.length_take, entries_length]; exact Nat.min_eq_left h) fun i hi => ?_
  have hi' : i < n := hi
  rw [List.getElem?_take_of_lt hi', entries_of_lt (hi'.trans_le h)]
  rfl

theorem take_succ_entries (hi : i < a.size) : a.entries.take (i + 1) = a.entries.take i ++ [a.array i] := by
  rw [List.take_add_one, entries_of_lt hi]
  rfl

theorem drop_entries (hi : i < a.size) : a.entries.drop i = a.array i :: a.entries.drop (i + 1) := by
  have hlen : i < a.entries.length := by rwa [entries_length]
  have hget : a.entries[i] = a.array i := by
    have := entries_of_lt hi
    rwa [List.getElem?_eq_getElem hlen, Option.some.injEq] at this
  rw [List.drop_eq_getElem_cons hlen, hget]

theorem take_entries_congr {f : Nat → E} (h : ∀ j, j < i → f j = a.array j) :
    ({ a with array := f } : BoundedArray E).entries.take i = a.entries.take i := by
  apply List.ext_getElem?
  intro j
  by_cases hj : j < i
  · simp only [List.getElem?_take_of_lt hj, entries_getElem?, h j hj]
  · rw [List.getElem?_take_eq_none (by omega), List.getElem?_take_eq_none (by omega)]

theorem take_write_entries (hi : i < a.size) (e : E) :
    ({ a with array := Function.update a.array i e } : BoundedArray E).entries.take (i + 1) =
    a.entries.take i ++ [e] := by
  rw [take_succ_entries (a := { a with array := Function.update a.array i e }) hi]
  rw [take_entries_congr fun j hj => Function.update_of_ne (show j ≠ i by omega) _ _]
  simp

theorem take_setSize_entries (h : a.size ≤ n) : (a.setSize n).entries.take a.size = a.entries :=
  (entries_setSize (a := a.setSize n) h).symm

/-! ## The accesses -/

theorem read_eq (hi : i < capacity) : a.read capacity i = some (a.array i) := if_pos hi

theorem write_eq (hi : i < capacity) (e : E) :
    a.write capacity i e = some { a with array := Function.update a.array i e } := if_pos hi

theorem item_eq (hi : i < a.size) (h : a.size ≤ capacity) : a.item capacity i = a.entries[i]? := by
  rw [item, if_pos hi, read_eq (hi.trans_le h), entries_of_lt hi]

theorem item_none (hi : ¬ i < a.size) : a.item capacity i = none := if_neg hi

/-- The assertion and the list agree on which entries there are. -/
theorem item_entries (h : a.size ≤ capacity) (i : Nat) : a.item capacity i = a.entries[i]? := by
  by_cases hi : i < a.size
  · exact item_eq hi h
  · rw [item_none hi, entries_getElem?, if_neg hi]

theorem modify_entries (f : E → E) :
    ({ a with array := Function.update a.array i (f (a.array i)) } : BoundedArray E).entries =
    a.entries.modify i f := by
  refine entries_eq (by simp) fun j hj => ?_
  have hj' : j < a.size := hj
  rw [List.getElem?_modify, entries_of_lt hj']
  by_cases hij : i = j
  · subst hij
    simp
  · simp [hij, Function.update_of_ne (Ne.symm hij)]

theorem append_entries (e : E) :
    ({ size := a.size + 1, array := Function.update a.array a.size e } : BoundedArray E).entries =
    a.entries ++ [e] := by
  refine entries_eq (by simp) fun j hj => ?_
  have hj' : j < a.size + 1 := hj
  by_cases hja : j = a.size
  · subst hja
    simp
  · have hlt : j < a.size := by omega
    rw [List.getElem?_append_left (by rwa [entries_length]), entries_of_lt hlt]
    simp only [Function.update_of_ne hja]

/-! ## The loops -/

theorem eq_array {f : Nat → E} (h : ∀ j, f j = a.array j) : a = { a with array := f } := by
  obtain rfl : f = a.array := funext h
  rfl

theorem scan_eq (h : a.size ≤ capacity) (hn : i + n = a.size) :
    scan capacity p a n i = some (i + (a.entries.drop i).findIdx p) := by
  induction n generalizing i with
  | zero =>
    rw [List.drop_eq_nil_of_le (by rw [entries_length]; omega)]
    rfl
  | succ n ih =>
    have hi : i < a.size := by omega
    rw [scan, item_eq hi h, entries_of_lt hi, drop_entries hi, List.findIdx_cons]
    simp only [Option.bind_eq_bind, Option.bind_some]
    cases hp : p (a.array i)
    · rw [if_neg Bool.false_ne_true, ih (by omega), cond_false]
      congr 1
      omega
    · rw [if_pos rfl, cond_true, Nat.add_zero]

theorem readN_eq (h : a.size ≤ capacity) (hn : i + n ≤ a.size) :
    a.readN capacity n i = some ((a.entries.drop i).take n) := by
  induction n generalizing i with
  | zero => simp [readN]
  | succ n ih =>
    have hi : i < a.size := by omega
    rw [readN, read_eq (hi.trans_le h), ih (by omega), drop_entries hi, List.take_succ_cons]
    rfl

theorem shiftDown_eq (h : i + n < capacity) : shiftDown capacity n i a =
    some { a with array := fun j => if i ≤ j ∧ j < i + n then a.array (j + 1) else a.array j } := by
  induction n generalizing i a with
  | zero =>
    refine congrArg some (eq_array fun j => ?_)
    rw [if_neg (by omega)]
  | succ n ih =>
    rw [shiftDown, read_eq (by omega)]
    simp only [Option.bind_eq_bind, Option.bind_some]
    rw [write_eq (by omega)]
    simp only [Option.bind_some]
    rw [ih (by omega)]
    congr 2
    funext j
    simp only [Function.update_apply]
    split_ifs <;> first | omega | rfl | (congr 1; omega)

theorem shiftUp_eq (h : n < capacity) : shiftUp capacity n a =
    some { a with array := fun j => if 1 ≤ j ∧ j ≤ n then a.array (j - 1) else a.array j } := by
  induction n generalizing a with
  | zero =>
    refine congrArg some (eq_array fun j => ?_)
    rw [if_neg (by omega)]
  | succ n ih =>
    rw [shiftUp, read_eq (by omega)]
    simp only [Option.bind_eq_bind, Option.bind_some]
    rw [write_eq h]
    simp only [Option.bind_some]
    rw [ih (by omega)]
    congr 2
    funext j
    simp only [Function.update_apply]
    split_ifs <;> first | omega | rfl | (congr 1; omega)

/-- The entries behind `k` have moved up, where the first `k` are those that the list
keeps when it drops from the back. -/
theorem shiftWhile_eq (hs : i ≤ a.size) (h : i < capacity) (hcap : a.size ≤ capacity)
    (hk : k = ((a.entries.take i).rdropWhile p).length) : shiftWhile capacity p i a =
      some ({ a with array := fun j => if k < j ∧ j ≤ i then a.array (j - 1) else a.array j }, k) := by
  induction i generalizing a with
  | zero =>
    obtain rfl : k = 0 := by simpa using hk
    refine congrArg (fun a => some (a, 0)) (eq_array fun j => ?_)
    rw [if_neg (by omega)]
  | succ i ih =>
    have hi : i < a.size := by omega
    rw [take_succ_entries hi] at hk
    rw [shiftWhile, item_eq hi hcap, entries_of_lt hi]
    simp only [Option.bind_eq_bind, Option.bind_some]
    cases hp : p (a.array i)
    · rw [List.rdropWhile_concat_neg _ _ _ (by simp [hp]), List.length_append, List.length_take, entries_length,
        List.length_singleton, Nat.min_eq_left hi.le] at hk
      subst hk
      rw [if_neg Bool.false_ne_true]
      refine congrArg (fun a => some (a, i + 1)) (eq_array fun j => ?_)
      rw [if_neg (by omega)]
    · rw [List.rdropWhile_concat_pos _ _ _ hp] at hk
      have hki : k ≤ i := by
        rw [hk]
        apply (List.rdropWhile_prefix p _).length_le.trans
        rw [List.length_take]
        exact Nat.min_le_left _ _
      rw [if_pos rfl, read_eq (by omega)]
      simp only [Option.bind_some]
      rw [write_eq h]
      simp only [Option.bind_some]
      refine (ih (a := { a with array := Function.update a.array (i + 1) (a.array i) }) (Nat.le_of_succ_le hs) (by omega)
        hcap ?_).trans ?_
      · -- the write is behind the first `i` entries
        rw [hk, take_entries_congr fun j hj => Function.update_of_ne (show j ≠ i + 1 by omega) _ _]
      · congr 3
        funext j
        simp only [Function.update_apply]
        split_ifs <;> first | omega | rfl | (congr 1; omega)

theorem writeN_eq {es : List E} (h : i + es.length ≤ capacity) : writeN capacity es i a =
    some { a with array := fun j => if i ≤ j ∧ j < i + es.length then es[j - i]?.getD (a.array j) else a.array j } := by
  induction es generalizing i a with
  | nil =>
    refine congrArg some (eq_array fun j => ?_)
    rw [List.length_nil, if_neg (by omega)]
  | cons e es ih =>
    rw [List.length_cons] at h
    rw [writeN, write_eq (by omega)]
    simp only [Option.bind_eq_bind, Option.bind_some]
    rw [ih (by omega)]
    congr 2
    funext j
    simp only [Function.update_apply, List.length_cons]
    by_cases hij : j = i
    · subst hij
      rw [if_neg (by omega), if_pos rfl, if_pos (by omega), Nat.sub_self]
      rfl
    · by_cases hj : i + 1 ≤ j ∧ j < i + 1 + es.length
      · rw [if_pos hj, if_neg hij, if_pos (by omega), show j - i = (j - (i + 1)) + 1 by omega, List.getElem?_cons_succ]
      · rw [if_neg hj, if_neg hij, if_neg (by omega)]

/-! ## What they do to the list -/

/-- A search of all entries finds the first that meets `p`, if there is one. -/
theorem scan_entries (p : E → Bool) (h : a.size ≤ capacity) :
    (scan capacity p a a.size 0 = some a.size ∧ a.entries.findIdx? p = none ∧ a.entries.find? p = none) ∨
    ∃ i, i < a.size ∧ scan capacity p a a.size 0 = some i ∧ a.entries.findIdx? p = some i ∧
      a.entries.find? p = some (a.array i) := by
  rw [scan_eq h (Nat.zero_add _), List.drop_zero, Nat.zero_add]
  rcases hf : a.entries.findIdx? p with _ | i
  · left
    refine ⟨?_, rfl, List.find?_eq_none.2 fun e he => ?_⟩
    · rw [List.findIdx?_eq_none_iff_findIdx_eq.1 hf, entries_length]
    · rw [List.findIdx?_eq_none_iff.1 hf e he]
      exact Bool.false_ne_true
  · right
    obtain ⟨hi, hpi, hbefore⟩ := List.findIdx?_eq_some_iff_getElem.1 hf
    obtain ⟨-, hidx⟩ := List.findIdx?_eq_some_iff_findIdx_eq.1 hf
    have hsize : i < a.size := by rwa [entries_length] at hi
    have hget : a.entries[i] = a.array i := by
      have := entries_of_lt hsize
      rwa [List.getElem?_eq_getElem hi, Option.some.injEq] at this
    refine ⟨i, hsize, by rw [hidx], rfl, List.find?_eq_some_iff_getElem.2 ⟨?_, i, hi, hget, fun j hj => ?_⟩⟩
    · rwa [← hget]
    · simpa using hbefore j hj

/-- An entry is erased: the later ones move down, and at least those there are. -/
theorem erase_entries (hi : i < a.size) (hn : a.size ≤ i + n + 1) (h : i + n < capacity) :
    ∃ a', shiftDown capacity n i a = some a' ∧ a'.size = a.size ∧
    (a'.setSize (a.size - 1)).entries = a.entries.eraseIdx i := by
  refine ⟨_, shiftDown_eq h, rfl, entries_eq ?_ fun j hj => ?_⟩
  · rw [List.length_eraseIdx_of_lt (by rwa [entries_length]), entries_length]
    rfl
  · have hj' : j < a.size - 1 := hj
    rw [List.getElem?_eraseIdx]
    by_cases hji : j < i
    · rw [if_pos hji, entries_of_lt (by omega)]
      simp [setSize, show ¬ i ≤ j by omega]
    · rw [if_neg hji, entries_of_lt (by omega)]
      simp [setSize, show i ≤ j by omega, show j < i + n by omega]

/-- The first `m` entries move up, and maybe some behind them. -/
theorem prepend_entries (h : n < capacity) (e : E) :
    ∃ a' a'', shiftUp capacity n a = some a' ∧ a'.write capacity 0 e = some a'' ∧ a''.size = a.size ∧
      ∀ m, m ≤ n → (a''.setSize (m + 1)).entries = e :: (a.setSize m).entries := by
  refine ⟨_, _, shiftUp_eq h, write_eq (by omega) e, rfl, fun m hm => entries_eq (by simp [setSize]) fun j hj => ?_⟩
  have hj' : j < m + 1 := hj
  cases j with
  | zero => simp [setSize]
  | succ j =>
    rw [List.getElem?_cons_succ, entries_of_lt (show j < m by omega)]
    simp [setSize, show j + 1 ≤ n by omega]

/-- An entry is put behind the last one that does not meet `p`. -/
theorem insert_entries (h : a.size < capacity) (e : E) :
    ∃ a' a'', shiftWhile capacity p a.size a = some (a', (a.entries.rdropWhile p).length) ∧
      a'.write capacity (a.entries.rdropWhile p).length e = some a'' ∧ a''.size = a.size ∧
      (a''.setSize (a.size + 1)).entries = a.entries.rdropWhile p ++ e :: a.entries.rtakeWhile p := by
  have htake : a.entries.take a.size = a.entries := List.take_of_length_le (by rw [entries_length])
  have hk : (a.entries.rdropWhile p).length = ((a.entries.take a.size).rdropWhile p).length := by rw [htake]
  have hsplit := List.rdropWhile_append_rtakeWhile (p := p) (l := a.entries)
  have hlen := congrArg List.length hsplit
  rw [List.length_append, entries_length] at hlen
  refine ⟨_, _, shiftWhile_eq le_rfl h h.le hk, write_eq (by omega) e, rfl, entries_eq ?_ fun j hj => ?_⟩
  · rw [List.length_append, List.length_cons]
    show _ = a.size + 1
    omega
  · have hj' : j < a.size + 1 := hj
    have hget : ∀ i, i < a.size → (a.entries.rdropWhile p ++ a.entries.rtakeWhile p)[i]? = some (a.array i) :=
      fun i hi => by
      rw [hsplit, entries_of_lt hi]
    rcases Nat.lt_trichotomy j (a.entries.rdropWhile p).length with hjk | hjk | hjk
    · have := hget j (by omega)
      rw [List.getElem?_append_left hjk] at this ⊢
      rw [this]
      simp [setSize, show j ≠ (a.entries.rdropWhile p).length by omega,
        show ¬ (a.entries.rdropWhile p).length < j by omega]
    · subst hjk
      simp [setSize]
    · have := hget (j - 1) (by omega)
      rw [List.getElem?_append_right (by omega)] at this ⊢
      rw [show j - (a.entries.rdropWhile p).length = (j - 1 - (a.entries.rdropWhile p).length) + 1 by omega,
        List.getElem?_cons_succ, this]
      simp [setSize, show j ≠ (a.entries.rdropWhile p).length by omega, hjk, show j ≤ a.size by omega]

theorem appendN_entries {es : List E} (h : a.size + es.length ≤ capacity) :
    ∃ a', writeN capacity es a.size a = some a' ∧ a'.size = a.size ∧
      (a'.setSize (a.size + es.length)).entries = a.entries ++ es := by
  refine ⟨_, writeN_eq h, rfl, entries_eq (by simp [setSize]) fun j hj => ?_⟩
  have hj' : j < a.size + es.length := hj
  by_cases hja : j < a.size
  · rw [List.getElem?_append_left (by rwa [entries_length]), entries_of_lt hja]
    simp [setSize, show ¬ a.size ≤ j by omega]
  · rw [List.getElem?_append_right (by rw [entries_length]; omega), entries_length,
      List.getElem?_eq_getElem (show j - a.size < es.length by omega)]
    simp [setSize, show a.size ≤ j by omega, hj', List.getElem?_eq_getElem (show j - a.size < es.length by omega)]

end BoundedArray

end MisakiDB
