import MisakiDB.Globals
import Mathlib.Data.List.Lex
import Mathlib.Data.Int.Order.Basic
import Mathlib.Order.Lattice
/-!
# `GenericKey` and `GenericComparator`

A key is a row of `char`s, and `char` is signed where the code is built: a byte
of 128 or more comes before the zero byte. The comparator is the lexicographic
order that this gives.
-/

namespace MisakiDB

abbrev Byte := BitVec 8

structure GenericKey (KeySize : Nat) where
  data : List Byte
  size_eq : data.length = KeySize
  deriving DecidableEq

namespace GenericKey
variable {n : Nat}

/-- The bytes of the string, then zeroes. -/
def ofString (data : List Byte) : Option (GenericKey n) :=
  if h : data.length ≤ n then some ⟨data ++ List.replicate (n - data.length) 0, by simp; omega⟩ else none

instance : Inhabited (GenericKey n) := ⟨⟨List.replicate n 0, by simp⟩⟩

theorem ext_data {a b : GenericKey n} (h : a.data.map BitVec.toInt = b.data.map BitVec.toInt) : a = b := by
  obtain ⟨a, ha⟩ := a
  obtain ⟨b, hb⟩ := b
  obtain rfl : a = b := List.map_injective_iff.2 (fun _ _ => BitVec.eq_of_toInt_eq) h
  rfl

instance : LinearOrder (GenericKey n) :=
  LinearOrder.lift' (fun k => k.data.map BitVec.toInt) fun _ _ => ext_data

end GenericKey

/-- The first difference between two rows of chars. -/
def firstDifference : List Byte → List Byte → Int
  | a :: as, b :: bs => if a ≠ b then a.toInt - b.toInt else firstDifference as bs
  | _, _ => 0

def GenericComparator {n : Nat} (lhs rhs : GenericKey n) : Int := firstDifference lhs.data rhs.data

theorem firstDifference_neg {as bs : List Byte} (h : as.length = bs.length) :
    firstDifference as bs < 0 ↔ as.map BitVec.toInt < bs.map BitVec.toInt := by
  induction as generalizing bs with
  | nil =>
    obtain rfl := List.length_eq_zero_iff.1 h.symm
    simp [firstDifference]
  | cons a as ih =>
    obtain ⟨b, bs, rfl⟩ := List.exists_cons_of_length_eq_add_one h.symm
    rw [firstDifference, List.map_cons, List.map_cons, List.cons_lt_cons_iff]
    by_cases hab : a = b
    · subst hab
      simpa using ih (by simpa using h)
    · have hne : a.toInt ≠ b.toInt := fun he => hab (BitVec.eq_of_toInt_eq he)
      simp only [ne_eq, hab, not_false_eq_true, if_true, hne, false_and, or_false]
      omega

/-- The order of keys is what the comparator says. -/
theorem GenericComparator.neg_iff {n : Nat} (lhs rhs : GenericKey n) : GenericComparator lhs rhs < 0 ↔ lhs < rhs :=
  firstDifference_neg (lhs.size_eq.trans rhs.size_eq.symm)

theorem GenericComparator.eq_zero_iff {n : Nat} (lhs rhs : GenericKey n) :
    GenericComparator lhs rhs = 0 ↔ lhs = rhs := by
  have hswap : ∀ as bs, firstDifference as bs = -firstDifference bs as := by
    intro as
    induction as with
    | nil => intro bs; cases bs <;> rfl
    | cons a as ih =>
      rintro (_ | ⟨b, bs⟩)
      · rfl
      · rw [firstDifference, firstDifference, ih bs]
        by_cases hab : a = b
        · simp [hab]
        · rw [if_pos hab, if_pos (Ne.symm hab)]
          omega
  have h1 := GenericComparator.neg_iff lhs rhs
  have h2 := GenericComparator.neg_iff rhs lhs
  have h3 : GenericComparator lhs rhs = -GenericComparator rhs lhs := hswap ..
  constructor
  · intro h
    exact le_antisymm (not_lt.1 fun hlt => by rw [← h2] at hlt; omega) (not_lt.1 fun hlt => by rw [← h1] at hlt; omega)
  · rintro rfl
    omega

end MisakiDB
