import Mathlib.Data.List.GetD
import Mathlib.Algebra.Order.Group.Nat
import Mathlib.Tactic.Ring
/-!
# Bytes

`leBytes w n` is `n` in `w` bytes, least first, and `leNat` reads such bytes back.

A block of `n` bytes is a function on `Fin n`. `read` and `write` take any offset:
bytes outside the block read as zero and are not written. What a write leaves is
said by four rules: the bytes written (`read_write_self`), other bytes
(`read_write_disjoint`), and the same for numbers (`int16At_write_self`,
`int16At_write_disjoint`).
-/

namespace MisakiDB

/-! ## Little-endian numbers -/

def leBytes : Nat → Nat → List (BitVec 8)
  | 0, _ => []
  | w + 1, n => BitVec.ofNat 8 n :: leBytes w (n / 256)

def leNat : List (BitVec 8) → Nat
  | [] => 0
  | b :: bs => b.toNat + 256 * leNat bs

@[simp] theorem leBytes_length (w n : Nat) : (leBytes w n).length = w := by
  induction w generalizing n with
  | zero => rfl
  | succ w ih => simp [leBytes, ih]

theorem leNat_leBytes (w n : Nat) : leNat (leBytes w n) = n % 256 ^ w := by
  induction w generalizing n with
  | zero => simp [leBytes, leNat, Nat.mod_one]
  | succ w ih =>
    rw [leBytes, leNat, ih, BitVec.toNat_ofNat, Nat.pow_succ 256, Nat.mul_comm (256 ^ w) 256, Nat.mod_mul]

theorem leNat_replicate_zero (n : Nat) : leNat (List.replicate n 0) = 0 := by
  induction n with
  | zero => rfl
  | succ n ih =>
    rw [List.replicate_succ, leNat, ih]
    rfl

/-- Zero bytes at the end do not count. -/
theorem leNat_append_zeros (bs : List (BitVec 8)) (n : Nat) : leNat (bs ++ List.replicate n 0) = leNat bs := by
  induction bs with
  | nil => exact leNat_replicate_zero n
  | cons b bs ih => rw [List.cons_append, leNat, ih, leNat]

/-! ## Blocks of bytes -/

section Block
variable {n : Nat}

def byteAt (m : Fin n → BitVec 8) (i : Nat) : BitVec 8 := if h : i < n then m ⟨i, h⟩ else 0

def read (m : Fin n → BitVec 8) (o len : Nat) : List (BitVec 8) := (List.range len).map fun i => byteAt m (o + i)

def write (m : Fin n → BitVec 8) (o : Nat) (bs : List (BitVec 8)) : Fin n → BitVec 8 :=
  fun i => if o ≤ i then bs.getD (i - o) (m i) else m i

variable {m : Fin n → BitVec 8} {o u len : Nat} {bs cs : List (BitVec 8)}

@[simp] theorem read_length : (read m o len).length = len := by
  simp [read]

theorem byteAt_write_disjoint {i : Nat} (h : i < o ∨ o + bs.length ≤ i) : byteAt (write m o bs) i = byteAt m i := by
  unfold byteAt write
  split
  · rename_i hi
    rcases h with h | h
    · rw [if_neg (by simp only []; omega)]
    · split
      · rw [List.getD_eq_default _ _ (by simp only []; omega)]
      · rfl
  · rfl

theorem byteAt_write_self {i : Nat} (h : i < bs.length) (hn : o + bs.length ≤ n) :
    byteAt (write m o bs) (o + i) = bs[i] := by
  unfold byteAt write
  rw [dif_pos (by omega), if_pos (by simp), List.getD_eq_getElem _ _ (by simpa using h)]
  simp

theorem read_write_self (hn : o + bs.length ≤ n) : read (write m o bs) o bs.length = bs := by
  apply List.ext_getElem
  · simp
  · intro i h _
    rw [read_length] at h
    simp only [read, List.getElem_map, List.getElem_range, byteAt_write_self h hn]

theorem read_write_disjoint (h : o + len ≤ u ∨ u + bs.length ≤ o) : read (write m u bs) o len = read m o len := by
  unfold read
  apply List.map_congr_left
  intro i hi
  rw [List.mem_range] at hi
  exact byteAt_write_disjoint (by omega)

theorem read_append (a b : Nat) : read m o (a + b) = read m o a ++ read m (o + a) b := by
  unfold read
  rw [List.range_add, List.map_append, List.map_map]
  congr 2
  funext i
  rw [Function.comp_apply, Nat.add_assoc]

/-- Bytes copied within the block. -/
theorem read_write_read {k d s : Nat} (hn : d + s ≤ n) (hk : k + len ≤ s) :
    read (write m d (read m o s)) (d + k) len = read m (o + k) len := by
  apply List.ext_getElem
  · simp
  · intro i h _
    rw [read_length] at h
    have hi : k + i < (read m o s).length := by rw [read_length]; omega
    have hbyte : byteAt (write m d (read m o s)) (d + (k + i)) = (read m o s)[k + i] :=
      byteAt_write_self hi (by rwa [read_length])
    simp only [read, List.getElem_map, List.getElem_range] at hbyte ⊢
    rw [Nat.add_assoc, hbyte, Nat.add_assoc]

theorem read_zero : read m o 0 = [] := rfl

/-! ## Signed 16-bit numbers in a block -/

def int16At (m : Fin n → BitVec 8) (o : Nat) : Int := (BitVec.ofNat 16 (leNat (read m o 2))).toInt

/-- The bytes of an `int16_t`. -/
def int16 (v : Int) : List (BitVec 8) := leBytes 2 (BitVec.ofInt 16 v).toNat

@[simp] theorem int16_length (v : Int) : (int16 v).length = 2 := leBytes_length _ _

theorem int16At_of_read {v : Int} (h : read m o 2 = int16 v) (hlo : -32768 ≤ v) (hhi : v < 32768) :
    int16At m o = v := by
  have hlt : (BitVec.ofInt 16 v).toNat < 256 ^ 2 := (BitVec.ofInt 16 v).isLt
  rw [int16At, h, int16, leNat_leBytes, Nat.mod_eq_of_lt hlt, BitVec.ofNat_toNat, BitVec.setWidth_eq,
    BitVec.toInt_ofInt, Int.bmod_eq_of_le (by omega) (by omega)]

theorem int16At_write_self {v : Int} (hn : o + 2 ≤ n) (hlo : -32768 ≤ v) (hhi : v < 32768) :
    int16At (write m o (int16 v)) o = v := by
  refine int16At_of_read ?_ hlo hhi
  have hread : read (write m o (int16 v)) o (int16 v).length = int16 v :=
    read_write_self (by rwa [int16_length])
  rwa [int16_length] at hread

theorem int16At_write_disjoint (h : o + 2 ≤ u ∨ u + bs.length ≤ o) : int16At (write m u bs) o = int16At m o := by
  unfold int16At
  rw [read_write_disjoint h]

end Block

end MisakiDB
