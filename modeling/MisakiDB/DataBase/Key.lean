import MisakiDB.GenericKey
import Mathlib.Data.List.DropRight
/-!
# `DataBase::processKey`

A key is trimmed, and then cut or padded with zeroes to `RECORD_KEY_SIZE` bytes.
-/

namespace MisakiDB

/-- `std::isspace` in the "C" locale. -/
def isspace (ch : Byte) : Bool := ch = 0x20 ∨ 0x09 ≤ ch.toNat ∧ ch.toNat ≤ 0x0d

def ltrim (s : List Byte) : List Byte := s.dropWhile isspace

def rtrim (s : List Byte) : List Byte := s.rdropWhile isspace

def trim (s : List Byte) : List Byte := rtrim (ltrim s)

abbrev RecordKey := GenericKey RECORD_KEY_SIZE

namespace DataBase

/-- Cut, or padded. -/
def fitKey (key : List Byte) : List Byte :=
  if key.length > RECORD_KEY_SIZE then key.take RECORD_KEY_SIZE
  else key ++ List.replicate (RECORD_KEY_SIZE - key.length) 0

theorem fitKey_length (key : List Byte) : (fitKey key).length = RECORD_KEY_SIZE := by
  unfold fitKey
  split
  · rw [List.length_take]
    omega
  · rw [List.length_append, List.length_replicate]
    omega

def processKey (key : List Byte) : RecordKey := ⟨fitKey (trim key), fitKey_length _⟩

/-! ## Processing a key twice -/

inductive Method
  | get
  | remove
  | exist
  | set

/-- The key a method uses in the index. `set` calls `remove` on the string it has
processed, and `remove` processes it again. -/
def Method.usedKey (key : List Byte) : Method → RecordKey
  | set => processKey (processKey key).data
  | _ => processKey key

/-- The cut leaves no space at the end. -/
def CutClean (key : List Byte) : Prop :=
  (trim key).length ≤ RECORD_KEY_SIZE ∨ ((trim key)[RECORD_KEY_SIZE - 1]?.any isspace) = false

instance (key : List Byte) : Decidable (CutClean key) := inferInstanceAs (Decidable (_ ∨ _))

theorem ltrim_trim (key : List Byte) : ltrim (trim key) = trim key := by
  unfold trim ltrim rtrim
  generalize hl : key.dropWhile isspace = l
  rw [List.dropWhile_eq_self_iff]
  intro h0
  have hne : l ≠ [] := by
    rintro rfl
    exact absurd h0 (by simp)
  have hhead : ¬ isspace (l.head hne) := by
    subst hl
    simp [List.head_dropWhile_not isspace hne]
  rw [(List.rdropWhile_prefix isspace l).getElem h0, ← List.head_eq_getElem hne]
  exact hhead

theorem rtrim_trim (key : List Byte) : rtrim (trim key) = trim key := List.rdropWhile_idempotent _ _

/-- No space at the front. -/
theorem ltrim_eq_self_iff {key : List Byte} : ltrim key = key ↔ key.head?.any isspace = false := by
  cases key with
  | nil => simp [ltrim]
  | cons ch key =>
    cases hch : isspace ch
    · simp [ltrim, hch]
    · simp only [ltrim, List.dropWhile_cons, hch, if_true, List.head?_cons, Option.any_some, Bool.true_eq_false,
        iff_false]
      intro h
      have := congrArg List.length h
      have := (List.dropWhile_suffix isspace (l := key)).length_le
      simp only [List.length_cons] at *
      omega

/-- No space at the end. -/
theorem rtrim_eq_self_iff {key : List Byte} : rtrim key = key ↔ key.getLast?.any isspace = false := by
  unfold rtrim
  rw [List.rdropWhile_eq_self_iff]
  cases h : key.getLast? with
  | none => simp [List.getLast?_eq_none_iff.1 h]
  | some ch =>
    obtain ⟨l, rfl⟩ := List.getLast?_eq_some_iff.1 h
    simp

theorem head?_fitKey (key : List Byte) : (fitKey key).head?.any isspace = key.head?.any isspace := by
  cases key with
  | nil => decide
  | cons ch key =>
    unfold fitKey
    split
    · rfl
    · rfl

theorem fitKey_of_length {key : List Byte} (h : key.length = RECORD_KEY_SIZE) : fitKey key = key := by
  unfold fitKey
  rw [if_neg (by omega), h, Nat.sub_self, List.replicate_zero, List.append_nil]

/-- A key of full size that starts with no space survives if it ends with none. -/
theorem fitKey_trim_iff {key : List Byte} (hlen : key.length = RECORD_KEY_SIZE) (hl : ltrim key = key) :
    fitKey (trim key) = key ↔ key.getLast?.any isspace = false := by
  obtain ⟨l, ch, rfl⟩ : ∃ l ch, key = l ++ [ch] := by
    apply (List.eq_nil_or_concat' key).resolve_left
    rintro rfl
    exact absurd hlen (by decide)
  unfold trim
  rw [hl, rtrim, List.getLast?_append_of_ne_nil _ (List.cons_ne_nil ch []), List.getLast?_singleton, Option.any_some]
  cases hch : isspace ch
  · rw [List.rdropWhile_concat_neg _ _ _ (by simp [hch]), fitKey_of_length hlen]
    simp
  · rw [List.rdropWhile_concat_pos _ _ _ hch]
    simp only [Bool.true_eq_false, iff_false]
    -- what was cut off is filled with zeroes, and zero is no space
    intro heq
    have hle : (l.rdropWhile isspace).length ≤ l.length := (List.rdropWhile_prefix isspace l).length_le
    rw [List.length_append, List.length_singleton] at hlen
    have hlast := congrArg List.getLast? heq
    unfold fitKey at hlast
    rw [if_neg (by omega), show RECORD_KEY_SIZE - (l.rdropWhile isspace).length =
      (RECORD_KEY_SIZE - 1 - (l.rdropWhile isspace).length) + 1 by omega, List.replicate_succ', ← List.append_assoc,
      List.getLast?_concat, List.getLast?_concat, Option.some.injEq] at hlast
    rw [← hlast] at hch
    exact absurd hch (by decide)

/-- Processing a processed key changes nothing exactly when the cut left no space at its
end. -/
theorem processKey_processKey_iff (key : List Byte) :
    processKey (processKey key).data = processKey key ↔ CutClean key := by
  have hdata : processKey (processKey key).data = processKey key ↔
      fitKey (trim (fitKey (trim key))) = fitKey (trim key) := by
    unfold processKey
    rw [GenericKey.mk.injEq]
  rw [hdata]
  have hlt := ltrim_trim key
  have hrt := rtrim_trim key
  unfold CutClean
  generalize trim key = t at hlt hrt ⊢
  have hhead : ltrim (fitKey t) = fitKey t := by
    rw [ltrim_eq_self_iff, head?_fitKey, ← ltrim_eq_self_iff]
    exact hlt
  rw [fitKey_trim_iff (fitKey_length t) hhead]
  by_cases hlen : t.length ≤ RECORD_KEY_SIZE
  · simp only [hlen, true_or, iff_true]
    have hpad : fitKey t = t ++ List.replicate (RECORD_KEY_SIZE - t.length) 0 := if_neg (by omega)
    rw [hpad]
    cases RECORD_KEY_SIZE - t.length with
    | zero => rwa [List.replicate_zero, List.append_nil, ← rtrim_eq_self_iff]
    | succ n =>
      rw [List.replicate_succ', ← List.append_assoc, List.getLast?_concat]
      decide
  · have hcut : fitKey t = t.take RECORD_KEY_SIZE := if_pos (by omega)
    have hsize : (t.take RECORD_KEY_SIZE).length = RECORD_KEY_SIZE := by
      rw [List.length_take]
      omega
    have hlast : (t.take RECORD_KEY_SIZE).getLast? = t[RECORD_KEY_SIZE - 1]? := by
      rw [List.getLast?_eq_getElem?, hsize, List.getElem?_take_of_lt (by decide)]
    simp only [hlen, false_or]
    rw [hcut, hlast]

/-- Processing a key is stable, and the methods use one key for it, exactly when the cut
left no space at its end. -/
theorem processKey_stable_iff (key : List Byte) :
    (processKey (processKey key).data = processKey key ∧ ∀ a b : Method, a.usedKey key = b.usedKey key) ↔
    CutClean key := by
  have hused : processKey (processKey key).data = processKey key → ∀ a b : Method, a.usedKey key = b.usedKey key := by
    intro h a b
    cases a <;> cases b <;> simp [Method.usedKey, h]
  rw [and_iff_left_of_imp hused]
  exact processKey_processKey_iff key

theorem cut_leaves_space : ¬ ∀ key, processKey (processKey key).data = processKey key ∧
    ∀ a b : Method, a.usedKey key = b.usedKey key := by
  intro h
  exact absurd (h (List.replicate 23 97 ++ [32, 98])).1 (by decide)

end DataBase

end MisakiDB
