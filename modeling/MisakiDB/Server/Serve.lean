import MisakiDB.DataBase.Key
import Mathlib.Algebra.Group.Nat.Defs
/-!
# `Server::serve`: what a message does

A message is cut at its first space into an operation and the rest, and `SET` cuts the
rest again. Both loops step past a character before they look at one, so neither sees
the first character it starts at, and without a space both end on the last one.

So a word with one character too many is taken for the word, and `SET` takes apart what
is no key and value (`performed_iff`). A position past the end goes to `substr`, which
throws, in messages of four characters that begin with `SET` and no others
(`slices_within_iff`).
-/

namespace MisakiDB.Server

/-! ## Strings -/

def SPACE : Byte := 0x20

/-- `toupper` in the "C" locale. -/
def toupper (ch : Byte) : Byte := if 0x61 ≤ ch.toNat ∧ ch.toNat ≤ 0x7a then ch - 0x20 else ch

/-- None is `out_of_range`. -/
def substr (s : List Byte) (pos : Nat) : Option (List Byte) := if pos ≤ s.length then some (s.drop pos) else none

def substrCount (s : List Byte) (pos count : Nat) : Option (List Byte) := (substr s pos).map (List.take count)

def OPEN : List Byte := [0x4f, 0x50, 0x45, 0x4e]
def GET : List Byte := [0x47, 0x45, 0x54]
def SET : List Byte := [0x53, 0x45, 0x54]
def DELETE : List Byte := [0x44, 0x45, 0x4c, 0x45, 0x54, 0x45]
def EXIST : List Byte := [0x45, 0x58, 0x49, 0x53, 0x54]

/-! ## The code -/

inductive Command
  | open (databaseName : List Byte)
  | get (key : List Byte)
  | set (key value : List Byte)
  | delete (key : List Byte)
  | exist (key : List Byte)
  deriving DecidableEq

inductive Reply
  | noDatabaseOpenedYet
  | unrecognizedCommand
  deriving DecidableEq

/-- What the branches of `serve` do: a database operation, or an error message. -/
inductive Action
  | perform (c : Command)
  | refuse (r : Reply)
  deriving DecidableEq

/-- `while (within and message.at(++index) != ' ');` A round moves the index up, so
the length of the message bounds the rounds. None is `out_of_range`. -/
def findSpace (within : Nat → Bool) (message : List Byte) : Nat → Nat → Option Nat
  | 0, index => some index
  | fuel + 1, index =>
    if within index then
      match message[index + 1]? with
      | none => none
      | some ch => if ch ≠ SPACE then findSpace within message fuel (index + 1) else some (index + 1)
    else some index

/-- `message.length() - 1`, unsigned. -/
def lastIndex (message : List Byte) : Nat := if message.length = 0 then 2 ^ 64 - 1 else message.length - 1

/-- The slices of `SET`, from where its arguments start. -/
def setArguments (message : List Byte) (index : Nat) : Option (List Byte × List Byte) := do
  let nextIndex ← findSpace (fun nextIndex => nextIndex < lastIndex message) message message.length index
  let key ← substrCount message index (nextIndex - index)
  let nextIndex := nextIndex + 1
  let value ← substr message nextIndex
  pure (key, value)

/-- From the message to the branch taken, and its slices. None when an exception leaves
`serve`. -/
def serveMessage (notOpen : Bool) (message : List Byte) : Option Action := do
  let index ← findSpace (fun index => index + 1 < message.length) message message.length 0
  let operation ← substrCount message 0 index
  let index := index + 1
  let operation := operation.map toupper
  if notOpen then
    if operation = OPEN then
      pure (.perform (.open (trim (← substr message index))))
    else
      pure (.refuse .noDatabaseOpenedYet)
  else if operation = OPEN then
    pure (.perform (.open (trim (← substr message index))))
  else if operation = GET then
    pure (.perform (.get (← substr message index)))
  else if operation = SET then
    let (key, value) ← setArguments message index
    pure (.perform (.set key value))
  else if operation = DELETE then
    pure (.perform (.delete (← substr message index)))
  else if operation = EXIST then
    pure (.perform (.exist (← substr message index)))
  else
    pure (.refuse .unrecognizedCommand)

/-! ## The loops -/

/-- Started before a space: the loop does not look at the character it starts at. -/
theorem findSpace_found {f : Nat → Bool} {p k r : List Byte} {a : Byte} {n : Nat} (hk : SPACE ∉ k)
    (hn : k.length < n)
    (hf : ∀ i, f i = true ↔ i + 1 < (p ++ a :: k ++ SPACE :: r).length) :
    findSpace f (p ++ a :: k ++ SPACE :: r) n p.length = some (p.length + 1 + k.length) := by
  induction k generalizing p a n with
  | nil =>
    obtain ⟨n, rfl⟩ := Nat.exists_eq_add_one_of_ne_zero (Nat.ne_of_gt hn)
    have hgo : f p.length = true := by
      rw [hf]
      simp
    simp [findSpace, hgo]
  | cons b k ih =>
    obtain ⟨n, rfl⟩ := Nat.exists_eq_add_one_of_ne_zero (Nat.ne_of_gt (Nat.lt_of_le_of_lt (Nat.zero_le _) hn))
    have hgo : f p.length = true := by
      rw [hf]
      simp
    have hb : b ≠ SPACE := fun h => hk (h ▸ List.mem_cons_self)
    have hstep := ih (p := p ++ [a]) (a := b) (n := n) (fun h => hk (List.mem_cons_of_mem _ h))
      (by simpa using hn) (by simpa using hf)
    simp only [List.append_assoc, List.cons_append, List.nil_append, List.length_append, List.length_singleton] at hstep
    simp [findSpace, hgo, hb, hstep]
    omega

theorem findSpace_none {f : Nat → Bool} {p k : List Byte} {a : Byte} {n : Nat} (hk : SPACE ∉ k)
    (hn : k.length < n) (hf : ∀ i, f i = true ↔ i + 1 < (p ++ a :: k).length) :
    findSpace f (p ++ a :: k) n p.length = some (p.length + k.length) := by
  induction k generalizing p a n with
  | nil =>
    obtain ⟨n, rfl⟩ := Nat.exists_eq_add_one_of_ne_zero (Nat.ne_of_gt hn)
    have hstop : ¬ f p.length = true := by
      rw [hf]
      simp
    simp [findSpace, hstop]
  | cons b k ih =>
    obtain ⟨n, rfl⟩ := Nat.exists_eq_add_one_of_ne_zero (Nat.ne_of_gt (Nat.lt_of_le_of_lt (Nat.zero_le _) hn))
    have hgo : f p.length = true := by
      rw [hf]
      simp
    have hb : b ≠ SPACE := fun h => hk (h ▸ List.mem_cons_self)
    have hstep := ih (p := p ++ [a]) (a := b) (n := n) (fun h => hk (List.mem_cons_of_mem _ h))
      (by simpa using hn) (by simpa using hf)
    simp only [List.append_assoc, List.cons_append, List.nil_append, List.length_append, List.length_singleton] at hstep
    simp [findSpace, hgo, hb, hstep]
    omega

theorem substr_append (p q : List Byte) : substr (p ++ q) p.length = some q := by
  unfold substr
  rw [if_pos (by simp), List.drop_left]

theorem lastIndex_lt {message : List Byte} (h : message ≠ []) (i : Nat) :
    i < lastIndex message ↔ i + 1 < message.length := by
  have := List.length_pos_of_ne_nil h
  unfold lastIndex
  split <;> omega

section SetArguments
variable {p k v : List Byte} {a : Byte}

theorem setArguments_found (hk : SPACE ∉ k) :
    setArguments (p ++ a :: k ++ SPACE :: v) p.length = some (a :: k, v) := by
  generalize hm : p ++ a :: k ++ SPACE :: v = m
  have hlen : m.length = p.length + 1 + k.length + 1 + v.length := by
    rw [← hm]
    simp
    omega
  have hfind : findSpace (fun i => i < lastIndex m) m m.length p.length = some (p.length + 1 + k.length) := by
    subst hm
    exact findSpace_found hk (by omega) fun i => by simp only [decide_eq_true_eq]; exact lastIndex_lt (by simp) i
  have hkey : substrCount m p.length (1 + k.length) = some (a :: k) := by
    subst hm
    rw [substrCount, List.append_assoc, substr_append, Option.map_some, List.cons_append, Nat.add_comm,
      List.take_succ_cons, List.take_left]
  have hvalue : substr m (p.length + 1 + k.length + 1) = some v := by
    have hsplit : m = (p ++ a :: k ++ [SPACE]) ++ v := by simp [← hm]
    rw [hsplit, show p.length + 1 + k.length + 1 = (p ++ a :: k ++ [SPACE]).length by simp; omega]
    exact substr_append _ _
  have hsub : p.length + 1 + k.length - p.length = 1 + k.length := by omega
  simp only [setArguments, hfind, Option.bind_eq_bind, Option.bind_some, hsub, hkey, hvalue]
  rfl

/-- Without a space the key loses its last character. -/
theorem setArguments_none (hk : SPACE ∉ k) : setArguments (p ++ a :: k) p.length = some ((a :: k).dropLast, []) := by
  generalize hm : p ++ a :: k = m
  have hlen : m.length = p.length + k.length + 1 := by
    rw [← hm]
    simp
    omega
  have hfind : findSpace (fun i => i < lastIndex m) m m.length p.length = some (p.length + k.length) := by
    subst hm
    exact findSpace_none hk (by omega) fun i => by simp only [decide_eq_true_eq]; exact lastIndex_lt (by simp) i
  have hkey : substrCount m p.length k.length = some (a :: k).dropLast := by
    subst hm
    rw [substrCount, substr_append, Option.map_some, List.dropLast_eq_take]
    rfl
  have hvalue : substr m (p.length + k.length + 1) = some [] := by
    rw [substr, if_pos (by omega), ← hlen, List.drop_length]
  simp only [setArguments, hfind, Option.bind_eq_bind, Option.bind_some, Nat.add_sub_cancel_left, hkey, hvalue]
  rfl

/-- Without arguments the value starts past the end. -/
theorem setArguments_escapes (hp : p ≠ []) : setArguments p p.length = none := by
  have hfind : findSpace (fun i => i < lastIndex p) p p.length p.length = some p.length := by
    obtain ⟨n, hn⟩ := Nat.exists_eq_add_one_of_ne_zero (Nat.ne_of_gt (List.length_pos_of_ne_nil hp))
    have hstop : ¬ p.length < lastIndex p := by
      rw [lastIndex_lt hp]
      omega
    rw [hn] at hstop ⊢
    simp [findSpace, hstop]
  have hkey : substrCount p p.length 0 = some [] := by simp [substrCount, substr]
  have hvalue : substr p (p.length + 1) = none := if_neg (by omega)
  simp only [setArguments, hfind, Option.bind_eq_bind, Option.bind_some, Nat.sub_self, hkey, hvalue]
  rfl

theorem setArguments_ne_none (rest : List Byte) (hr : rest ≠ []) : setArguments (p ++ rest) p.length ≠ none := by
  obtain ⟨b, k, rfl⟩ := List.exists_cons_of_ne_nil hr
  by_cases hk : SPACE ∈ k
  · obtain ⟨k', v, rfl, hk'⟩ := List.eq_append_cons_of_mem hk
    have := setArguments_found (p := p) (a := b) (v := v) hk'
    rw [List.append_assoc, List.cons_append] at this
    simp [this]
  · simp [setArguments_none hk]

end SetArguments

/-! ## The message is cut -/

/-- The branches, once the operation and the rest are known. -/
def branch (notOpen : Bool) (operation rest : List Byte) (arguments : Option (List Byte × List Byte)) : Option Action :=
  if notOpen then
    if operation = OPEN then some (.perform (.open (trim rest))) else some (.refuse .noDatabaseOpenedYet)
  else if operation = OPEN then some (.perform (.open (trim rest)))
  else if operation = GET then some (.perform (.get rest))
  else if operation = SET then arguments.map fun r => .perform (.set r.1 r.2)
  else if operation = DELETE then some (.perform (.delete rest))
  else if operation = EXIST then some (.perform (.exist rest))
  else some (.refuse .unrecognizedCommand)

theorem serveMessage_branch {message operation rest : List Byte} {index : Nat} (notOpen : Bool)
    (hfind : findSpace (fun index => index + 1 < message.length) message message.length 0 = some index)
    (hop : substrCount message 0 index = some operation) (hrest : substr message (index + 1) = some rest) :
    serveMessage notOpen message =
      branch notOpen (operation.map toupper) rest (setArguments message (index + 1)) := by
  unfold serveMessage branch
  simp only [hfind, hop, hrest, Option.bind_eq_bind, Option.bind_some, Option.pure_def, Option.map_eq_bind]
  rfl

/-- A message with a space after its first character is cut there. -/
theorem serveMessage_space {a : Byte} {w rest : List Byte} (hw : SPACE ∉ w) (notOpen : Bool) :
    serveMessage notOpen (a :: w ++ SPACE :: rest) =
      branch notOpen ((a :: w).map toupper) rest (setArguments (a :: w ++ SPACE :: rest) (w.length + 2)) := by
  generalize hm : a :: w ++ SPACE :: rest = m
  have hlen : m.length = w.length + 2 + rest.length := by
    rw [← hm]
    simp
    omega
  have hfind : findSpace (fun i => i + 1 < m.length) m m.length 0 = some (w.length + 1) := by
    subst hm
    have := findSpace_found (f := fun i => i + 1 < (a :: w ++ SPACE :: rest).length) (p := []) (a := a) (r := rest)
      (n := (a :: w ++ SPACE :: rest).length) hw (by omega) fun i => by simp
    simpa [Nat.add_comm] using this
  have hop : substrCount m 0 (w.length + 1) = some (a :: w) := by
    subst hm
    simp [substrCount, substr]
  have hrest : substr m (w.length + 2) = some rest := by
    have hsplit : m = (a :: w ++ [SPACE]) ++ rest := by simp [← hm]
    rw [hsplit, show w.length + 2 = (a :: w ++ [SPACE]).length by simp]
    exact substr_append _ _
  exact serveMessage_branch notOpen hfind hop hrest

/-- Without one its last character is cut off. -/
theorem serveMessage_no_space {a : Byte} {w : List Byte} (hw : SPACE ∉ w) (notOpen : Bool) :
    serveMessage notOpen (a :: w) =
      branch notOpen ((a :: w).dropLast.map toupper) [] (setArguments (a :: w) (w.length + 1)) := by
  have hfind : findSpace (fun i => i + 1 < (a :: w).length) (a :: w) (a :: w).length 0 = some w.length := by
    have := findSpace_none (f := fun i => i + 1 < (a :: w).length) (p := []) (a := a) (n := (a :: w).length) hw
      (by simp) fun i => by simp
    simpa using this
  have hop : substrCount (a :: w) 0 w.length = some (a :: w).dropLast := by
    rw [List.dropLast_eq_take]
    rfl
  have hrest : substr (a :: w) (w.length + 1) = some [] := by
    rw [substr, if_pos (by simp), List.drop_of_length_le (by simp)]
  exact serveMessage_branch notOpen hfind hop hrest

theorem serveMessage_nil (notOpen : Bool) : serveMessage notOpen [] = branch notOpen [] [] none := by
  cases notOpen <;> rfl

/-- Every message is empty, has a space after its first character, or has none. -/
theorem message_cases (message : List Byte) : message = [] ∨
    (∃ a w rest, SPACE ∉ w ∧ message = a :: w ++ SPACE :: rest) ∨ ∃ a w, SPACE ∉ w ∧ message = a :: w := by
  cases message with
  | nil => exact .inl rfl
  | cons a t =>
    by_cases ht : SPACE ∈ t
    · obtain ⟨w, rest, rfl, hw⟩ := List.eq_append_cons_of_mem ht
      exact .inr (.inl ⟨a, w, rest, hw, rfl⟩)
    · exact .inr (.inr ⟨a, t, ht, rfl⟩)

/-! ## Exceptions -/

theorem branch_none_iff {notOpen : Bool} {operation rest : List Byte} {arguments : Option (List Byte × List Byte)} :
    branch notOpen operation rest arguments = none ↔ notOpen = false ∧ operation = SET ∧ arguments = none := by
  unfold branch
  cases notOpen
  · by_cases hset : operation = SET
    · subst hset
      have h1 : SET ≠ OPEN := by decide
      have h2 : SET ≠ GET := by decide
      simp [h1, h2]
    · simp only [Bool.false_eq_true, if_false, hset, false_and, and_false, iff_false]
      repeat' split
      all_goals simp
  · simp only [if_true, Bool.true_eq_false, false_and, iff_false]
    split <;> simp

theorem space_notMem {w word : List Byte} (h : w.map toupper = word) (hword : SPACE ∉ word) : SPACE ∉ w := by
  intro hw
  apply hword
  rw [← h]
  exact List.mem_map_of_mem (f := toupper) hw

/-- An exception leaves `serve` exactly on messages of four characters that begin with
`SET`, while a database is open. -/
theorem escapes_iff (notOpen : Bool) (message : List Byte) : serveMessage notOpen message = none ↔
    notOpen = false ∧ message.length = 4 ∧ (message.take 3).map toupper = SET := by
  have hlength : ∀ {w : List Byte}, w.map toupper = SET → w.length = 3 := fun h => by
    rw [← List.length_map toupper, h]
    rfl
  rcases message_cases message with rfl | ⟨a, w, rest, hw, rfl⟩ | ⟨a, w, hw, rfl⟩
  · rw [serveMessage_nil, branch_none_iff]
    simp [SET]
  · rw [serveMessage_space hw, branch_none_iff]
    have hcut : a :: w ++ SPACE :: rest = (a :: w ++ [SPACE]) ++ rest := by simp
    have hindex : w.length + 2 = (a :: w ++ [SPACE]).length := by simp
    refine and_congr_right fun _ => ⟨fun ⟨hop, hargs⟩ => ?_, fun ⟨hlen, htake⟩ => ?_⟩
    · rw [hcut, hindex] at hargs
      obtain rfl : rest = [] := by
        by_contra hr
        exact setArguments_ne_none rest hr hargs
      have h3 := hlength hop
      rw [List.take_left' h3]
      exact ⟨by simpa using h3, hop⟩
    · -- the space is the fourth character, or it would be in the word
      match w with
      | [] => simp [SET, toupper, SPACE] at htake
      | [b] => simp [SET, toupper, SPACE] at htake
      | [b, c] =>
        obtain rfl : rest = [] := by simpa using hlen
        exact ⟨by simpa using htake, setArguments_escapes (p := [a, b, c, SPACE]) (by simp)⟩
      | b :: c :: d :: w =>
        simp at hlen
  · rw [serveMessage_no_space hw, branch_none_iff]
    have hargs : setArguments (a :: w) (w.length + 1) = none := setArguments_escapes (p := a :: w) (by simp)
    rw [List.dropLast_eq_take]
    refine and_congr_right fun _ => ⟨fun ⟨hop, _⟩ => ?_, fun ⟨hlen, htake⟩ => ?_⟩
    · have h3 : w.length = 3 := by simpa using hlength hop
      exact ⟨by simp [h3], by simpa [h3] using hop⟩
    · have h3 : w.length = 3 := by simpa using hlen
      exact ⟨by simpa [h3] using htake, hargs⟩

/-- All slices stay within the message, and no exception leaves `serve`, unless this is
such a message. -/
theorem slices_within_iff (notOpen : Bool) (message : List Byte) : serveMessage notOpen message ≠ none ↔
    notOpen = true ∨ message.length ≠ 4 ∨ (message.take 3).map toupper ≠ SET := by
  rw [ne_eq, escapes_iff, not_and_or, not_and_or, Bool.not_eq_false]

/-- `SET` and one character. -/
theorem escapes_SETX : ¬ ∀ notOpen message, serveMessage notOpen message ≠ none := by
  intro h
  exact h false (SET ++ [0x58]) (by decide)

/-! ## What a message says -/

def Command.isOpen : Command → Bool
  | .open _ => true
  | _ => false

/-- The message is the word in any case, a space, and the rest. -/
def Cut (message word rest : List Byte) : Prop := ∃ w, message = w ++ SPACE :: rest ∧ w.map toupper = word

def Says (message : List Byte) : Command → Prop
  | .open databaseName => ∃ rest, Cut message OPEN rest ∧ databaseName = trim rest
  | .get key => Cut message GET key
  | .set key value => Cut message SET (key ++ SPACE :: value) ∧ key ≠ [] ∧ SPACE ∉ key
  | .delete key => Cut message DELETE key
  | .exist key => Cut message EXIST key

/-- The operation on a database that a message leads to. -/
def performed (notOpen : Bool) (message : List Byte) : Option Command :=
  match serveMessage notOpen message with
  | some (.perform c) => some c
  | _ => none

/-- One character too many after a word, or arguments of `SET` that are none. -/
def Misread (notOpen : Bool) (message : List Byte) : Prop :=
  (∃ w ch, message = w ++ [ch] ∧ ch ≠ SPACE ∧
    (w.map toupper = OPEN ∨ notOpen = false ∧ w.map toupper ∈ [GET, DELETE, EXIST])) ∨
  notOpen = false ∧ ∃ rest, Cut message SET rest ∧ rest ≠ [] ∧ (rest.head? = some SPACE ∨ SPACE ∉ rest)

theorem append_space_inj {w w' rest rest' : List Byte} (h : w ++ SPACE :: rest = w' ++ SPACE :: rest') (hw : SPACE ∉ w)
    (hw' : SPACE ∉ w') : w = w' ∧ rest = rest' := by
  induction w generalizing w' with
  | nil =>
    cases w' with
    | nil => simpa using h
    | cons b w' =>
      obtain ⟨rfl, -⟩ := List.cons.inj h
      exact absurd List.mem_cons_self hw'
  | cons a w ih =>
    cases w' with
    | nil =>
      obtain ⟨rfl, -⟩ := List.cons.inj h
      exact absurd List.mem_cons_self hw
    | cons b w' =>
      obtain ⟨rfl, htail⟩ := List.cons.inj h
      obtain ⟨rfl, hr⟩ := ih htail (fun hm => hw (List.mem_cons_of_mem _ hm)) fun hm => hw' (List.mem_cons_of_mem _ hm)
      exact ⟨rfl, hr⟩

theorem cut_space_iff {a : Byte} {w rest word r : List Byte} (hw : SPACE ∉ w) (hne : word ≠ []) (hword : SPACE ∉ word) :
    Cut (a :: w ++ SPACE :: rest) word r ↔ (a :: w).map toupper = word ∧ r = rest := by
  constructor
  · rintro ⟨w', hm, hup⟩
    have hw' := space_notMem hup hword
    cases w' with
    | nil => exact absurd hup.symm hne
    | cons b w' =>
      obtain ⟨rfl, htail⟩ := List.cons.inj hm
      obtain ⟨rfl, rfl⟩ := append_space_inj htail hw fun h => hw' (List.mem_cons_of_mem _ h)
      exact ⟨hup, rfl⟩
  · rintro ⟨hup, rfl⟩
    exact ⟨a :: w, rfl, hup⟩

theorem not_cut_of_no_space {a : Byte} {w word r : List Byte} (hw : SPACE ∉ w) (hne : word ≠ []) :
    ¬ Cut (a :: w) word r := by
  rintro ⟨w', hm, hup⟩
  cases w' with
  | nil => exact hne hup.symm
  | cons b w' =>
    obtain ⟨-, rfl⟩ := List.cons.inj hm
    exact hw (by simp)

/-- A branch performs what its operation is, with the slices as arguments. -/
theorem branch_perform_iff {notOpen : Bool} {operation rest : List Byte} {arguments : Option (List Byte × List Byte)}
    {c : Command} : branch notOpen operation rest arguments = some (.perform c) ↔
      match c with
      | .open databaseName => operation = OPEN ∧ databaseName = trim rest
      | .get key => notOpen = false ∧ operation = GET ∧ key = rest
      | .set key value => notOpen = false ∧ operation = SET ∧ arguments = some (key, value)
      | .delete key => notOpen = false ∧ operation = DELETE ∧ key = rest
      | .exist key => notOpen = false ∧ operation = EXIST ∧ key = rest := by
  have hwords : [OPEN, GET, SET, DELETE, EXIST].Nodup := by decide
  simp only [List.nodup_cons, List.mem_cons, List.not_mem_nil, or_false, not_or, not_false_eq_true, List.nodup_nil,
    and_true] at hwords
  obtain ⟨⟨hOG, hOS, hOD, hOE⟩, ⟨hGS, hGD, hGE⟩, ⟨hSD, hSE⟩, hDE⟩ := hwords
  unfold branch
  cases notOpen
  · by_cases ho : operation = OPEN
    · cases c <;> simp [ho, hOG, hOS, hOD, hOE, eq_comm]
    by_cases hg : operation = GET
    · cases c <;> simp [hg, Ne.symm hOG, hGS, hGD, hGE, eq_comm]
    by_cases hs : operation = SET
    · cases c <;> simp [hs, Ne.symm hOS, Ne.symm hGS, hSD, hSE]
    by_cases hd : operation = DELETE
    · cases c <;> simp [hd, Ne.symm hOD, Ne.symm hGD, Ne.symm hSD, hDE, eq_comm]
    by_cases he : operation = EXIST
    · cases c <;> simp [he, Ne.symm hOE, Ne.symm hGE, Ne.symm hSE, Ne.symm hDE, eq_comm]
    · cases c <;> simp [ho, hg, hs, hd, he]
  · by_cases ho : operation = OPEN
    · cases c <;> simp [ho, eq_comm]
    · cases c <;> simp [ho]

theorem performed_eq_some_iff {notOpen : Bool} {message : List Byte} {c : Command} :
    performed notOpen message = some c ↔ serveMessage notOpen message = some (.perform c) := by
  unfold performed
  split <;> simp_all

/-- The arguments of `SET` are taken apart as they should. -/
theorem setArguments_iff {p : List Byte} (hp : p ≠ []) (rest : List Byte) :
    (∀ key value, setArguments (p ++ rest) p.length = some (key, value) ↔
      key ++ SPACE :: value = rest ∧ key ≠ [] ∧ SPACE ∉ key) ↔
    ¬ (rest ≠ [] ∧ (rest.head? = some SPACE ∨ SPACE ∉ rest)) := by
  cases rest with
  | nil =>
    rw [List.append_nil, setArguments_escapes hp]
    simp
  | cons b k =>
    -- the search for the space begins behind the first byte
    by_cases hk : SPACE ∈ k
    · obtain ⟨k, v, rfl, hk'⟩ := List.eq_append_cons_of_mem hk
      have hargs : setArguments (p ++ b :: (k ++ SPACE :: v)) p.length = some (b :: k, v) := by
        have := setArguments_found (p := p) (a := b) (v := v) hk'
        rwa [List.append_assoc, List.cons_append] at this
      rw [hargs]
      by_cases hb : b = SPACE
      · subst hb
        simp only [ne_eq, reduceCtorEq, not_false_eq_true, List.head?_cons, true_or, and_self, not_true_eq_false,
          iff_false]
        intro h
        exact ((h (SPACE :: k) v).1 rfl).2.2 List.mem_cons_self
      · have hbk : SPACE ∉ b :: k := by simp [hk', Ne.symm hb]
        have hright : ¬ (b :: (k ++ SPACE :: v) ≠ [] ∧
            ((b :: (k ++ SPACE :: v)).head? = some SPACE ∨ SPACE ∉ b :: (k ++ SPACE :: v))) := by simp [hb]
        refine iff_of_true (fun key value => ⟨fun h => ?_, fun ⟨h, _, hkey⟩ => ?_⟩) hright
        · obtain ⟨rfl, rfl⟩ := Prod.mk.inj (Option.some.inj h)
          exact ⟨rfl, by simp, hbk⟩
        · obtain ⟨hkey, hvalue⟩ := append_space_inj (w := key) h hkey hbk
          rw [hkey, hvalue]
    · rw [setArguments_none hk]
      have hright : b :: k ≠ [] ∧ ((b :: k).head? = some SPACE ∨ SPACE ∉ b :: k) := by
        by_cases hb : b = SPACE
        · simp [hb]
        · simp [hk, Ne.symm hb]
      refine iff_of_false (fun h => ?_) (not_not.2 hright)
      obtain ⟨heq, hne, -⟩ := (h (b :: k).dropLast []).1 rfl
      generalize (b :: k).dropLast = key at heq hne
      cases key with
      | nil => exact hne rfl
      | cons c key =>
        obtain ⟨-, rfl⟩ := List.cons.inj heq
        exact hk (by simp)

section Performed
variable {notOpen : Bool} {a : Byte} {w rest : List Byte}

theorem misread_space_iff (hw : SPACE ∉ w) : Misread notOpen (a :: w ++ SPACE :: rest) ↔
    (notOpen = false ∧ (a :: w).map toupper = SET) ∧ rest ≠ [] ∧ (rest.head? = some SPACE ∨ SPACE ∉ rest) := by
  have hset : ∀ r, Cut (a :: w ++ SPACE :: rest) SET r ↔ (a :: w).map toupper = SET ∧ r = rest := fun r =>
    cut_space_iff hw (by decide) (by decide)
  constructor
  · rintro (⟨w', ch, hm, hch, hword⟩ | ⟨ho, r, hr, hne, hbad⟩)
    · -- the space is not the last character, so it is in the word
      exfalso
      have hw' : SPACE ∈ w' := by
        have hmem : SPACE ∈ w' ++ [ch] := by
          rw [← hm]
          simp
        simpa [Ne.symm hch] using hmem
      have hup : toupper SPACE ∈ w'.map toupper := List.mem_map_of_mem hw'
      rcases hword with h | ⟨-, h⟩
      · rw [h] at hup
        exact absurd hup (by decide)
      · simp only [List.mem_cons, List.not_mem_nil, or_false] at h
        rcases h with h | h | h <;> rw [h] at hup <;> exact absurd hup (by decide)
    · obtain ⟨hop, rfl⟩ := (hset r).1 hr
      exact ⟨⟨ho, hop⟩, hne, hbad⟩
  · rintro ⟨⟨ho, hop⟩, hne, hbad⟩
    exact .inr ⟨ho, rest, (hset rest).2 ⟨hop, rfl⟩, hne, hbad⟩

theorem performed_space_iff (hw : SPACE ∉ w) :
    (∀ c, performed notOpen (a :: w ++ SPACE :: rest) = some c ↔
      Says (a :: w ++ SPACE :: rest) c ∧ (notOpen = true → c.isOpen = true)) ↔
    ¬ Misread notOpen (a :: w ++ SPACE :: rest) := by
  have hcut : a :: w ++ SPACE :: rest = (a :: w ++ [SPACE]) ++ rest := by simp
  have hargs := setArguments_iff (p := a :: w ++ [SPACE]) (by simp) rest
  rw [← hcut, show (a :: w ++ [SPACE]).length = w.length + 2 by simp] at hargs
  rw [misread_space_iff hw, not_and, ← hargs]
  have hO : ∀ r, Cut (a :: w ++ SPACE :: rest) OPEN r ↔ _ := fun r => cut_space_iff hw (by decide) (by decide)
  have hG : ∀ r, Cut (a :: w ++ SPACE :: rest) GET r ↔ _ := fun r => cut_space_iff hw (by decide) (by decide)
  have hS : ∀ r, Cut (a :: w ++ SPACE :: rest) SET r ↔ _ := fun r => cut_space_iff hw (by decide) (by decide)
  have hD : ∀ r, Cut (a :: w ++ SPACE :: rest) DELETE r ↔ _ := fun r => cut_space_iff hw (by decide) (by decide)
  have hE : ∀ r, Cut (a :: w ++ SPACE :: rest) EXIST r ↔ _ := fun r => cut_space_iff hw (by decide) (by decide)
  simp only [performed_eq_some_iff, serveMessage_space hw, branch_perform_iff]
  constructor
  -- only SET looks for a space of its own, and only it can go wrong
  · rintro h ⟨rfl, hop⟩ key value
    have := h (.set key value)
    simp only [Says, hS, hop, true_and, Bool.false_eq_true, false_imp_iff, and_true] at this
    exact this
  · intro h c
    cases c with
    | «open» name =>
      simp only [Says, hO, Command.isOpen, implies_true, and_true]
      exact ⟨fun ⟨h1, h2⟩ => ⟨rest, ⟨h1, rfl⟩, h2⟩, fun ⟨r, ⟨h1, h2⟩, h3⟩ => ⟨h1, h2 ▸ h3⟩⟩
    | get key =>
      simp only [Says, hG, Command.isOpen, Bool.false_eq_true, imp_false, Bool.not_eq_true]
      exact and_comm
    | set key value =>
      simp only [Says, hS, Command.isOpen, Bool.false_eq_true, imp_false, Bool.not_eq_true]
      constructor
      · rintro ⟨ho, hop, hargs⟩
        obtain ⟨h1, h2⟩ := (h ⟨ho, hop⟩ key value).1 hargs
        exact ⟨⟨⟨hop, h1⟩, h2⟩, ho⟩
      · rintro ⟨⟨⟨hop, h1⟩, h2⟩, ho⟩
        exact ⟨ho, hop, (h ⟨ho, hop⟩ key value).2 ⟨h1, h2⟩⟩
    | delete key =>
      simp only [Says, hD, Command.isOpen, Bool.false_eq_true, imp_false, Bool.not_eq_true]
      exact and_comm
    | exist key =>
      simp only [Says, hE, Command.isOpen, Bool.false_eq_true, imp_false, Bool.not_eq_true]
      exact and_comm

theorem performed_no_space_iff (hw : SPACE ∉ w) :
    (∀ c, performed notOpen (a :: w) = some c ↔ Says (a :: w) c ∧ (notOpen = true → c.isOpen = true)) ↔
    ¬ Misread notOpen (a :: w) := by
  have hsaid : ∀ c, ¬ Says (a :: w) c := by
    intro c hc
    cases c with
    | «open» name =>
      obtain ⟨r, hr, -⟩ := hc
      exact not_cut_of_no_space hw (by decide) hr
    | set key value => exact not_cut_of_no_space hw (by decide) hc.1
    | _ => exact not_cut_of_no_space hw (by decide) hc
  have hargs : setArguments (a :: w) (w.length + 1) = none := setArguments_escapes (p := a :: w) (by simp)
  have hmis : Misread notOpen (a :: w) ↔ (a :: w).dropLast.map toupper = OPEN ∨
      notOpen = false ∧ (a :: w).dropLast.map toupper ∈ [GET, DELETE, EXIST] := by
    constructor
    · rintro (⟨w', ch, hm, -, hword⟩ | ⟨-, r, hr, -⟩)
      · rwa [hm, List.dropLast_concat]
      · exact absurd hr (not_cut_of_no_space hw (by decide))
    · intro hword
      refine .inl ⟨(a :: w).dropLast, (a :: w).getLast (by simp), (List.dropLast_append_getLast _).symm, ?_, hword⟩
      -- a word is not empty, so the last character is not the first
      have hne : w ≠ [] := by
        rintro rfl
        rw [List.dropLast_singleton] at hword
        revert hword
        cases notOpen <;> decide
      rw [List.getLast_cons hne]
      exact fun h => hw (h ▸ List.getLast_mem hne)
  simp only [performed_eq_some_iff, serveMessage_no_space hw, branch_perform_iff, hsaid, false_and, iff_false]
  rw [hmis]
  generalize (a :: w).dropLast.map toupper = u
  constructor
  · intro h hword
    rcases hword with rfl | ⟨ho, hword⟩
    · exact h (.open (trim [])) ⟨rfl, rfl⟩
    · simp only [List.mem_cons, List.not_mem_nil, or_false] at hword
      rcases hword with rfl | rfl | rfl
      · exact h (.get []) ⟨ho, rfl, rfl⟩
      · exact h (.delete []) ⟨ho, rfl, rfl⟩
      · exact h (.exist []) ⟨ho, rfl, rfl⟩
  · intro h c hc
    apply h
    cases c with
    | «open» name => exact .inl hc.1
    | get key => exact .inr ⟨hc.1, by simp [hc.2.1]⟩
    | set key value =>
      rw [hargs] at hc
      cases hc.2.2
    | delete key => exact .inr ⟨hc.1, by simp [hc.2.1]⟩
    | exist key => exact .inr ⟨hc.1, by simp [hc.2.1]⟩

end Performed

/-- A message does what it says, and nothing if it says nothing, unless it is misread. -/
theorem performed_iff (notOpen : Bool) (message : List Byte) :
    (∀ c, performed notOpen message = some c ↔ Says message c ∧ (notOpen = true → c.isOpen = true)) ↔
      ¬ Misread notOpen message := by
  rcases message_cases message with rfl | ⟨a, w, rest, hw, rfl⟩ | ⟨a, w, hw, rfl⟩
  · have hmis : ¬ Misread notOpen [] := by
      rintro (⟨w, ch, h, -⟩ | ⟨-, r, ⟨w, h, -⟩, -⟩) <;> simp at h
    refine iff_of_true (fun c => ?_) hmis
    have hsaid : ¬ Says [] c := by
      intro hc
      cases c with
      | «open» name =>
        obtain ⟨r, ⟨w, h, -⟩, -⟩ := hc
        simp at h
      | set key value =>
        obtain ⟨⟨w, h, -⟩, -⟩ := hc
        simp at h
      | _ =>
        obtain ⟨w, h, -⟩ := hc
        simp at h
    have hnone : performed notOpen [] = none := by cases notOpen <;> rfl
    simp [hsaid, hnone]
  · exact performed_space_iff hw
  · exact performed_no_space_iff hw

/-- `GETx` reads the empty key. -/
theorem GETx_misread : ¬ ∀ notOpen message c, performed notOpen message = some c ↔
    Says message c ∧ (notOpen = true → c.isOpen = true) := by
  intro h
  obtain ⟨⟨w, hm, -⟩, -⟩ := (h false (GET ++ [0x78]) (.get [])).1 (by decide)
  have hmem : SPACE ∈ GET ++ [0x78] := by
    rw [hm]
    simp
  exact absurd hmem (by decide)

end MisakiDB.Server
