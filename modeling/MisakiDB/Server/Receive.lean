import MisakiDB.GenericKey
import MisakiDB.Lib.Bytes
import Mathlib.Data.List.TakeWhile
/-!
# `Server::serve`: receiving messages

A client sends each message as eight bytes of length and the bytes. `recv` hands
over the stream in pieces the network chooses. The loop takes whatever the first
`recv` gave for the length, reads on until the length is used up, and appends the
buffer as a zero-terminated string.

So the messages received are the messages sent when every length comes in one
piece, no piece reaches past its message, and no message is empty or holds a zero
byte (`received_whole`). Delivered byte by byte, no sequence but the empty one
comes out as it was sent (`received_trickle_ne`).
-/

namespace MisakiDB.Server

/-- A client's end of the connection: the bytes it still has to deliver before it
closes, and the sizes of the pieces, as the network will cut them. -/
structure Socket where
  stream : List Byte
  cuts : Nat → Nat

def later (cuts : Nat → Nat) : Nat → Nat := fun i => cuts (i + 1)

/-- A piece is not empty and no longer than asked for. -/
def piece (cut len : Nat) : Nat := min (max cut 1) len

/-- The bytes are none when the connection is closed. -/
def recv (s : Socket) (len : Nat) : List Byte × Socket :=
  (s.stream.take (piece (s.cuts 0) len), ⟨s.stream.drop (piece (s.cuts 0) len), later s.cuts⟩)

/-! ## The loop -/

def BUFFER_SIZE : Nat := 8192

/-- `memcpy` to the start of the buffer. -/
def fill (buffer bytes : List Byte) : List Byte := bytes ++ buffer.drop bytes.length

/-- `memset(buffer, 0, n)`. -/
def clear (buffer : List Byte) (n : Nat) : List Byte := fill buffer (List.replicate n 0)

/-- The buffer as a zero-terminated string. -/
def cString (buffer : List Byte) : List Byte := buffer.takeWhile (· ≠ 0)

/-- The `int64_t` at the start of the buffer. -/
def int64At (buffer : List Byte) : BitVec 64 := BitVec.ofNat 64 (leNat (buffer.take 8))

/-- The `do ... while`: none when the connection closed. A round takes a byte at
least, so the length of the stream bounds the rounds. -/
def receiveBody : Nat → BitVec 64 → List Byte → List Byte → Socket → Option (List Byte × List Byte × Socket)
  | 0, _, _, _, _ => none
  | fuel + 1, length, message, buffer, s =>
    let r := recv s (BUFFER_SIZE - 1)
    let ret := r.1.length
    if ret = 0 then none
    else
      let length := length - BitVec.ofNat 64 ret
      let buffer := fill buffer r.1
      let message := message ++ cString buffer
      let buffer := clear buffer ret
      if 0 < length.toInt then receiveBody fuel length message buffer r.2 else some (message, buffer, r.2)

/-- One round of `while (true)`, up to the message. What `recv` returns for the
length is not looked at. -/
def receiveMessage (buffer : List Byte) (s : Socket) : Option (List Byte × List Byte × Socket) :=
  let r := recv s 8
  let buffer := fill buffer r.1
  let length := int64At buffer
  let buffer := clear buffer 8
  receiveBody (r.2.stream.length + 1) length [] buffer r.2

def receiveAll : Nat → List Byte → Socket → List (List Byte)
  | 0, _, _ => []
  | fuel + 1, buffer, s =>
    match receiveMessage buffer s with
    | none => []
    | some (message, buffer, s) => message :: receiveAll fuel buffer s

/-- `char buffer[8192] { 0 }`. -/
def zeroBuffer : List Byte := List.replicate BUFFER_SIZE 0

/-- The messages that `serve` goes on to interpret. -/
def received (s : Socket) : List (List Byte) := receiveAll (s.stream.length + 1) zeroBuffer s

/-- What the client sends for a message. -/
def frame (message : List Byte) : List Byte := leBytes 8 message.length ++ message

def sent (messages : List (List Byte)) : List Byte := messages.flatMap frame

/-! ## The buffer is zero between two calls of `recv` -/

theorem recv_length_le (s : Socket) (n : Nat) : (recv s n).1.length ≤ n := by
  unfold recv piece
  rw [List.length_take]
  omega

theorem clear_fill {bs : List Byte} (h : bs.length ≤ BUFFER_SIZE) :
    clear (fill zeroBuffer bs) bs.length = zeroBuffer := by
  unfold clear fill zeroBuffer
  rw [List.length_replicate, List.drop_left, List.drop_replicate, List.replicate_append_replicate]
  congr 1
  omega

/-- Clearing more than was filled. -/
theorem clear_fill_of_le {bs : List Byte} {n : Nat} (h : bs.length ≤ n) (hn : n ≤ BUFFER_SIZE) :
    clear (fill zeroBuffer bs) n = zeroBuffer := by
  unfold clear fill zeroBuffer
  rw [List.length_replicate, List.drop_append, List.drop_of_length_le h, List.nil_append, List.drop_replicate,
    List.drop_replicate, List.replicate_append_replicate]
  congr 1
  omega

theorem takeWhile_append_zeros (bs : List Byte) (n : Nat) :
    (bs ++ List.replicate n 0).takeWhile (· ≠ 0) = bs.takeWhile (· ≠ 0) := by
  induction bs with
  | nil => cases n <;> simp [List.replicate_succ]
  | cons b bs ih => simp only [List.cons_append, List.takeWhile_cons, ih]

theorem cString_fill (bs : List Byte) : cString (fill zeroBuffer bs) = cString bs := by
  unfold cString fill zeroBuffer
  rw [List.drop_replicate]
  exact takeWhile_append_zeros _ _

theorem int64At_fill {bs : List Byte} (h : bs.length ≤ 8) :
    int64At (fill zeroBuffer bs) = BitVec.ofNat 64 (leNat bs) := by
  have htake : (fill zeroBuffer bs).take 8 = bs ++ List.replicate (8 - bs.length) 0 := by
    unfold fill zeroBuffer BUFFER_SIZE
    rw [List.take_append, List.take_of_length_le h, List.drop_replicate, List.take_replicate]
    congr 2
    omega
  rw [int64At, htake, leNat_append_zeros]

/-- A round of the `do ... while`, seen between two cleared buffers. -/
theorem receiveBody_succ {s s' : Socket} {bs : List Byte} (h : recv s (BUFFER_SIZE - 1) = (bs, s')) (fuel : Nat)
    (length : BitVec 64) (message : List Byte) :
    receiveBody (fuel + 1) length message zeroBuffer s =
      if bs.length = 0 then none
      else if 0 < (length - BitVec.ofNat 64 bs.length).toInt then
        receiveBody fuel (length - BitVec.ofNat 64 bs.length) (message ++ cString bs) zeroBuffer s'
      else some (message ++ cString bs, zeroBuffer, s') := by
  have hle : bs.length ≤ BUFFER_SIZE := by
    have := recv_length_le s (BUFFER_SIZE - 1)
    rw [h] at this
    exact le_trans this (Nat.sub_le _ _)
  simp only [receiveBody, h, cString_fill, clear_fill hle]

theorem receiveMessage_eq (s : Socket) :
    receiveMessage zeroBuffer s = receiveBody ((recv s 8).2.stream.length + 1)
      (BitVec.ofNat 64 (leNat (recv s 8).1)) [] zeroBuffer (recv s 8).2 := by
  have hle := recv_length_le s 8
  simp only [receiveMessage, int64At_fill hle, clear_fill_of_le hle (by decide)]

/-! ## Pieces that keep to their message -/

/-- The next pieces of the body are `n` bytes together. -/
inductive Covers : Nat → (Nat → Nat) → (Nat → Nat) → Prop
  | last {cuts} : Covers (piece (cuts 0) (BUFFER_SIZE - 1)) cuts (later cuts)
  | more {n cuts cuts'} : Covers n (later cuts) cuts' →
      Covers (piece (cuts 0) (BUFFER_SIZE - 1) + n) cuts cuts'

/-- Every length arrives in one piece, every message is some pieces, and none has
a zero byte. -/
inductive Whole : List (List Byte) → (Nat → Nat) → Prop
  | nil {cuts} : Whole [] cuts
  | cons {message messages cuts cuts'} : message.length < 2 ^ 63 → 0 ∉ message → 8 ≤ cuts 0 →
      Covers message.length (later cuts) cuts' → Whole messages cuts' → Whole (message :: messages) cuts

theorem piece_pos {cut n : Nat} (h : 0 < n) : 0 < piece cut n := by
  unfold piece
  omega

theorem Covers.one {n : Nat} {cuts : Nat → Nat} (h : piece (cuts 0) (BUFFER_SIZE - 1) = n) :
    Covers n cuts (later cuts) := h ▸ .last

theorem Covers.pos {n : Nat} {cuts cuts' : Nat → Nat} (h : Covers n cuts cuts') : 0 < n := by
  cases h with
  | last => exact piece_pos (by decide)
  | more _ => exact Nat.add_pos_left (piece_pos (by decide)) _

theorem cString_of_nonzero {bs : List Byte} (h : 0 ∉ bs) : cString bs = bs :=
  List.takeWhile_eq_self_iff.2 fun b hb => by
    simp only [ne_eq, decide_not, Bool.not_eq_eq_eq_not, Bool.not_true, decide_eq_false_iff_not]
    rintro rfl
    exact h hb

theorem recv_append {front rest : List Byte} {cuts : Nat → Nat} {n : Nat} (h : piece (cuts 0) n = front.length) :
    recv ⟨front ++ rest, cuts⟩ n = (front, ⟨rest, later cuts⟩) := by
  simp [recv, h]

theorem sub_front (a n : Nat) : BitVec.ofNat 64 (a + n) - BitVec.ofNat 64 a = BitVec.ofNat 64 n := by
  rw [BitVec.ofNat_add, BitVec.add_comm, BitVec.add_sub_cancel]

/-- A length that a message can have is positive as long as bytes are missing. -/
theorem toInt_pos {n : Nat} (h : n < 2 ^ 63) : 0 < (BitVec.ofNat 64 n).toInt ↔ 0 < n := by
  rw [BitVec.toInt_ofNat', Int.bmod_eq_of_le (by omega) (by omega)]
  omega

theorem receiveBody_covers {n : Nat} {cuts cuts' : Nat → Nat} (h : Covers n cuts cuts') :
    ∀ (body rest message : List Byte) (fuel : Nat), body.length = n → n < 2 ^ 63 → 0 ∉ body → n ≤ fuel →
      receiveBody fuel (BitVec.ofNat 64 n) message zeroBuffer ⟨body ++ rest, cuts⟩ =
        some (message ++ body, zeroBuffer, ⟨rest, cuts'⟩) := by
  induction h with
  | @last cuts =>
    intro body rest message fuel hlen _ hbody hfuel
    have hpos : 0 < piece (cuts 0) (BUFFER_SIZE - 1) := piece_pos (by decide)
    obtain ⟨fuel, rfl⟩ : ∃ m, fuel = m + 1 := ⟨fuel - 1, by omega⟩
    rw [receiveBody_succ (recv_append hlen.symm), if_neg (by omega), if_neg (by simp [hlen]), cString_of_nonzero hbody]
  | @more n cuts cuts' hcov ih =>
    intro body rest message fuel hlen hmax hbody hfuel
    have hpos : 0 < piece (cuts 0) (BUFFER_SIZE - 1) := piece_pos (by decide)
    have hn := hcov.pos
    obtain ⟨fuel, rfl⟩ : ∃ m, fuel = m + 1 := ⟨fuel - 1, by omega⟩
    -- the first piece, and what is left of the body
    obtain ⟨front, back, rfl, hfront⟩ : ∃ front back, body = front ++ back ∧
        front.length = piece (cuts 0) (BUFFER_SIZE - 1) :=
      ⟨body.take (piece (cuts 0) (BUFFER_SIZE - 1)), body.drop _, (List.take_append_drop _ _).symm, by
        rw [List.length_take]
        omega⟩
    have hback : back.length = n := by
      rw [List.length_append] at hlen
      omega
    rw [List.mem_append, not_or] at hbody
    rw [List.append_assoc, receiveBody_succ (recv_append hfront.symm), if_neg (by omega), hfront, sub_front,
      if_pos ((toInt_pos (by omega)).2 hn), cString_of_nonzero hbody.1,
      ih back rest (message ++ front) fuel hback (by omega) hbody.2 (by omega), List.append_assoc]

theorem int64_length {n : Nat} (h : n < 2 ^ 63) : BitVec.ofNat 64 (leNat (leBytes 8 n)) = BitVec.ofNat 64 n := by
  rw [leNat_leBytes, Nat.mod_eq_of_lt (by omega)]

/-- One message whose pieces keep to it. -/
theorem receiveMessage_covers {message rest : List Byte} {cuts cuts' : Nat → Nat} (hlen : message.length < 2 ^ 63)
    (hzero : 0 ∉ message) (h8 : 8 ≤ cuts 0) (h : Covers message.length (later cuts) cuts') :
    receiveMessage zeroBuffer ⟨frame message ++ rest, cuts⟩ = some (message, zeroBuffer, ⟨rest, cuts'⟩) := by
  have hpiece : piece (cuts 0) 8 = (leBytes 8 message.length).length := by
    rw [leBytes_length, piece]
    omega
  rw [receiveMessage_eq, frame, List.append_assoc, recv_append hpiece, int64_length hlen,
    receiveBody_covers h _ _ _ _ rfl hlen hzero (by simp; omega), List.nil_append]

theorem receiveMessage_closed {cuts : Nat → Nat} : receiveMessage zeroBuffer ⟨[], cuts⟩ = none := by
  rw [receiveMessage_eq, receiveBody_succ rfl]
  simp [recv]

theorem receiveAll_whole {messages : List (List Byte)} {cuts : Nat → Nat} (h : Whole messages cuts) :
    ∀ fuel, (sent messages).length < fuel → receiveAll fuel zeroBuffer ⟨sent messages, cuts⟩ = messages := by
  induction h with
  | nil =>
    intro fuel hfuel
    obtain ⟨fuel, rfl⟩ : ∃ m, fuel = m + 1 := ⟨fuel - 1, by omega⟩
    simp [receiveAll, sent, receiveMessage_closed]
  | @cons message messages cuts cuts' hlen hzero h8 hcov _ ih =>
    intro fuel hfuel
    obtain ⟨fuel, rfl⟩ : ∃ m, fuel = m + 1 := ⟨fuel - 1, by omega⟩
    have hsent : sent (message :: messages) = frame message ++ sent messages := rfl
    have hframe : 8 ≤ (frame message).length := by simp [frame]
    rw [hsent, List.length_append] at hfuel
    rw [hsent, receiveAll, receiveMessage_covers hlen hzero h8 hcov]
    exact congrArg _ (ih fuel (by omega))

/-- Pieces that keep to their messages give the messages back. -/
theorem received_whole {messages : List (List Byte)} {cuts : Nat → Nat} (h : Whole messages cuts) :
    received ⟨sent messages, cuts⟩ = messages :=
  receiveAll_whole h _ (Nat.lt_succ_self _)

/-! ## Byte by byte -/

/-- Every piece is one byte. -/
def trickle : Nat → Nat := fun _ => 1

theorem recv_trickle_nil {n : Nat} : recv ⟨[], trickle⟩ n = ([], ⟨[], trickle⟩) := by
  simp only [recv, List.take_nil, List.drop_nil]
  rfl

theorem recv_trickle_cons {b : Byte} {rest : List Byte} {n : Nat} (hn : 0 < n) :
    recv ⟨b :: rest, trickle⟩ n = ([b], ⟨rest, trickle⟩) := by
  have hpiece : piece (trickle 0) n = 1 := by
    unfold piece trickle
    omega
  rw [recv, hpiece]
  rfl

/-- A body delivered byte by byte loses its zero bytes. -/
theorem receiveBody_trickle (rest : List Byte) : ∀ (n : Nat) (message : List Byte) (fuel : Nat), n < 2 ^ 63 →
    rest.length < fuel → receiveBody fuel (BitVec.ofNat 64 n) message zeroBuffer ⟨rest, trickle⟩ =
      if rest.length < max n 1 then none
      else some (message ++ (rest.take (max n 1)).filter (· ≠ 0), zeroBuffer, ⟨rest.drop (max n 1), trickle⟩) := by
  induction rest with
  | nil =>
    intro n message fuel _ hfuel
    obtain ⟨fuel, rfl⟩ : ∃ m, fuel = m + 1 := ⟨fuel - 1, by omega⟩
    rw [receiveBody_succ recv_trickle_nil, if_pos List.length_nil, if_pos (by simp)]
  | cons b rest ih =>
    intro n message fuel hmax hfuel
    obtain ⟨fuel, rfl⟩ : ∃ m, fuel = m + 1 := ⟨fuel - 1, by omega⟩
    have hb : cString [b] = [b].filter (· ≠ 0) := by
      cases h : decide (b ≠ 0) <;> simp only [cString, List.takeWhile, List.filter, h]
    rw [receiveBody_succ (recv_trickle_cons (by decide)), if_neg (by simp), hb, List.length_singleton]
    rw [List.length_cons] at hfuel ⊢
    by_cases hn : 1 < n
    · obtain ⟨m, rfl⟩ : ∃ m, n = 1 + m := ⟨n - 1, by omega⟩
      rw [sub_front, if_pos ((toInt_pos (by omega)).2 (by omega)), ih m _ fuel (by omega) (by omega), Nat.add_comm 1 m,
        max_eq_left (show 1 ≤ m by omega), max_eq_left (show 1 ≤ m + 1 by omega), List.take_succ_cons,
        List.drop_succ_cons]
      by_cases hm : rest.length < m
      · rw [if_pos hm, if_pos (by omega)]
      · rw [if_neg hm, if_neg (by omega), List.append_assoc, ← List.filter_append, List.singleton_append]
    · have hlast : ¬ 0 < (BitVec.ofNat 64 n - BitVec.ofNat 64 1).toInt := by
        obtain rfl | rfl : n = 0 ∨ n = 1 := by omega
        · decide
        · decide
      rw [if_neg hlast, if_neg (by omega), max_eq_right (show n ≤ 1 by omega)]
      rfl

/-- Only the first byte of a length is used. -/
theorem receiveMessage_trickle (b : Byte) (rest : List Byte) :
    receiveMessage zeroBuffer ⟨b :: rest, trickle⟩ =
      if rest.length < max b.toNat 1 then none
      else some ((rest.take (max b.toNat 1)).filter (· ≠ 0), zeroBuffer, ⟨rest.drop (max b.toNat 1), trickle⟩) := by
  have hb : BitVec.ofNat 64 (leNat [b]) = BitVec.ofNat 64 b.toNat := by
    rw [leNat, leNat, Nat.mul_zero, Nat.add_zero]
  have hlt := b.isLt
  rw [receiveMessage_eq, recv_trickle_cons (by decide), hb,
    receiveBody_trickle rest _ _ _ (by omega) (Nat.lt_succ_self _)]
  rfl

/-- Two zero bytes are an empty message. -/
theorem receiveAll_zeros (j : Nat) (rest : List Byte) (fuel : Nat) :
    receiveAll (j + fuel) zeroBuffer ⟨List.replicate (2 * j) 0 ++ rest, trickle⟩ =
      List.replicate j [] ++ receiveAll fuel zeroBuffer ⟨rest, trickle⟩ := by
  induction j with
  | zero => simp
  | succ j ih =>
    rw [show 2 * (j + 1) = 2 * j + 1 + 1 by omega, List.replicate_succ, List.replicate_succ, List.cons_append,
      List.cons_append, Nat.add_right_comm, receiveAll, receiveMessage_trickle, if_neg (by simp)]
    exact congrArg _ ih

/-- How many empty messages a sequence starts with. -/
def leadingEmpty (messages : List (List Byte)) : Nat := (messages.takeWhile (· = [])).length

theorem le_leadingEmpty (j : Nat) (messages : List (List Byte)) :
    j ≤ leadingEmpty (List.replicate j [] ++ messages) := by
  induction j with
  | zero => exact Nat.zero_le _
  | succ j ih =>
    rw [leadingEmpty, List.replicate_succ, List.cons_append, List.takeWhile_cons_of_pos (by simp), List.length_cons]
    exact Nat.succ_le_succ ih

theorem sent_leadingEmpty (messages : List (List Byte)) :
    ∃ rest, sent messages = List.replicate (8 * leadingEmpty messages) 0 ++ rest := by
  induction messages with
  | nil => exact ⟨[], rfl⟩
  | cons message messages ih =>
    by_cases h : message = []
    · obtain ⟨rest, hrest⟩ := ih
      refine ⟨rest, ?_⟩
      have hcount : leadingEmpty (message :: messages) = leadingEmpty messages + 1 := by
        unfold leadingEmpty
        rw [List.takeWhile_cons_of_pos (by simpa using h), List.length_cons]
      have hframe : frame message = List.replicate 8 0 := by
        subst h
        rfl
      rw [hcount, Nat.mul_succ, Nat.add_comm, List.replicate_add, List.append_assoc, ← hrest, ← hframe]
      rfl
    · exact ⟨_, by rw [leadingEmpty, List.takeWhile_cons_of_neg (by simpa using h)]; rfl⟩

/-- A sequence that starts with an empty message comes out with more of them. -/
theorem leadingEmpty_trickle (messages : List (List Byte)) (h : 0 < leadingEmpty messages) :
    leadingEmpty messages < leadingEmpty (received ⟨sent messages, trickle⟩) := by
  obtain ⟨rest, hrest⟩ := sent_leadingEmpty messages
  have hfuel : (sent messages).length + 1 = 4 * leadingEmpty messages + (4 * leadingEmpty messages + rest.length + 1) := by
    rw [hrest, List.length_append, List.length_replicate]
    omega
  rw [received, hfuel, hrest, show 8 * leadingEmpty messages = 2 * (4 * leadingEmpty messages) by omega,
    receiveAll_zeros]
  have := le_leadingEmpty (4 * leadingEmpty messages)
    (receiveAll (4 * leadingEmpty messages + rest.length + 1) zeroBuffer ⟨rest, trickle⟩)
  omega

/-- A first message that is not empty comes out shorter, if at all. -/
theorem received_trickle_head {message : List Byte} (messages : List (List Byte)) (h : message ≠ []) :
    received ⟨sent (message :: messages), trickle⟩ = [] ∨
      ∃ got rest, received ⟨sent (message :: messages), trickle⟩ = got :: rest ∧ got.length < message.length := by
  have hpos := List.length_pos_iff.2 h
  -- the first byte of the length, the second, and the rest
  obtain ⟨tail, htail⟩ : ∃ tail, sent (message :: messages) =
      BitVec.ofNat 8 message.length :: BitVec.ofNat 8 (message.length / 256) :: tail := ⟨_, rfl⟩
  rw [received, htail, receiveAll, receiveMessage_trickle]
  split
  · exact .inl rfl
  rename_i got buffer s' heq
  split at heq
  · simp at heq
  refine .inr ⟨_, _, rfl, ?_⟩
  simp only [Option.some.injEq, Prod.mk.injEq] at heq
  rw [← heq.1]
  set k := max (BitVec.ofNat 8 message.length).toNat 1 with hk
  have hb : (BitVec.ofNat 8 message.length).toNat = message.length % 256 := BitVec.toNat_ofNat _ _
  obtain ⟨m, hm⟩ : ∃ m, k = m + 1 := ⟨k - 1, by omega⟩
  rw [hm, List.take_succ_cons]
  have htake : (tail.take m).length ≤ m := List.length_take_le _ _
  by_cases hbig : message.length < 256
  · -- the second byte of the length is zero and is taken for a byte of the body
    rw [Nat.div_eq_of_lt hbig, List.filter_cons_of_neg (by simp)]
    have := List.length_filter_le (fun b : Byte => decide (b ≠ 0)) (tail.take m)
    omega
  · have := List.length_filter_le (fun b : Byte => decide (b ≠ 0)) (BitVec.ofNat 8 (message.length / 256) :: tail.take m)
    rw [List.length_cons] at this
    omega

/-- Byte by byte, only the empty sequence comes out as it was sent. -/
theorem received_trickle_ne {messages : List (List Byte)} (h : messages ≠ []) :
    received ⟨sent messages, trickle⟩ ≠ messages := by
  intro heq
  obtain ⟨message, messages, rfl⟩ := List.exists_cons_of_ne_nil h
  by_cases hm : message = []
  · have hlead : 0 < leadingEmpty (message :: messages) := by
      rw [leadingEmpty, List.takeWhile_cons_of_pos (by simpa using hm), List.length_cons]
      exact Nat.succ_pos _
    have := leadingEmpty_trickle _ hlead
    rw [heq] at this
    exact lt_irrefl _ this
  · rcases received_trickle_head messages hm with hnil | ⟨got, rest, hgot, hlt⟩
    · simp [hnil] at heq
    · rw [hgot, List.cons.injEq] at heq
      rw [heq.1] at hlt
      exact lt_irrefl _ hlt

/-- However the network cuts it, only the empty sequence is sure to come out as it
was sent; and it does come out so when every piece keeps to its message. -/
theorem framing (messages : List (List Byte)) :
    ((∀ cuts, received ⟨sent messages, cuts⟩ = messages) ↔ messages = []) ∧
    ∀ cuts, Whole messages cuts → received ⟨sent messages, cuts⟩ = messages := by
  refine ⟨⟨fun h => ?_, ?_⟩, fun _ => received_whole⟩
  · by_contra hne
    exact received_trickle_ne hne (h trickle)
  · rintro rfl cuts
    exact received_whole .nil

/-- Two messages, each in a piece for its length and a piece for its bytes. -/
theorem framing_two : received ⟨sent [[65, 66], [67, 68]],
    fun i => if i % 2 = 0 then 8 else 2⟩ = [[65, 66], [67, 68]] :=
  (framing _).2 _ (.cons (by decide) (by decide) (by decide) (.one (by decide))
    (.cons (by decide) (by decide) (by decide) (.one (by decide)) .nil))

/-- A message byte by byte: three bytes of its length are two empty messages... -/
theorem trickle_breaks_message : received ⟨sent [[65, 66]], trickle⟩ ≠ [[65, 66]] := by
  decide +kernel

end MisakiDB.Server
