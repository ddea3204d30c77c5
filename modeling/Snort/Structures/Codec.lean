import Mathlib

/-!
# Values as bytes

A codec writes the values of a type as a fixed number of bytes and reads them
back. Codecs of words, pairs and images make those of records. A buffer of bytes
is read and written at an offset, and only inside of it.
-/

abbrev Byte := BitVec 8

instance neZeroFour : NeZero 4 := ⟨by decide⟩

structure Codec (α : Type) where
  size : ℕ
  encode : α → List Byte
  decode : List Byte → Option α
  length_encode : ∀ a, (encode a).length = size
  decode_encode : ∀ a, decode (encode a) = some a

attribute [simp] Codec.length_encode Codec.decode_encode

namespace Codec
open List
variable {α β : Type}

/-! ## Words -/

def encodeWord : (n : ℕ) → BitVec (8 * n) → List Byte
  | 0, _ => []
  | n + 1, x => x.extractLsb' 0 8 :: encodeWord n (x.extractLsb' 8 (8 * n))

def decodeWord : (n : ℕ) → List Byte → Option (BitVec (8 * n))
  | 0, [] => some 0
  | n + 1, b :: bs => (decodeWord n bs).map fun x => x ++ b
  | _, _ => none

theorem length_encodeWord (n : ℕ) (x : BitVec (8 * n)) : (encodeWord n x).length = n := by
  induction n with
  | zero => rfl
  | succ n ih => rw [encodeWord, length_cons, ih]

theorem decodeWord_encodeWord (n : ℕ) (x : BitVec (8 * n)) :
    decodeWord n (encodeWord n x) = some x := by
  induction n with
  | zero => exact congrArg some (BitVec.eq_of_zero_length rfl)
  | succ n ih =>
    rw [encodeWord, decodeWord, ih, Option.map_some]
    exact congrArg some BitVec.extractLsb'_append_extractLsb'

/-- A word of `n` bytes, the lowest byte first. -/
def word (n : ℕ) : Codec (BitVec (8 * n)) where
  size := n
  encode := encodeWord n
  decode := decodeWord n
  length_encode := length_encodeWord n
  decode_encode := decodeWord_encodeWord n

def byte : Codec Byte := word 1

def word16 : Codec (BitVec 16) := word 2

def word32 : Codec (BitVec 32) := word 4

/-! ## Pairs and images -/

/-- A value of the second codec behind one of the first. -/
def prod (c : Codec α) (d : Codec β) : Codec (α × β) where
  size := c.size + d.size
  encode p := c.encode p.1 ++ d.encode p.2
  decode l := do
    let a ← c.decode (l.take c.size)
    let b ← d.decode (l.drop c.size)
    some (a, b)
  length_encode p := by rw [length_append, c.length_encode, d.length_encode]
  decode_encode p := by
    rw [take_left' (c.length_encode p.1), drop_left' (c.length_encode p.1),
      c.decode_encode, d.decode_encode]
    rfl

/-- The values are written as those of another type. -/
def map (c : Codec α) (write : β → α) (read : α → Option β) (h : ∀ b, read (write b) = some b) :
    Codec β where
  size := c.size
  encode b := c.encode (write b)
  decode l := (c.decode l).bind read
  length_encode b := c.length_encode (write b)
  decode_encode b := by rw [c.decode_encode, Option.bind_some, h]

def array4 (c : Codec α) : Codec (Fin 4 → α) :=
  (c.prod (c.prod (c.prod c))).map (fun v => (v 0, v 1, v 2, v 3))
    (fun t => some ![t.1, t.2.1, t.2.2.1, t.2.2.2]) fun v => by
      congr 1
      funext i
      fin_cases i <;> rfl
end Codec

/-! ## Buffers -/

namespace Buffer
variable (buffer data : List Byte) (offset size : ℕ)

/-- The bytes at an offset. -/
def read : Option (List Byte) :=
  if offset + size ≤ buffer.length then some ((buffer.drop offset).take size) else none

/-- The buffer with the data at an offset. -/
def write : Option (List Byte) :=
  if offset + data.length ≤ buffer.length then
    some (buffer.take offset ++ data ++ buffer.drop (offset + data.length))
  else none

variable {data}

theorem read_append (before data rest : List Byte) :
    read (before ++ data ++ rest) before.length data.length = some data := by
  unfold read
  rw [if_pos (by simp), List.append_assoc, List.drop_left, List.take_left]

theorem write_append (before : List Byte) {rest : List Byte} (h : data.length ≤ rest.length) :
    write (before ++ rest) data before.length = some (before ++ data ++ rest.drop data.length) := by
  unfold write
  rw [if_pos (by simpa using h), List.take_left, List.drop_append, Nat.add_sub_cancel_left,
    List.drop_eq_nil_of_le (Nat.le_add_right _ _), List.nil_append]
end Buffer
