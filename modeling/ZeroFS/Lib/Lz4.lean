import Mathlib.Algebra.Order.Ring.Int

/-!
# The LZ4 block format

A block is a list of sequences: a token with the two lengths, literals, and (in all but the last) a match that copies
from the output. A match never reaches before the start of the output.
-/

namespace Lz4

/-- The extension bytes of a length: 255 says that one more follows. -/
def extend (n : Nat) : List UInt8 → Option (Nat × List UInt8)
  | [] => none
  | b :: rest => if b = 255 then extend (n + 255) rest else some (n + b.toNat, rest)

/-- A length: half a token, extended when it is 15. -/
def readLength (nibble : Nat) (rest : List UInt8) : Option (Nat × List UInt8) :=
  if nibble = 15 then extend 15 rest else some (nibble, rest)

/-- Copies `n` bytes from `offset` bytes back; the copy may read what it has written. -/
def copyMatch (offset : Nat) : Nat → List UInt8 → List UInt8
  | 0, out => out
  | n + 1, out => copyMatch offset n (out ++ [out.getD (out.length - offset) 0])

/-- Decodes sequences after `out`. Every sequence takes its token, so the block's length is fuel enough. -/
def sequences : Nat → List UInt8 → List UInt8 → Option (List UInt8)
  | fuel + 1, out, token :: rest => do
    let (literals, rest) ← readLength (token.toNat / 16) rest
    guard (literals ≤ rest.length)
    let out := out ++ rest.take literals
    match rest.drop literals with
    | [] => some out
    | [_] => none
    | lo :: hi :: rest =>
      let offset := lo.toNat + 256 * hi.toNat
      guard (0 < offset ∧ offset ≤ out.length)
      let (n, rest) ← readLength (token.toNat % 16) rest
      sequences fuel (copyMatch offset (n + 4) out) rest
  | _, _, _ => none

def decode (block : List UInt8) : Option (List UInt8) := sequences block.length [] block

/-- After two literals no match offset can have a low byte above 2. -/
theorem decode_far_match {token a b lo : UInt8} (htoken : token.toNat / 16 = 2) (hlo : 2 < lo.toNat)
    (rest : List UInt8) : decode (token :: a :: b :: lo :: rest) = none := by
  cases rest with
  | nil => simp [decode, sequences, readLength, htoken, guard]
  | cons hi rest =>
    have hfar : ¬lo.toNat + 256 * hi.toNat ≤ 2 := by omega
    simp [decode, sequences, readLength, htoken, guard, hfar]

/-- The bytes that extend a length by `n`. -/
def lengthBytes (n : Nat) : List UInt8 := List.replicate (n / 255) 255 ++ [UInt8.ofNat (n % 255)]

theorem extend_lengthBytes (n m : Nat) (rest : List UInt8) : extend m (lengthBytes n ++ rest) = some (m + n, rest) := by
  have hlast : (UInt8.ofNat (n % 255)).toNat = n % 255 := by simp; omega
  have hne : UInt8.ofNat (n % 255) ≠ 255 := fun h => by
    have := congrArg UInt8.toNat h
    simp at this
    omega
  have hrep : ∀ (k m : Nat) (l : List UInt8), extend m (List.replicate k 255 ++ l) = extend (m + 255 * k) l := by
    intro k
    induction k with
    | zero => simp
    | succ k ih =>
      intro m l
      rw [List.replicate_succ, List.cons_append, extend, if_pos rfl, ih]
      congr 1
      omega
  rw [lengthBytes, List.append_assoc, hrep, List.singleton_append, extend, if_neg hne, hlast]
  congr 2
  omega

/-- An encoder that only emits literals. -/
def store (data : List UInt8) : List UInt8 :=
  if data.length < 15 then UInt8.ofNat (16 * data.length) :: data else 240 :: (lengthBytes (data.length - 15) ++ data)

theorem decode_store (data : List UInt8) : decode (store data) = some data := by
  unfold store
  split
  · rename_i h
    have htoken : 16 * data.length % 256 / 16 = data.length := by omega
    simp [decode, sequences, readLength, htoken, guard, Nat.ne_of_lt h]
  · have hlen : 15 + (data.length - 15) = data.length := by omega
    simp [decode, sequences, readLength, extend_lengthBytes, hlen, guard]

end Lz4
