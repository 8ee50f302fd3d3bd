/-! Numbers as bytes of seven bits, the lowest first, each but the last with its high bit set. -/

namespace Ferrite.Wasm

/-- As few bytes as the number needs. -/
def leb (n : Nat) : List UInt8 :=
  if n < 128 then [n.toUInt8] else (n % 128 + 128).toUInt8 :: leb (n / 128)
termination_by n
decreasing_by omega

/-- Two's complement; the second highest bit of the last byte is the sign. -/
def sleb (n : Int) : List UInt8 :=
  let low := (n % 128).toNat
  if -64 ≤ n ∧ n < 64 then [low.toUInt8] else (low + 128).toUInt8 :: sleb (n / 128)
termination_by n.natAbs
decreasing_by omega

/-- So many bytes, the lowest first. -/
def littleEndian : Nat → Nat → List UInt8
  | 0, _ => []
  | k + 1, n => (n % 256).toUInt8 :: littleEndian k (n / 256)

end Ferrite.Wasm
