/-! One character as messages show it. -/

namespace Ferrite.Text

/-- Lowercase hexadecimal without leading zeros. -/
def hex (n : Nat) : String := String.ofList (Nat.toDigits 16 n)

def isPrintable (c : Char) : Bool := 0x20 ≤ c.toNat && c.toNat ≤ 0x7e

/-- Printable characters stand for themselves, quotes and the backslash after a backslash,
tab and line ends by their letters, all others by their number. -/
def escape (c : Char) : String :=
  if c = '\t' then "\\t"
  else if c = '\r' then "\\r"
  else if c = '\n' then "\\n"
  else if c = '\x27' || c = '\x22' || c = '\\' then String.ofList ['\\', c]
  else if isPrintable c then String.singleton c
  else "\\u\x7b" ++ hex c.toNat ++ "\x7d"

end Ferrite.Text
