/-
  ArgGuard.Text.Quoted — quoted text.

  A quote and a backslash are written behind a backslash, the controls U+0000 to U+001F as
  one of five short escapes or as four hexadecimal digits, all else as it stands. Names of
  parameters, enumerated strings and canonical keys are written this way.
-/

namespace ArgGuard.Text.Quoted

/-- Four hexadecimal digits, as controls need them. -/
def hex4 (n : Nat) : List Char :=
  [Nat.digitChar (n / 4096 % 16), Nat.digitChar (n / 256 % 16), Nat.digitChar (n / 16 % 16),
    Nat.digitChar (n % 16)]

/-- The written form of one character. -/
def escapeChar (c : Char) : List Char :=
  if c = '"' then ['\\', '"']
  else if c = '\\' then ['\\', '\\']
  else if c = '\x08' then ['\\', 'b']
  else if c = '\t' then ['\\', 't']
  else if c = '\n' then ['\\', 'n']
  else if c = '\x0c' then ['\\', 'f']
  else if c = '\r' then ['\\', 'r']
  else if c.toNat < 0x20 then '\\' :: 'u' :: hex4 c.toNat
  else [c]

def escape (cs : List Char) : List Char := cs.flatMap escapeChar

/-- The quoted form of a text. -/
def quote (s : String) : String := String.ofList ('"' :: (escape s.toList ++ ['"']))

def hexDigit? (c : Char) : Option Nat :=
  if '0' ≤ c ∧ c ≤ '9' then some (c.toNat - '0'.toNat)
  else if 'a' ≤ c ∧ c ≤ 'f' then some (c.toNat - 'a'.toNat + 10)
  else none

/-- Reads what stands between the quotes; `none` for a stray quote, a raw control or an
escape that is never written. -/
def unescape : List Char → Option (List Char)
  | [] => some []
  | '\\' :: '"' :: r => (unescape r).map ('"' :: ·)
  | '\\' :: '\\' :: r => (unescape r).map ('\\' :: ·)
  | '\\' :: 'b' :: r => (unescape r).map ('\x08' :: ·)
  | '\\' :: 't' :: r => (unescape r).map ('\t' :: ·)
  | '\\' :: 'n' :: r => (unescape r).map ('\n' :: ·)
  | '\\' :: 'f' :: r => (unescape r).map ('\x0c' :: ·)
  | '\\' :: 'r' :: r => (unescape r).map ('\r' :: ·)
  | '\\' :: 'u' :: a :: b :: c :: d :: r => do
      let n ← (do some (4096 * (← hexDigit? a) + 256 * (← hexDigit? b) + 16 * (← hexDigit? c)
        + (← hexDigit? d)))
      if n < 0x20 then (unescape r).map (Char.ofNat n :: ·) else none
  | c :: r => if c = '"' ∨ c = '\\' ∨ c.toNat < 0x20 then none else (unescape r).map (c :: ·)

end ArgGuard.Text.Quoted
