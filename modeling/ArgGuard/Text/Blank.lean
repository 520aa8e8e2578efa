/-
  ArgGuard.Text.Blank — the blanks that trimming removes.

  Tab, line feed, vertical tab, form feed, carriage return, the space separators of
  Unicode, U+2028, U+2029 and U+FEFF. U+0085, U+180E and U+200B are not among them.
-/

namespace ArgGuard.Text

def blankCodes : List Nat :=
  [0x09, 0x0A, 0x0B, 0x0C, 0x0D, 0x20, 0xA0, 0x1680, 0x2000, 0x2001, 0x2002, 0x2003, 0x2004,
    0x2005, 0x2006, 0x2007, 0x2008, 0x2009, 0x200A, 0x2028, 0x2029, 0x202F, 0x205F, 0x3000, 0xFEFF]

def isBlank (c : Char) : Bool := blankCodes.contains c.toNat

/-- A text without its leading blanks. -/
def trimLeft (cs : List Char) : List Char := cs.dropWhile isBlank

/-- A text without its leading and trailing blanks. -/
def trim (s : String) : String :=
  String.ofList (trimLeft (trimLeft s.toList).reverse).reverse

end ArgGuard.Text
