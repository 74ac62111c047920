import LessSyntax.Unicode.Runs

/-!
# White space

The characters of general category `Zs` or bidirectional class `WS`, `B` or `S` in
Unicode 14.0.
-/

namespace LessSyntax.Unicode

def spaceRuns : Runs :=
  [(0x0009, 0x000D), (0x001C, 0x0020), (0x0085, 0x0085), (0x00A0, 0x00A0), (0x1680, 0x1680),
   (0x2000, 0x200A), (0x2028, 0x2029), (0x202F, 0x202F), (0x205F, 0x205F), (0x3000, 0x3000)]

def isSpace (c : Char) : Bool := spaceRuns.contains c.toNat

end LessSyntax.Unicode
