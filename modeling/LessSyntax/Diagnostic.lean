import LessSyntax.Source
import LessSyntax.Terminal

/-!
# Diagnostics

The report on a text that could not be read: what was expected, where, and by which rule.
`Diagnostic.toText` is its short form on one line. `Diagnostic.pretty` is its form for a
terminal, with colours, the line of the source and a caret under the column.
-/

namespace LessSyntax

structure Diagnostic where
  message : String
  offset : Int
  line : Int
  column : Int
  rule : Option String
  expected : Option String
  url : Option String
  sourceLine : List Char
  deriving DecidableEq

namespace Diagnostic

def location (d : Diagnostic) : String :=
  Source.displayName d.url ++ ":" ++ toString d.line ++ ":" ++ toString d.column

def toText (d : Diagnostic) : String := d.location ++ ": " ++ d.message

def spaces (count : Nat) : String := String.ofList (List.replicate count ' ')

/-- Spaces in place of the line number. -/
def gutter (d : Diagnostic) : String := spaces (toString d.line).length

open Terminal

/-- The line of the source behind its number. -/
def numberedLine (d : Diagnostic) (markup : String → String) : String :=
  markup (tagged "blue" (toString d.line ++ " |")) ++ " " ++ String.ofList d.sourceLine

/-- The caret under the column. -/
def caretLine (d : Diagnostic) (markup : String → String) : String :=
  d.gutter ++ markup (tagged "blue" " |") ++ " " ++ spaces (d.column - 1).toNat
    ++ markup (tagged "red" "^")

/-- The line of the source and the caret under it; left out where the line is empty. -/
def excerpt (d : Diagnostic) (markup : String → String) : List String :=
  if d.sourceLine.isEmpty then [] else [d.numberedLine markup, d.caretLine markup]

/-- The form for a terminal, with its colours by a markup. -/
def pretty (d : Diagnostic) (markup : String → String := Terminal.markup) : String :=
  "\n".intercalate
    ((markup (tagged "red" "error") ++ ": " ++ d.message)
      :: (d.gutter ++ markup (tagged "blue" "-->") ++ " " ++ d.location) :: d.excerpt markup)

end Diagnostic

end LessSyntax
