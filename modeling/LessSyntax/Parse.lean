import LessSyntax.Diagnostic
import LessSyntax.Grammar.Item
import LessSyntax.Unicode.Space

/-!
# Reading sources

A rule is applied to a whole source: it must read all of it, up to trivia at the end. The
answer is a value or one diagnostic, which says what was expected and what stands there
instead.

* `parse`: applies any rule.
* `Entry`: what a source may be read as; `Entry.parse` reads it.
* `parseStylesheet`, `parseItem`, `parseDeclaration`, `parseValue`, `parseSelectorGroup`: the
  same for each entry by name.
-/

namespace LessSyntax

variable {α : Type}

/-! ## Reports -/

/-- The most characters that a report shows of what it found. -/
def foundLimit : Nat := 12

/-- The characters that a report shows of what it found: none of them is white space. -/
def foundChars (ahead : List Char) : List Char :=
  (ahead.takeWhile fun c => !Unicode.isSpace c).take foundLimit

/-- What stands at a cursor. -/
def describe (c : Cursor) : String :=
  if c.atEnd then "end of input" else quoted (foundChars c.ahead)

/-- The report that at a cursor something else was expected, by a rule if one had committed. -/
def Source.report (source : Source) (place : Cursor) (expected : String)
    (rule : Option String) : Diagnostic :=
  let location := source.location place.pos
  let context := match rule with
    | some rule => " (in " ++ rule ++ ")"
    | none => ""
  ⟨"expected " ++ expected ++ ", found " ++ describe place ++ context, place.pos, location.line,
    location.column, rule, some expected, source.url, source.line location.line⟩

/-- The value of a match, and a report on anything else. -/
def Outcome.answer (source : Source) : Outcome α → Except Diagnostic α
  | .matched value _ => .ok value
  | .missed place expected => .error (source.report place expected none)
  | .failed place expected rule => .error (source.report place expected (some rule))

/-! ## Reading -/

/-- Applies a rule to all of a source. -/
def parse (s : Settings) (rule : Rule α) (source : Source) (expected : String) :
    Except Diagnostic α :=
  (Grammar.whole s rule expected (Cursor.ofText source.chars)).answer source

/-- What is expected behind a rule unless it says otherwise. -/
def endLabel : String := "end of input"

def parseStylesheet (s : Settings) (source : Source) : Except Diagnostic Stylesheet :=
  parse s (Grammar.stylesheet s) source Grammar.itemLabel

/-- Reads exactly one item. -/
def parseItem (s : Settings) (source : Source) : Except Diagnostic Item :=
  parse s (Grammar.item s) source endLabel

def parseDeclaration (s : Settings) (source : Source) : Except Diagnostic Item :=
  parse s (Grammar.declaration s) source endLabel

def parseValue (s : Settings) (source : Source) : Except Diagnostic Value :=
  parse s (Grammar.value s) source endLabel

def parseSelectorGroup (s : Settings) (source : Source) : Except Diagnostic SelectorGroup :=
  parse s (Grammar.selectorGroup s) source endLabel

/-! ## Entries -/

/-- What a source may be read as. -/
inductive Entry where
  | stylesheet
  | item
  | declaration
  | value
  | selectorGroup
  deriving DecidableEq

namespace Entry

def parse (entry : Entry) (s : Settings) (source : Source) : Except Diagnostic Tree :=
  match entry with
  | .stylesheet => (parseStylesheet s source).map Tree.stylesheet
  | .item => (parseItem s source).map Tree.item
  | .declaration => (parseDeclaration s source).map Tree.item
  | .value => (parseValue s source).map Tree.value
  | .selectorGroup => (parseSelectorGroup s source).map Tree.selectors

end Entry

end LessSyntax
