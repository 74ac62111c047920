import LessSyntax.Grammar.Color
import LessSyntax.Grammar.Number
import LessSyntax.Grammar.StringLiteral
import LessSyntax.Grammar.Trivia
import LessSyntax.Grammar.Url

/-!
# Values

A value is a list of lists of lists: commas bind least, then blanks, then slashes. A list of
one element is that element. The innermost elements are strings, colours, numbers, addresses,
calls, references and names, tried in this order.

The arguments of a call are lists again, one level deeper. The number of levels that are left
decides whether a call may be read at all, and the rules are defined by recursion on it:
`argument? s levels` is the rule for an argument inside a call, and absent when no level is
left. `atLevel` turns such a family of rules into one that takes the number of levels from the
cursor.

* `value`: a value, with `slashList`, `spaceList` and `primitive` below it.
* `call`: a call.
-/

namespace LessSyntax.Grammar

open Rule

variable {α : Type}

/-- The number of blocks and calls that may still be opened. -/
def levelsLeft (s : Settings) (c : Cursor) : Nat := (s.maxDepth - c.depth).toNat

def atLevel (s : Settings) (rule : Nat → Rule α) : Rule α := fun c => rule (levelsLeft s c) c

/-- What is expected instead of one level too many. -/
def depthLabel (s : Settings) (what : String) : String :=
  "at most " ++ toString s.maxDepth ++ " nested " ++ what

/-- A list of one element is that element. -/
def collapse (separator : Separator) : OneOrMore Value → Value
  | ⟨value, []⟩ => value
  | values => .list values.toList separator

/-! ## Rules above the rule for arguments -/

/-- The arguments of a call and its closing parenthesis. -/
def arguments (s : Settings) (argument : Rule Value) : Rule (List Value) :=
  map (fun found => (found.map OneOrMore.toList).getD [])
    (cut (terminated (opt (separated1 argument (symbol s [',']) "function")) (symbol s [')']))
      "function")

/-- A name with arguments. The opening parenthesis commits. -/
def callOver (s : Settings) (argument? : Option (Rule Value)) : Rule Value := fun c =>
  match name c with
  | .matched callee rest =>
    if rest.startsWith ['('] then
      match argument? with
      | none => .failed rest (depthLabel s "calls") "function"
      | some argument =>
        (arguments s argument (rest.advance 1).nested).bind fun found stop =>
          .matched (.call callee found) (stop.withDepth c.depth)
    else .missed c "function"
  | _ => .missed c "function"

def primitiveOver (s : Settings) (argument? : Option (Rule Value)) : Rule Value :=
  token s (choice
    [quotedString, color, number, url, callOver s argument?, map Value.variable atName,
      map Value.property (nameAfter ['$']), map Value.identifier name]
    (some "value"))

def slashListOver (s : Settings) (argument? : Option (Rule Value)) : Rule Value :=
  map (collapse .slash) (separated1 (primitiveOver s argument?) (symbol s ['/']) "value list")

def spaceListOver (s : Settings) (argument? : Option (Rule Value)) : Rule Value :=
  map (collapse .space) (many1 (slashListOver s argument?))

def commaListOver (s : Settings) (argument? : Option (Rule Value)) : Rule Value :=
  map (collapse .comma) (separated1 (spaceListOver s argument?) (symbol s [',']) "value list")

/-! ## All levels -/

/-- An argument of a call that is read with the given number of levels left. -/
def argument? (s : Settings) : Nat → Option (Rule Value)
  | 0 => none
  | levels + 1 => some fun c => spaceListOver s (argument? s levels) c

def valueAt (s : Settings) (levels : Nat) : Rule Value := commaListOver s (argument? s levels)

def call (s : Settings) : Rule Value := atLevel s fun levels => callOver s (argument? s levels)

def primitive (s : Settings) : Rule Value :=
  atLevel s fun levels => primitiveOver s (argument? s levels)

def slashList (s : Settings) : Rule Value :=
  atLevel s fun levels => slashListOver s (argument? s levels)

def spaceList (s : Settings) : Rule Value :=
  atLevel s fun levels => spaceListOver s (argument? s levels)

def value (s : Settings) : Rule Value := atLevel s (valueAt s)

end LessSyntax.Grammar
