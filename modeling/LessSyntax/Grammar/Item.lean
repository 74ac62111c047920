import LessSyntax.Grammar.Selector
import LessSyntax.Grammar.Value

/-!
# Items

Several kinds of items begin alike. They are tried in a fixed order, and each commits as soon
as it has read what tells it from the others: a declaration behind its colon, a call behind
its parentheses, a block behind its brace. After that a miss is a failure.

Blocks hold items one level deeper. As for calls, the number of levels that are left decides
whether a block may be read, and `innerItem? s levels` is the rule for the items in a block.

* `item`: any item, with one rule for each kind.
* `block`: items between braces.
* `stylesheet`: items one after the other.
-/

namespace LessSyntax.Grammar

open Rule

/-! ## Endings -/

/-- The end of a declaration or a call. The semicolon may be left out before a closing brace,
which is not read, and at the end of the text. -/
def terminator (s : Settings) : Rule (Option Text) :=
  choice
    [map some (symbol s [';']), map some (peek (symbol s ['}'])),
      map (fun _ => none) (token s (endOf "end of input"))]
    (some (quoted [';']))

/-- The word behind the exclamation mark, in any case. -/
def importantWord : List Char := ['i', 'm', 'p', 'o', 'r', 't', 'a', 'n', 't']

/-- Whether the value is marked as important. -/
def important (s : Settings) : Rule Bool := fun c =>
  (opt (symbol s ['!']) c).bind fun mark rest =>
    match mark with
    | none => .matched false rest
    | some _ =>
      (trivia s rest).bind fun _ start =>
        match name start with
        | .matched word stop =>
          if isLowered importantWord word.chars then .matched true stop
          else .missed start (quoted importantWord)
        | _ => .missed start (quoted importantWord)

def emptyParens (s : Settings) : Rule (Text × Text) := both (symbol s ['(']) (symbol s [')'])

def closeBlock (s : Settings) : Rule Text :=
  choice [symbol s ['}']] (some ("an item or " ++ quoted ['}']))

/-! ## Rules above the rule for inner items -/

/-- Items between braces. The opening brace commits. -/
def blockOver (s : Settings) (inner? : Option (Rule Item)) : Rule (List Item) := fun c =>
  (symbol s ['{'] c).bind fun _ rest =>
    match inner? with
    | none => .failed (rest.moveTo (rest.pos - 1)) (depthLabel s "blocks") "block"
    | some inner =>
      (cut (terminated (many inner) (closeBlock s)) "block" rest.nested).bind fun items stop =>
        .matched items (stop.withDepth c.depth)

def qualifiedRuleOver (s : Settings) (inner? : Option (Rule Item)) : Rule Item :=
  map (fun found => .rule found.1 found.2) (both (selectorGroup s) (blockOver s inner?))

def mixinDeclarationOver (s : Settings) (inner? : Option (Rule Item)) : Rule Item :=
  map (fun found => .mixin found.1 found.2)
    (both (terminated (token s mixinName) (emptyParens s)) (blockOver s inner?))

/-- A block that stands as a value. -/
def rulesetOver (s : Settings) (inner? : Option (Rule Item)) : Rule Value :=
  map Value.ruleset (blockOver s inner?)

/-- The value of a variable: a block or any other value. -/
def variableValueOver (s : Settings) (levels : Nat) (inner? : Option (Rule Item)) : Rule Value :=
  choice [rulesetOver s inner?, valueAt s levels] (some "value")

/-- What ends the declaration of a variable with the given value. Behind a block the semicolon
may be left out anywhere. -/
def variableEnd (s : Settings) : Value → Rule (Option Text)
  | .ruleset _ => opt (symbol s [';'])
  | _ => terminator s

def variableDeclarationOver (s : Settings) (levels : Nat) (inner? : Option (Rule Item)) :
    Rule Item := fun c =>
  (terminated (token s atName) (symbol s [':']) c).bind fun declared rest =>
    (cut (variableValueOver s levels inner?) "variable declaration" rest).bind fun found stop =>
      (cut (variableEnd s found) "variable declaration" stop).map fun _ =>
        .variable declared found

def declarationAt (s : Settings) (levels : Nat) : Rule Item := fun c =>
  (terminated (token s name) (symbol s [':']) c).bind fun declared rest =>
    (cut (both (valueAt s levels) (terminated (important s) (terminator s))) "declaration"
      rest).map fun found => .declaration declared found.1 found.2

def mixinCall (s : Settings) : Rule Item :=
  map Item.mixinCall
    (terminated (terminated (mixinPath s) (emptyParens s)) (cut (terminator s) "mixin call"))

def variableCall (s : Settings) : Rule Item :=
  map Item.variableCall
    (terminated (terminated (token s atName) (emptyParens s))
      (cut (terminator s) "variable call"))

def itemLabel : String := "a declaration, rule, mixin or variable"

def itemOver (s : Settings) (levels : Nat) (inner? : Option (Rule Item)) : Rule Item :=
  choice
    [mixinDeclarationOver s inner?, declarationAt s levels, mixinCall s,
      qualifiedRuleOver s inner?, variableDeclarationOver s levels inner?, variableCall s]
    (some itemLabel)

/-! ## All levels -/

/-- An item in a block that is read with the given number of levels left. -/
def innerItem? (s : Settings) : Nat → Option (Rule Item)
  | 0 => none
  | levels + 1 => some fun c => itemOver s levels (innerItem? s levels) c

def itemAt (s : Settings) (levels : Nat) : Rule Item := itemOver s levels (innerItem? s levels)

def item (s : Settings) : Rule Item := atLevel s (itemAt s)

def items (s : Settings) : Rule (List Item) := atLevel s fun levels => many (itemAt s levels)

def stylesheet (s : Settings) : Rule Stylesheet := map Stylesheet.mk (items s)

def block (s : Settings) : Rule (List Item) :=
  atLevel s fun levels => blockOver s (innerItem? s levels)

def declaration (s : Settings) : Rule Item := atLevel s (declarationAt s)

def qualifiedRule (s : Settings) : Rule Item :=
  atLevel s fun levels => qualifiedRuleOver s (innerItem? s levels)

def mixinDeclaration (s : Settings) : Rule Item :=
  atLevel s fun levels => mixinDeclarationOver s (innerItem? s levels)

def ruleset (s : Settings) : Rule Value :=
  atLevel s fun levels => rulesetOver s (innerItem? s levels)

def variableValue (s : Settings) : Rule Value :=
  atLevel s fun levels => variableValueOver s levels (innerItem? s levels)

def variableDeclaration (s : Settings) : Rule Item :=
  atLevel s fun levels => variableDeclarationOver s levels (innerItem? s levels)

end LessSyntax.Grammar
