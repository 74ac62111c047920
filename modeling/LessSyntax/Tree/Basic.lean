import LessSyntax.OneOrMore
import LessSyntax.Text.Basic

/-!
# Syntax trees

A stylesheet is a list of items. An item declares or calls something: a property, a rule, a
mixin or a variable. Values stand on the right of declarations; a value can be a block of
items (`Value.ruleset`), so that values and items are defined together.

Two conditions are part of the types. Groups of selectors and paths of mixins are never empty
(`OneOrMore`). A string with interpolations is its first segment followed by pairs of an
interpolation and a segment, so that it always has one segment more than it has
interpolations. `Value.ofSegments`, `SelectorGroup.ofSelectors` and `MixinPath.ofSelectors`
build such trees from plain lists and refuse the others with a `ShapeError`.

* `Value.segments_ofSegments`: a string built from segments and interpolations has exactly
  these segments and interpolations.
-/

namespace LessSyntax

/-- What stands on either side of a string literal. Stylesheets know two marks, `Quote.single`
and `Quote.double`; trees may be built with any text in their place. -/
structure Quote where
  chars : List Char
  deriving DecidableEq

namespace Quote

def single : Quote := ⟨['\'']⟩

def double : Quote := ⟨['"']⟩

end Quote

/-- A reference inside a string: `@{name}` or `${name}`. -/
inductive Interpolation where
  | variable (name : Text)
  | property (name : Text)
  deriving DecidableEq

inductive Separator where
  | space
  | comma
  | slash
  deriving DecidableEq

def Separator.char : Separator → Char
  | .space => ' '
  | .comma => ','
  | .slash => '/'

inductive SelectorKind where
  | byId
  | byClass
  | byType
  | universal
  deriving DecidableEq

structure Selector where
  kind : SelectorKind
  name : Text
  deriving DecidableEq

/-- The selectors that name a mixin, outermost namespace first. -/
abbrev MixinPath := OneOrMore Selector

/-- The selectors of a rule. -/
abbrev SelectorGroup := OneOrMore Selector

mutual

inductive Value where
  | string (text : Text) (quote : Quote)
  | interpolated (first : Text) (parts : List (Interpolation × Text)) (quote : Quote)
  | number (value : Text) (unit : Option Text)
  /-- A colour, without its `#`. -/
  | color (hex : Text)
  | identifier (name : Text)
  | variable (name : Text)
  | property (name : Text)
  | call (name : Text) (arguments : List Value)
  /-- The address in an unquoted `url(...)`. -/
  | url (address : Text)
  | list (values : List Value) (separator : Separator)
  /-- A block of items that stands as the value of a variable. -/
  | ruleset (block : List Item)

inductive Item where
  | declaration (name : Text) (value : Value) (important : Bool)
  | rule (selectors : SelectorGroup) (block : List Item)
  | mixin (path : MixinPath) (block : List Item)
  | mixinCall (path : MixinPath)
  | variable (name : Text) (value : Value)
  | variableCall (name : Text)

end

structure Stylesheet where
  items : List Item

/-- Anything that can be read, shown or compared. -/
inductive Tree where
  | interpolation (interpolation : Interpolation)
  | value (value : Value)
  | selector (selector : Selector)
  | selectors (group : SelectorGroup)
  | mixinPath (path : MixinPath)
  | item (item : Item)
  | stylesheet (stylesheet : Stylesheet)

namespace Interpolation

def name : Interpolation → Text
  | .variable name => name
  | .property name => name

end Interpolation

/-! ## Building from lists -/

/-- Why lists do not make up a tree. -/
inductive ShapeError where
  | segmentCount (segments interpolations : Nat)
  | emptyMixinPath
  | emptySelectorGroup
  deriving DecidableEq

def ShapeError.message : ShapeError → String
  | .segmentCount segments interpolations =>
    "Expected " ++ toString (interpolations + 1) ++ " segments for "
      ++ toString interpolations ++ " interpolations, got " ++ toString segments
  | .emptyMixinPath => "A mixin selector needs at least one selector"
  | .emptySelectorGroup => "A selector group needs at least one selector"

/-- The selectors of a rule, from a list. -/
def SelectorGroup.ofSelectors (selectors : List Selector) : Except ShapeError SelectorGroup :=
  match OneOrMore.ofList? selectors with
  | some group => .ok group
  | none => .error .emptySelectorGroup

/-- The path of a mixin, from a list. -/
def MixinPath.ofSelectors (selectors : List Selector) : Except ShapeError MixinPath :=
  match OneOrMore.ofList? selectors with
  | some path => .ok path
  | none => .error .emptyMixinPath

namespace Value

/-- A string with the given segments around the given interpolations. -/
def ofSegments (segments : List Text) (interpolations : List Interpolation) (quote : Quote) :
    Except ShapeError Value :=
  match segments with
  | first :: others =>
    if others.length = interpolations.length then
      .ok (.interpolated first (interpolations.zip others) quote)
    else .error (.segmentCount segments.length interpolations.length)
  | [] => .error (.segmentCount 0 interpolations.length)

/-- The segments of a string, first to last; other values have none. -/
def segments : Value → List Text
  | .interpolated first parts _ => first :: parts.map Prod.snd
  | _ => []

def interpolations : Value → List Interpolation
  | .interpolated _ parts _ => parts.map Prod.fst
  | _ => []

theorem segments_ofSegments {ts : List Text} {is : List Interpolation} {quote : Quote}
    {v : Value} (h : ofSegments ts is quote = .ok v) :
    v.segments = ts ∧ v.interpolations = is := by
  cases ts with
  | nil => cases h
  | cons first others =>
    rw [ofSegments] at h
    split at h
    · cases h
      rename_i hlen
      simp [segments, interpolations, List.map_snd_zip, List.map_fst_zip, hlen]
    · cases h

end Value

end LessSyntax
