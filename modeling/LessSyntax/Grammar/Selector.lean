import LessSyntax.Grammar.Name
import LessSyntax.Grammar.Trivia
import LessSyntax.Tree.Basic

/-!
# Selectors

A selector is an identifier behind `#`, a class behind `.`, the name of an element, or `*`.
The selectors of a rule stand between commas; a comma commits. A mixin is named by classes and
identifiers, with or without `>` between them. A `>` behind which no name follows is left
unread.

* `selectorGroup`: the selectors of a rule.
* `mixinPath`: the name of a mixin where it is called.
* `mixinName`: the name of a mixin where it is defined, which is a single selector.
-/

namespace LessSyntax.Grammar

open Rule

def idSelector : Rule Selector := map (Selector.mk .byId) (nameAfter ['#'])

def classSelector : Rule Selector := map (Selector.mk .byClass) (nameAfter ['.'])

def typeSelector : Rule Selector := map (Selector.mk .byType) name

def universalSelector : Rule Selector := map (Selector.mk .universal) (literal ['*'])

def simpleSelector (s : Settings) : Rule Selector :=
  token s (choice [idSelector, classSelector, typeSelector, universalSelector] (some "selector"))

def selectorGroup (s : Settings) : Rule SelectorGroup :=
  separated1 (simpleSelector s) (symbol s [',']) "selector group"

/-- One step of the name of a mixin. -/
def mixinStep : Rule Selector := choice [classSelector, idSelector] (some "mixin selector")

def mixinName : Rule MixinPath := map (fun step => ⟨step, []⟩) mixinStep

/-- A further step, with or without `>` before it. -/
def mixinJoint (s : Settings) : Rule Selector :=
  preceded (opt (symbol s ['>'])) (token s mixinStep)

def mixinPath (s : Settings) : Rule MixinPath :=
  map (fun steps => ⟨steps.1, steps.2⟩) (both (token s mixinStep) (many (mixinJoint s)))

end LessSyntax.Grammar
