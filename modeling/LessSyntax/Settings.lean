import LessSyntax.Numeral.Basic
import LessSyntax.Text.Quoted

/-!
# Settings

How deep blocks and calls may be nested, and whether `//` begins a comment. Settings are read
from named options: an unknown name is refused first, then a depth that is no positive
integer, then one beyond the ceiling. Of the option for comments only the truth counts, and any
value will do.

* `Options.ofGiven`: fills in the options that are not given.
* `Settings.ofOptions`: the settings that given options stand for.
* `Settings.ofOptions_depth`: settings that were read allow a depth from one to the ceiling.
-/

namespace LessSyntax

/-- The settings that reading depends on. -/
structure Settings where
  maxDepth : Nat
  lineComments : Bool
  deriving DecidableEq

/-! ## Values of options -/

/-- The value of an option as it was given. -/
inductive OptionValue where
  | absent
  | flag (value : Bool)
  | number (value : Numeral)
  | text (value : List Char)
  | list (values : List OptionValue)
  /-- Named values, in the order in which they were given. -/
  | fields (entries : List (String × OptionValue))

namespace OptionValue

/-- Zero, nothing, and whatever is empty count as false. -/
def truth : OptionValue → Bool
  | .absent => false
  | .flag value => value
  | .number (.integer value) => value != 0
  | .number (.double bits) => Binary64.magnitude bits != 0
  | .text value => !value.isEmpty
  | .list values => !values.isEmpty
  | .fields entries => !entries.isEmpty

mutual

def debug : OptionValue → String
  | .absent => "None"
  | .flag true => "True"
  | .flag false => "False"
  | .number value => value.toText
  | .text value => quoted value
  | .list values => "[" ++ ", ".intercalate (debugAll values) ++ "]"
  | .fields entries => "\x7b" ++ ", ".intercalate (debugFields entries) ++ "\x7d"

def debugAll : List OptionValue → List String
  | [] => []
  | value :: values => debug value :: debugAll values

def debugFields : List (String × OptionValue) → List String
  | [] => []
  | (name, value) :: entries =>
    (quoted name.toList ++ ": " ++ debug value) :: debugFields entries

end

end OptionValue

/-! ## Refusals -/

inductive SettingsError where
  /-- Names that are no options. -/
  | unknown (names : List String)
  /-- A depth that is no positive integer. -/
  | notPositive (depth : OptionValue)
  | beyondCeiling (depth : Nat)

namespace Settings

/-- The number of stack frames that a reader may use. -/
def frameLimit : Nat := 1000

/-- The number of stack frames that one level of nesting may take. -/
def framesPerLevel : Nat := 20

/-- The greatest depth that may be asked for. -/
def depthCeiling : Nat := frameLimit / framesPerLevel

end Settings

def SettingsError.message : SettingsError → String
  | .unknown names => "Unknown parser options: " ++ ", ".intercalate names
  | .notPositive depth => "max_depth must be a positive integer, got " ++ depth.debug
  | .beyondCeiling depth =>
    "max_depth " ++ toString depth ++ " exceeds " ++ toString Settings.depthCeiling
      ++ ", the deepest nesting recursion limit " ++ toString Settings.frameLimit ++ " allows"

/-! ## Reading options -/

/-- All options: a depth that is allowed, and the value for comments as it was given. -/
structure Options where
  maxDepth : Nat
  lineComments : OptionValue

namespace Options

def default : Options := ⟨32, .flag true⟩

def depthName : String := "max_depth"

def commentsName : String := "line_comments"

/-- The names that are no options, in the order of their code points. -/
def unknownNames (given : List (String × OptionValue)) : List String :=
  ((given.map Prod.fst).filter fun name => name != depthName && name != commentsName).mergeSort
    fun a b => !decide (b < a)

/-- The depth that an option asks for. -/
def readDepth : OptionValue → Except SettingsError Nat
  | .number (.integer (.ofNat (depth + 1))) =>
    if depth + 1 ≤ Settings.depthCeiling then .ok (depth + 1)
    else .error (.beyondCeiling (depth + 1))
  | value => .error (.notPositive value)

/-- The options as they were given, with the defaults for the others. -/
def ofGiven (given : List (String × OptionValue)) : Except SettingsError Options :=
  match unknownNames given with
  | [] =>
    let lineComments := (given.lookup commentsName).getD default.lineComments
    match given.lookup depthName with
    | none => .ok ⟨default.maxDepth, lineComments⟩
    | some value => (readDepth value).map (⟨·, lineComments⟩)
  | names => .error (.unknown names)

def settings (options : Options) : Settings := ⟨options.maxDepth, options.lineComments.truth⟩

theorem readDepth_bounds {value : OptionValue} {depth : Nat} (h : readDepth value = .ok depth) :
    1 ≤ depth ∧ depth ≤ Settings.depthCeiling := by
  unfold readDepth at h
  split at h
  · split at h
    · cases h
      omega
    · cases h
  · cases h

theorem ofGiven_depth {given : List (String × OptionValue)} {options : Options}
    (h : ofGiven given = .ok options) :
    1 ≤ options.maxDepth ∧ options.maxDepth ≤ Settings.depthCeiling := by
  unfold ofGiven at h
  split at h
  · dsimp only at h
    split at h
    · cases h
      exact (by decide : 1 ≤ default.maxDepth ∧ default.maxDepth ≤ Settings.depthCeiling)
    · rename_i value _
      cases hd : readDepth value with
      | error e => rw [hd] at h; cases h
      | ok depth =>
        rw [hd] at h
        cases h
        exact readDepth_bounds hd
  · cases h

end Options

namespace Settings

def default : Settings := Options.default.settings

def ofOptions (given : List (String × OptionValue)) : Except SettingsError Settings :=
  (Options.ofGiven given).map Options.settings

theorem ofOptions_depth {given : List (String × OptionValue)} {s : Settings}
    (h : ofOptions given = .ok s) : 1 ≤ s.maxDepth ∧ s.maxDepth ≤ depthCeiling := by
  unfold ofOptions at h
  cases hgiven : Options.ofGiven given with
  | error e => rw [hgiven] at h; cases h
  | ok options =>
    rw [hgiven] at h
    cases h
    exact Options.ofGiven_depth hgiven

end Settings

end LessSyntax
