/-
# Settings

What the client configures: the executable, how long an outline is kept, which events refresh a
document, the delays of typing and clicking, and the arguments of a run. Settings arrive as one
JSON value, and only its section `ginkgo` is read. A member of the wrong type, or one that names no
mode, leaves the default in place, so reading never fails once the section is there.
-/
import SpecExplorer.FilePath
import SpecExplorer.Json.Basic

namespace SpecExplorer

/-- Which events make the explorer outline a document again. -/
inductive RefreshMode where
  | onSave
  | onType
  | manual
  deriving DecidableEq, Repr

/-- The event that asks for an outline. -/
inductive RefreshTrigger where
  | opened
  | change
  | save
  | manual
  deriving DecidableEq, Repr

namespace RefreshMode

/-- Opening and asking always refresh, saving unless by hand only, typing only while typing is
watched. -/
def accepts : RefreshMode → RefreshTrigger → Bool
  | _, .opened => true
  | _, .manual => true
  | mode, .save => mode != .manual
  | mode, .change => mode == .onType

/-- A mode by one of its names in any case of ASCII letters. No other letter has an ASCII
lower-case form that occurs in a name. -/
def ofName? (name : String) : Option RefreshMode :=
  match name.toLower with
  | "onsave" | "save" => some .onSave
  | "ontype" | "type" => some .onType
  | "manual" | "off" => some .manual
  | _ => none

end RefreshMode

/-- The settings in force. Times are in milliseconds. -/
structure Settings where
  toolPath : FilePath
  outlineTtl : Nat
  refreshMode : RefreshMode
  debounce : Nat
  clickThreshold : Nat
  lensesEnabled : Bool
  runArgs : List String
  deriving DecidableEq, Repr

namespace Settings

def default : Settings where
  toolPath := .ofString "ginkgo"
  outlineTtl := 60000
  refreshMode := .onType
  debounce := 300
  clickThreshold := 400
  lensesEnabled := true
  runArgs := []

/-- Whether another executable is named, so that its outlines count no longer. -/
def providerChanged (a b : Settings) : Bool := !a.toolPath.same b.toolPath

/-- Whether two settings mean the same. -/
def same (a b : Settings) : Bool :=
  a.toolPath.same b.toolPath && { a with toolPath := b.toolPath } == b

/-- A text that can be handed to another program: it is not empty and holds no NUL. -/
def isArgument (s : String) : Bool := !s.isEmpty && !s.toList.contains '\x00'

def path? (j : Json) : Option FilePath := do
  let s ← j.string?
  if isArgument s then some (.ofString s) else none

def mode? (j : Json) : Option RefreshMode := j.string?.bind RefreshMode.ofName?

/-- The texts of a list that can be arguments; other items are left out. -/
def arguments? (j : Json) : Option (List String) :=
  j.array?.map fun items => (items.filterMap Json.string?).filter isArgument

/-- The member of a section as far as it can be read. -/
def setting {α : Type} (part : Json) (name : String) (read : Json → Option α) (default : α) : α :=
  ((part.member? name).bind read).getD default

/-- The settings of one section. -/
def ofSection (part : Json) : Settings where
  toolPath := setting part "path" path? default.toolPath
  outlineTtl := setting part "outlineCacheTtlMs" Json.word? default.outlineTtl
  refreshMode := setting part "refreshMode" mode? default.refreshMode
  debounce := setting part "debounceMs" Json.word? default.debounce
  clickThreshold := setting part "doubleClickThresholdMs" Json.word? default.clickThreshold
  lensesEnabled := setting part "codeLens" Json.bool? default.lensesEnabled
  runArgs := setting part "runArgs" arguments? default.runArgs

/-- The settings of the explorer's section, `none` when there is no such section. -/
def read? (settings : Json) : Option Settings := (settings.member? "ginkgo").map ofSection

end Settings

end SpecExplorer
