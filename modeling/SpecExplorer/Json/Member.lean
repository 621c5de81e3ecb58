/-
# Members that may be missing

A description written by hand leaves out what is zero, empty, false or absent. These readers fill
that in, and a member of another type counts as missing.
-/
import SpecExplorer.Json.Basic

namespace SpecExplorer

namespace Json

/-- The member of a name, `null` where there is none. -/
def memberAt (j : Json) (name : String) : Json := (j.member? name).getD .null

def textAt? (j : Json) (name : String) : Option String := (j.member? name).bind string?

def textAt (j : Json) (name : String) : String := (j.textAt? name).getD ""

def countAt? (j : Json) (name : String) : Option Nat := (j.member? name).bind word?

def countAt (j : Json) (name : String) : Nat := (j.countAt? name).getD 0

def flagAt (j : Json) (name : String) : Bool := ((j.member? name).bind bool?).getD false

def itemsAt (j : Json) (name : String) : List Json := ((j.member? name).bind array?).getD []

/-- The texts of a list; other items count as empty. -/
def textsAt (j : Json) (name : String) : List String :=
  (j.itemsAt name).map fun item => item.string?.getD ""

end Json

end SpecExplorer
