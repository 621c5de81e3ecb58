/-
# Clicks

A click waits for a second one on the same target. If that comes in time the two are a double
click, which acts through the second; else the click acts on its own when its time is up.
-/
import SpecExplorer.Key.Basic
import SpecExplorer.Table
import SpecExplorer.Uri.Basic

namespace SpecExplorer

/-- What a click asks for. -/
inductive ClickAction where
  /-- Run the node. -/
  | run
  /-- Open or close the node. -/
  | expand
  deriving DecidableEq, Repr

structure ClickTarget where
  uri : Uri
  key : NodeKey
  deriving DecidableEq, Repr

structure ClickTracker where
  next : Nat
  /-- The click that waits on each target. -/
  waiting : Table ClickTarget Nat
  /-- Clicks that were used up by a second one, or dropped. -/
  dropped : List Nat
  deriving Repr

/-- What became of a click at once. -/
inductive Pressed where
  /-- It is the second of a double click. -/
  | double
  /-- It waits under this number. -/
  | first (id : Nat)
  deriving DecidableEq, Repr

namespace ClickTracker

def empty : ClickTracker := ⟨0, .empty, []⟩

def isDropped (t : ClickTracker) (id : Nat) : Bool := t.dropped.contains id

/-- Takes a click. -/
def press (t : ClickTracker) (target : ClickTarget) : ClickTracker × Pressed :=
  match t.waiting.get? target with
  | some id =>
    ({ t with waiting := t.waiting.erase target, dropped := t.dropped ++ [id] }, .double)
  | none =>
    ({ t with next := t.next + 1, waiting := t.waiting.put target t.next }, .first t.next)

/-- The time of a click is up. -/
def expire (t : ClickTracker) (target : ClickTarget) (id : Nat) : ClickTracker :=
  if t.waiting.get? target = some id then { t with waiting := t.waiting.erase target } else t

/-- Drops every click that waits. -/
def cancelAll (t : ClickTracker) : ClickTracker :=
  { t with
    waiting := .empty
    dropped := t.dropped ++ t.waiting.entries.map (·.2) }

end ClickTracker

end SpecExplorer
