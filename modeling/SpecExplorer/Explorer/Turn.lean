/-
# Turns

The work of the explorer is done in activities that take turns. In a turn an activity holds the
state alone; then it waits for the state again, for a time, for a ticket or a click to be given up,
or for an invocation to end. What it wants done outside of the state it says as effects.
-/
import SpecExplorer.Explorer.Basic
import SpecExplorer.Tool.Machine

namespace SpecExplorer

/-- What an activity waits for. -/
inductive Wait where
  /-- The state, which is granted in the order of asking. -/
  | state
  | time (due : Nat)
  /-- A refresh ticket is cancelled, or it is time. -/
  | ticket (ticket due : Nat)
  /-- A click is dropped, or it is time. -/
  | click (id due : Nat)
  /-- An invocation of the outline provider ends. -/
  | invocation (ticket : Nat)
  deriving DecidableEq, Repr

/-- What an activity wants done. -/
inductive Effect where
  | tell (message : ClientMessage)
  /-- Start an invocation under a ticket. -/
  | invoke (ticket : Nat) (request : OutlineRequest)
  /-- Keep the note of a call of the tool. -/
  | note (lines : List String)
  deriving Repr

/-- How an activity goes on. -/
inductive Next (φ ρ : Type) where
  /-- At once, in the same turn. -/
  | go (phase : φ)
  | wait (moment : Wait) (phase : φ)
  | done (answer : ρ)
  deriving Repr

/-- What an activity sees besides the state. -/
structure Surroundings where
  machine : Machine
  now : Nat
  /-- How the invocation under a ticket ended, once it has. -/
  ended : Nat → Option (Except OutlineFault Outline)

/-- The outcome of a turn. -/
structure Turn (φ ρ : Type) where
  explorer : Explorer
  effects : List Effect
  next : Next φ ρ
  deriving Repr

namespace Next

/-- Translates phases and answers. -/
def map {φ φ' ρ ρ' : Type} (f : φ → φ') (g : ρ → Next φ' ρ') : Next φ ρ → Next φ' ρ'
  | .go phase => .go (f phase)
  | .wait w phase => .wait w (f phase)
  | .done answer => g answer

end Next

namespace Turn

/-- A turn as part of a larger activity, which goes on by `g` once the part is done. -/
def within {φ φ' ρ ρ' : Type} (t : Turn φ ρ) (f : φ → φ') (g : ρ → Next φ' ρ') : Turn φ' ρ' where
  explorer := t.explorer
  effects := t.effects
  next := t.next.map f g

end Turn

/-! ### Telling the client -/

/-- How the tool is installed. -/
def installCommand : String := "go install github.com/onsi/ginkgo/v2/ginkgo@latest"

/-- The hint for a missing executable. -/
def installHint (path : FilePath) : String :=
  "Ginkgo was not found at '" ++ path.display ++ "'. Install it with `" ++ installCommand ++
    "` or set ginkgo.path."

/-- The hint is shown once for every place. -/
def Explorer.offer (e : Explorer) (path : FilePath) : Explorer × List Effect :=
  let (e, first) := e.offerInstall path
  (e, if first then [.tell (.showMessage .warning (installHint path))] else [])

/-- The client is asked to refresh its lenses, if it can be. -/
def Explorer.relight (e : Explorer) : List Effect :=
  if e.lensRefresh then [.tell .refreshLenses] else []

end SpecExplorer
