/-
# Refresh tickets

Every refresh of a document holds a ticket. A newer refresh of the document cancels the one before,
so of a burst of edits only the last is outlined.
-/
import SpecExplorer.Table
import SpecExplorer.Uri.Basic

namespace SpecExplorer

structure RefreshTickets where
  next : Nat
  /-- The current ticket of each document. -/
  pending : Table Uri Nat
  cancelled : List Nat
  deriving Repr

namespace RefreshTickets

def empty : RefreshTickets := ⟨0, .empty, []⟩

def isPending (t : RefreshTickets) (uri : Uri) : Bool := t.pending.contains uri

def isCancelled (t : RefreshTickets) (ticket : Nat) : Bool := t.cancelled.contains ticket

/-- Cancels the current ticket of a document. -/
def cancel (t : RefreshTickets) (uri : Uri) : RefreshTickets :=
  match t.pending.get? uri with
  | none => t
  | some ticket =>
    { t with pending := t.pending.erase uri, cancelled := t.cancelled ++ [ticket] }

/-- Issues a ticket for a document. -/
def schedule (t : RefreshTickets) (uri : Uri) : RefreshTickets × Nat :=
  let t := t.cancel uri
  ({ t with next := t.next + 1, pending := t.pending.put uri t.next }, t.next)

/-- Hands a ticket back. One that was superseded leaves the newer one in place. -/
def complete (t : RefreshTickets) (uri : Uri) (ticket : Nat) : RefreshTickets :=
  if t.pending.get? uri = some ticket then { t with pending := t.pending.erase uri } else t

def cancelAll (t : RefreshTickets) : RefreshTickets :=
  { t with
    pending := .empty
    cancelled := t.cancelled ++ t.pending.entries.map (·.2) }

end RefreshTickets

end SpecExplorer
