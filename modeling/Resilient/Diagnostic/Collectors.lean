import Resilient.Diagnostic

/-!
# Collectors of diagnostics

Reports are gathered by collectors, which are known by handles, numbered from 0. The collectors of
a `Gallery` are independent: a copy starts with the reports of the collector copied, and neither
sees later reports to the other. In a `Pool` handles can share a collector: a report through one of
them is seen by all, and reports taken through one are gone for all.
-/

namespace Resilient

/-- Reports in the order in which they were made. -/
abbrev Diagnostics := List Diagnostic

/-- Independent collectors. -/
structure Gallery where
  /-- The reports of each handle. -/
  collectors : List Diagnostics

namespace Gallery

/-- One handle without reports. -/
def start : Gallery := ⟨[[]]⟩

/-- The reports seen through a handle. -/
def reports (g : Gallery) (handle : Nat) : Diagnostics := g.collectors.getD handle []

/-- The reports of a handle with more behind them. -/
def report (g : Gallery) (handle : Nat) (more : Diagnostics) : Gallery :=
  ⟨g.collectors.modify handle (· ++ more)⟩

/-- A new handle without reports, behind the others. -/
def create (g : Gallery) : Gallery := ⟨g.collectors ++ [[]]⟩

/-- A new handle with a copy of the reports of another. -/
def copy (g : Gallery) (handle : Nat) : Gallery := ⟨g.collectors ++ [g.reports handle]⟩

end Gallery

/-- Collectors that handles can share. -/
structure Pool where
  /-- The collector of each handle. -/
  owners : List Nat
  /-- The reports of each collector. -/
  collectors : List Diagnostics

namespace Pool

/-- One handle of a collector without reports. -/
def start : Pool := ⟨[0], [[]]⟩

/-- The collector of a handle; handles beyond the known ones have none. -/
def owner (p : Pool) (handle : Nat) : Nat := p.owners.getD handle p.collectors.length

/-- The reports seen through a handle. -/
def reports (p : Pool) (handle : Nat) : Diagnostics := p.collectors.getD (p.owner handle) []

/-- More reports through a handle. -/
def report (p : Pool) (handle : Nat) (more : Diagnostics) : Pool :=
  { p with collectors := p.collectors.modify (p.owner handle) (· ++ more) }

/-- A new handle of a new collector. -/
def create (p : Pool) : Pool := ⟨p.owners ++ [p.collectors.length], p.collectors ++ [[]]⟩

/-- A new handle of the collector of another. -/
def share (p : Pool) (handle : Nat) : Pool := { p with owners := p.owners ++ [p.owner handle] }

/-- All reports taken out through a handle, and the collectors afterwards. -/
def take (p : Pool) (handle : Nat) : Diagnostics × Pool :=
  (p.reports handle, { p with collectors := p.collectors.set (p.owner handle) [] })

end Pool

end Resilient
