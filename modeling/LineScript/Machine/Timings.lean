import LineScript.Scope.Bindings

/-!
# Timings

How long statements took, in nanoseconds, by the label of the statement. The summary lists the
labels by total time, longest first, and those with equal totals by name.
-/

namespace LineScript

/-- Samples by label, the latest first. -/
structure Timings where
  samples : Bindings (List Nat)
deriving DecidableEq

/-- All samples of one label taken together; the mean is rounded down. -/
structure TimingRow where
  label : String
  count : Nat
  total : Nat
  mean : Nat
deriving DecidableEq, Repr

namespace Timings

def empty : Timings :=
  ⟨.empty⟩

def isEmpty (timings : Timings) : Bool :=
  timings.samples.entries.isEmpty

/-- The samples of a label in the order of recording. -/
def samplesOf (timings : Timings) (label : String) : List Nat :=
  ((timings.samples.get? label).getD []).reverse

def record (timings : Timings) (label : String) (elapsed : Nat) : Timings :=
  ⟨timings.samples.insert label (elapsed :: (timings.samples.get? label).getD [])⟩

def counts (timings : Timings) : List (String × Nat) :=
  timings.samples.entries.map fun (label, samples) ↦ (label, samples.length)

def row (label : String) (samples : List Nat) : TimingRow :=
  let total := samples.foldr (· + ·) 0
  ⟨label, samples.length, total, total / samples.length⟩

/-- One row for each label, longest total first. -/
def summary (timings : Timings) : List TimingRow :=
  let rows := timings.samples.entries.map fun (label, samples) ↦ row label samples
  rows.mergeSort fun a b ↦ b.total ≤ a.total

end Timings

end LineScript
