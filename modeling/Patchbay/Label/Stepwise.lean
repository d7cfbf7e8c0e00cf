import Patchbay.Fault

/-!
# Sorting step by step

Sorting by a comparison that may fail, or that is no order. What becomes of the entries then depends
on which of them are compared, so that the order of comparisons is a part of the rule: the run at
the front is taken as it stands, or turned around when it descends, and every later entry is put
into its place by halving.
-/

namespace Patchbay.Stepwise

/-- Whether one entry comes before another. -/
abbrev Comparison (α : Type) := α → α → Except Fault Bool

variable {α : Type} (before : Comparison α)

/-- The ascending run that goes on from `last`, and the entries after it; `done` holds the entries
before `last`, the nearest one first. -/
def runFrom (descending : Bool) (done : List α) (last : α) : List α → Except Fault (List α × List α)
  | [] => .ok (if descending then last :: done else (last :: done).reverse, [])
  | next :: rest => do
    let isBefore ← before next last
    if isBefore = descending then runFrom descending (last :: done) next rest
    else .ok (if descending then last :: done else (last :: done).reverse, next :: rest)

/-- The ascending run at the front, and the entries after it. -/
def frontRun : List α → Except Fault (List α × List α)
  | first :: next :: rest => do
    let descending ← before next first
    runFrom before descending [first] next rest
  | entries => .ok (entries, [])

/-- The place of an entry among ascending ones, from the place `low` on and below `high`. -/
def placeOf (entry : α) (run : List α) (low high : Nat) : Except Fault Nat :=
  if low < high then
    match run[low + (high - low) / 2]? with
    | none => .ok low
    | some middle => do
      let isBefore ← before entry middle
      if isBefore then placeOf entry run low (low + (high - low) / 2)
      else placeOf entry run (low + (high - low) / 2 + 1) high
  else .ok low
termination_by high - low

/-- Ascending entries with others put in, one after the other. -/
def insertAll (run : List α) : List α → Except Fault (List α)
  | [] => .ok run
  | entry :: rest => do
    let place ← placeOf before entry run 0 run.length
    insertAll (run.insertIdx place entry) rest

/-- The entries sorted. -/
def sort (entries : List α) : Except Fault (List α) := do
  let (run, rest) ← frontRun before entries
  insertAll before run rest

end Patchbay.Stepwise
