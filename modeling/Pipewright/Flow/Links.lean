/-! Links between numbered points, and the loops they form. -/
namespace Pipewright

/-- Links from a point to a point, in the order in which they were made. -/
abbrev Links := List (Nat × Nat)

namespace Links

/-- For each point below `size` the points that a link leads to. -/
def next (size : Nat) (links : Links) : List (List Nat) :=
  (List.range size).map fun p => ((links.filter fun l => l.1 = p).map Prod.snd).eraseDups

/-- What a point leads to. -/
def rowOf (rows : List (List Nat)) (point : Nat) : List Nat := (rows[point]?).getD []

/-- Lets all points that lead to a point lead to what it leads to. -/
def through (rows : List (List Nat)) (point : Nat) : List (List Nat) :=
  let via := rowOf rows point
  rows.map fun row =>
    if row.contains point then row ++ via.filter fun q => !row.contains q else row

/-- For each point below `size` the points that can be reached from it by links between points
below `size`. -/
def reached (size : Nat) (links : Links) : List (List Nat) :=
  (List.range size).foldl through (next size links)

/-- The points with a link to a point. -/
def before (links : Links) (point : Nat) : List Nat :=
  (links.filter fun l => l.2 = point).map Prod.fst

/-- Visits a point after all points before it. The state holds the points seen and the points
finished, in order; no chain of new points is longer than `depth`. -/
def visit (links : Links) : (depth : Nat) → List Nat × List Nat → Nat → List Nat × List Nat
  | 0, st, _ => st
  | d + 1, (seen, finished), point =>
    if seen.contains point then (seen, finished)
    else
      let (seen, finished) := (before links point).foldl (visit links d) (point :: seen, finished)
      (seen, finished ++ [point])

/-- All points below `size`, each after the points before it as far as there are no loops. -/
def finishOrder (size : Nat) (links : Links) : List Nat :=
  ((List.range size).foldl (visit links (size + 1)) ([], [])).2

/-- The points that a point reaches and that reach it. -/
def loopOf (rows : List (List Nat)) (point : Nat) : List Nat :=
  (List.range rows.length).filter fun q =>
    (rowOf rows point).contains q && (rowOf rows q).contains point

/-- Adds a loop that is not among the loops yet. -/
def addLoop (loops : List (List Nat)) (loop : List Nat) : List (List Nat) :=
  if loop.isEmpty || loops.contains loop then loops else loops ++ [loop]

/-- The classes of points that reach each other and themselves, those of the points that finish
last first. -/
def loops (size : Nat) (links : Links) : List (List Nat) :=
  let rows := reached size links
  ((finishOrder size links).reverse.map (loopOf rows)).foldl addLoop []

end Links
end Pipewright
