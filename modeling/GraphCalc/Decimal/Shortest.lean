/-
The shortest decimal that reads back to a binary number.  On the grids of the
powers of ten, from coarse to fine, the two neighbours of the number are tried;
the first grid with a neighbour that reads back decides, and of two such
neighbours the nearer one is taken, the upper one on an exact tie.
-/
import GraphCalc.Decimal.Basic
namespace GraphCalc.Layout

-- Powers are core's own, also where a wider import brings another instance.
attribute [local instance (high)] instPowNat

/-- The neighbour of a magnitude on the grid of `10 ^ exponent` that reads back
to its pattern, if there is one. -/
def onGrid? (layout : Layout) (pattern : Nat) (exponent : Int) : Option Decimal :=
  let scaled := layout.units pattern * 10 ^ (-exponent).toNat
  let mesh := layout.unitDenominator * 10 ^ exponent.toNat
  let lower : Decimal := ⟨scaled / mesh, exponent⟩
  let upper : Decimal := ⟨scaled / mesh + 1, exponent⟩
  let candidates := if 2 * (scaled % mesh) < mesh then [lower, upper] else [upper, lower]
  candidates.find? (fun candidate => candidate.pattern layout == pattern)

/-- The magnitude written out in full. -/
def exact (layout : Layout) (pattern : Nat) : Decimal :=
  ⟨layout.units pattern * 5 ^ layout.unit, -layout.unit⟩

/-- A power of ten that is not below the magnitude. -/
def coarsest (layout : Layout) (pattern : Nat) : Int :=
  (((layout.units pattern).log2 + 1 : Int) - layout.unit) * 30103 / 100000 + 1

/-- The fewest digits that read back to the pattern.  Seventeen digits are
always enough, so twenty grids are; were none to read back, the number would be
written out in full. -/
def shortest (layout : Layout) (pattern : Nat) : Decimal :=
  if pattern = 0 then ⟨0, 0⟩
  else
    ((List.range 20).findSome? (fun (step : Nat) =>
      layout.onGrid? pattern (layout.coarsest pattern - step))).getD (layout.exact pattern)

/-- A grid point that is found reads back. -/
theorem pattern_of_onGrid? {layout : Layout} {pattern : Nat} {exponent : Int}
    {d : Decimal} (h : layout.onGrid? pattern exponent = some d) :
    d.pattern layout = pattern := by
  have found := List.find?_some h
  simpa using found

end GraphCalc.Layout
