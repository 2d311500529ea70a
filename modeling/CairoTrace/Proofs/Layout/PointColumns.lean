import CairoTrace.Proofs.Layout.Assembly
import CairoTrace.Proofs.Polynomial.Periodic
import CairoTrace.Proofs.RowValue

/-!
# Columns of points

The points that hashes and signatures may add are in two periodic columns, one for each coordinate
(`pointColumns`). They have room where the points are written once
(`exists_pointColumns_eq_ok`). In a layout they have the points one after the other on the rows of
the steps, again and again (`Layout.onRow_pointColumns`).
-/

namespace CairoTrace

/-- The columns of the coordinates of points. -/
def pointColumns (points : List Point) (n step : Nat) :
    Except ConstraintError (List PeriodicColumn) := do
  let x ← PeriodicColumn.ofValues (points.map (·.x)) n step
  let y ← PeriodicColumn.ofValues (points.map (·.y)) n step
  return [x, y]

variable {points : List Point} {n step : Nat}

theorem exists_pointColumns_eq_ok (hn : isPowerOfTwo n = true)
    (hlength : isPowerOfTwo points.length = true) (hstep : isPowerOfTwo step = true)
    (hle : points.length * step ≤ n) : ∃ columns, pointColumns points n step = .ok columns := by
  have hcolumn (coordinate : Point → Felt) :
      ∃ column, PeriodicColumn.ofValues (points.map coordinate) n step = .ok column := by
    rw [← List.length_map coordinate] at hlength hle
    exact ⟨_, PeriodicColumn.ofValues_eq_ok_iff.mpr ⟨hn, hlength, hstep, hle, rfl⟩⟩
  obtain ⟨x, hx⟩ := hcolumn (·.x)
  obtain ⟨y, hy⟩ := hcolumn (·.y)
  exact ⟨[x, y], Result.bind_eq_ok_iff.mpr ⟨x, hx, Result.bind_eq_ok_iff.mpr ⟨y, hy, rfl⟩⟩⟩

/-- The periodic columns of a layout have the points of a component on the rows of its steps. -/
theorem Layout.onRow_pointColumns {config : LayoutConfig} {modulus : Nat}
    {params : Option Pedersen.Params} {l : Layout}
    (hbuild : build config n params modulus = .ok l) (hword : n < 2 ^ 64) {component : Component}
    (hcomponent : component ∈ l.components) {k : Nat} (hindex : component.periodicIndex = some k)
    (hcolumns : component.periodicColumns n = pointColumns points n step) {i : Nat} {p : Point}
    (hp : points[i % points.length]? = some p) {columns : List (Array Felt)} {b : Bindings} :
    (Term.periodic k).onRow n columns l.periodic b (step * i) = p.x ∧
      (Term.periodic (k + 1)).onRow n columns l.periodic b (step * i) = p.y := by
  obtain ⟨hn, -, -⟩ := isArranged_of_build hbuild
  have hdvd : n ∣ starkPrime - 1 := dvd_order_of_isPowerOfTwo hn hword
  obtain ⟨built, hbuilt, hplaces⟩ := periodic_of_build hbuild hcomponent hindex
  rw [hcolumns] at hbuilt
  obtain ⟨x, hx, hbuilt⟩ := Result.bind_eq_ok_iff.mp hbuilt
  obtain ⟨y, hy, hbuilt⟩ := Result.bind_eq_ok_iff.mp hbuilt
  obtain rfl := Except.ok.inj hbuilt
  have hplaceX : l.periodic[k]? = some x := hplaces 0 Nat.zero_lt_two
  have hplaceY : l.periodic[k + 1]? = some y := hplaces 1 Nat.one_lt_two
  have honRow (j row : Nat) : (Term.periodic j).onRow n columns l.periodic b row =
      rowPeriodic l.periodic row j := rfl
  have hvalue {coordinate : Point → Felt} {column : PeriodicColumn}
      (h : PeriodicColumn.ofValues (points.map coordinate) n step = .ok column) :
      Composition.lookupCyclic (column.cosetValues 1).toArray (step * i) = coordinate p := by
    rw [PeriodicColumn.lookupCyclic_of_ofValues hdvd h, List.length_map, List.getElem?_map, hp,
      Option.map_some, Option.getD_some]
  rw [honRow, honRow, rowPeriodic, rowPeriodic, hplaceX, hplaceY]
  exact ⟨hvalue hx, hvalue hy⟩

end CairoTrace
