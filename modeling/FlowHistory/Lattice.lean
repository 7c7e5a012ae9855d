import FlowHistory.Fault

/-!
Abstract values: what is joined where control flow merges, and what is shown of it.
-/
namespace FlowHistory

/-- Values with a join, which may refuse two values that cannot belong to one variable, and a
text. The order of the values is given by the join: `x` is below `y` when joining them gives `y`. -/
class LatticeValue (V : Type) where
  join : V → V → Except Fault V
  render : V → String

end FlowHistory
