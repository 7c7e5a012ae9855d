import FlowHistory.Analysis.Basic

/-!
Live variables: whether the value that a local holds may still be read. The analysis goes backward,
so the state given to an instruction is the one after it in the program.
-/
namespace FlowHistory

inductive LiveValue where
  | bottom | dead | live
  deriving DecidableEq, Repr

namespace LiveValue

/-- Live on one path is live. -/
def union : LiveValue → LiveValue → LiveValue
  | .live, _ | _, .live => .live
  | .dead, _ | _, .dead => .dead
  | .bottom, .bottom => .bottom

def render : LiveValue → String
  | .bottom => "⊥"
  | .dead => "dead"
  | .live => "live"

instance : LatticeValue LiveValue where
  join x y := .ok (x.union y)
  render := render

end LiveValue

namespace LiveVariables

/-- What an instruction writes is dead before it, and what it reads is live, also if it writes it. -/
def step (i : Instruction) (e : Env LiveValue) : Env LiveValue :=
  let killed := match i.defined? with
    | some x => e.write x .dead
    | none => e
  i.used.foldl (fun e x => e.write x .live) killed

def analysis : Analysis LiveValue where
  kind := .liveVariables
  tracks _ := true
  bottom _ := .bottom
  fresh _ _ := .dead
  transfer _ site e := .ok (step site.instruction e)
  height _ := 2

end LiveVariables

end FlowHistory
