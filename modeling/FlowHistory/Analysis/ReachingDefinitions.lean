import FlowHistory.Analysis.Basic
import FlowHistory.IndexSet

/-!
Reaching definitions: for each integral local, the instructions whose write of it may still be in
effect. A definition replaces all earlier ones of its local.
-/
namespace FlowHistory

inductive DefValue where
  | bottom
  | top
  | sites (s : IndexSet)
  deriving DecidableEq, Repr

namespace DefValue

/-- Sets of sites are united; they must be over the same program. -/
def union : DefValue → DefValue → Except Fault DefValue
  | .bottom, x | x, .bottom => .ok x
  | .top, _ | _, .top => .ok .top
  | .sites s, .sites t =>
    match s.union? t with
    | some u => .ok (.sites u)
    | none => .error (.differentSiteCounts s.capacity t.capacity)

def render : DefValue → String
  | .bottom => "⊥"
  | .top => "⊤"
  | .sites s => s.render

instance : LatticeValue DefValue where
  join := union
  render := render

end DefValue

namespace ReachingDefinitions

/-- A definition leaves only itself. Switches are not supported. -/
def transfer (sites : Nat) (site : Site) (e : Env DefValue) : Except Fault (Env DefValue) :=
  if site.instruction.isSwitch then
    .error (.unsupportedInstruction .reachingDefinitions site.instruction)
  else
    match site.instruction.defined? with
    | none => return e
    | some x =>
      if e.contains x then
        match IndexSet.singleton? sites site.id with
        | some s => return e.write x (.sites s)
        | none => .error (.unknownSite site.id sites)
      else return e

def analysis : Analysis DefValue where
  kind := .reachingDefinitions
  tracks x := x.type.isIntegral
  bottom _ := .bottom
  fresh sites _ := .sites (.empty sites)
  transfer := transfer
  height sites := sites + 2

end ReachingDefinitions

end FlowHistory
