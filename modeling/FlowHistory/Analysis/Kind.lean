/-!
The analyses by name, and the direction in which each one propagates.
-/
namespace FlowHistory

/-- Forward analyses go along the edges from the entry, backward ones against them from the exit. -/
inductive Direction where
  | forward | backward
  deriving DecidableEq, Repr

namespace Direction

def all : List Direction := [.forward, .backward]

def render : Direction → String
  | .forward => "Forward"
  | .backward => "Backward"

end Direction

inductive AnalysisKind where
  | constantFolding | constantBits | reachingDefinitions | taint | liveVariables
  deriving DecidableEq, Repr

namespace AnalysisKind

def all : List AnalysisKind :=
  [.constantFolding, .constantBits, .reachingDefinitions, .taint, .liveVariables]

def render : AnalysisKind → String
  | .constantFolding => "Constant Folding"
  | .constantBits => "Constant Bits"
  | .reachingDefinitions => "Reaching Definitions"
  | .taint => "Taint"
  | .liveVariables => "Live Variables"

def direction : AnalysisKind → Direction
  | .liveVariables => .backward
  | _ => .forward

end AnalysisKind

end FlowHistory
