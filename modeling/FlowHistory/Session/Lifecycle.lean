/-!
The lifecycle of a run, and what it has published so far.
-/
namespace FlowHistory

inductive Lifecycle where
  | calculating | paused | completed | stopped | failed
  deriving DecidableEq, Repr

namespace Lifecycle

def all : List Lifecycle := [.calculating, .paused, .completed, .stopped, .failed]

def render : Lifecycle → String
  | .calculating => "Calculating"
  | .paused => "Paused"
  | .completed => "Completed"
  | .stopped => "Stopped"
  | .failed => "Failed"

/-- No step is recorded any more. -/
def isTerminal : Lifecycle → Bool
  | .completed | .stopped | .failed => true
  | .calculating | .paused => false

end Lifecycle

/-- Nothing yet, the history up to a stop, or the whole history. -/
inductive Publication where
  | noResult | intermediate | final
  deriving DecidableEq, Repr

namespace Publication

def all : List Publication := [.noResult, .intermediate, .final]

def render : Publication → String
  | .noResult => "NoResult"
  | .intermediate => "Intermediate"
  | .final => "Final"

end Publication

end FlowHistory
