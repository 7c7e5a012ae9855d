import FlowHistory.Analysis.Kind
import FlowHistory.Program.Instruction
import FlowHistory.Session.Lifecycle

/-!
Everything that can be refused, one constructor a cause, with its wording in one place.
-/
namespace FlowHistory

/-- How blocks are written in texts. -/
def renderBlockId (b : Nat) : String := "B" ++ toString b

inductive EdgeEnd where
  | source | target
  deriving DecidableEq, Repr

def EdgeEnd.render : EdgeEnd → String
  | .source => "source"
  | .target => "target"

inductive Fault where
  | unknownEdgeEnd (role : EdgeEnd) (node nodes : Nat)
  | noBlocks
  | noEntry
  | unknownBlock (block blocks : Nat)
  | unknownInstruction (id instructions : Nat)
  | untrackedRead (x : Local)
  | untrackedWrite (x : Local)
  | emptyJoin
  | differentLocals (left right : List Local)
  | differentWidths (left right : Nat)
  | differentSiteCounts (left right : Nat)
  | noBoundary (direction : Direction)
  | severalBoundaries (direction : Direction) (found : Nat)
  | unknownSite (id sites : Nat)
  | unsupportedInstruction (analysis : AnalysisKind) (instruction : Instruction)
  | unsupportedValue (analysis : AnalysisKind) (value : Operand)
  | cannotPause (state : Lifecycle)
  | cannotContinue (state : Lifecycle)
  | cannotStop (state : Lifecycle)
  | nothingPublished
  | alreadyPublished
  deriving DecidableEq, Repr

/-- A coarse classification of causes. -/
inductive FaultClass where
  | invalidArgument | illegalState | emptyInput | mismatchedDomain
  | unsupportedInstruction | unsupportedValue
  deriving DecidableEq, Repr

namespace Fault

def kind : Fault → FaultClass
  | .unknownEdgeEnd _ _ _ | .unknownBlock _ _ | .unknownInstruction _ _ | .untrackedRead _
  | .untrackedWrite _ | .unknownSite _ _ => .invalidArgument
  | .noBlocks | .noEntry | .noBoundary _ | .severalBoundaries _ _ | .cannotPause _
  | .cannotContinue _ | .cannotStop _ | .nothingPublished | .alreadyPublished => .illegalState
  | .emptyJoin => .emptyInput
  | .differentLocals _ _ | .differentWidths _ _ | .differentSiteCounts _ _ => .mismatchedDomain
  | .unsupportedInstruction _ _ => .unsupportedInstruction
  | .unsupportedValue _ _ => .unsupportedValue

def backquoted (text : String) : String := "`" ++ text ++ "`"

def renderNames (locals : List Local) : String :=
  "[" ++ ", ".intercalate (locals.map Local.render) ++ "]"

def mismatch (detail : String) : String :=
  "Lattice elements do not share the same domain - " ++ detail

def message : Fault → String
  | .unknownEdgeEnd role node nodes =>
    role.render ++ " node " ++ renderBlockId node ++ " does not exist in graph with " ++
      toString nodes ++ " nodes"
  | .noBlocks => "cannot build a control flow graph without blocks"
  | .noEntry => "every block has a predecessor, the graph has no entry"
  | .unknownBlock block blocks =>
    "block " ++ renderBlockId block ++ " does not exist in graph with " ++ toString blocks ++
      " blocks"
  | .unknownInstruction id instructions =>
    "instruction " ++ toString id ++ " does not exist in graph with " ++ toString instructions ++
      " instructions"
  | .untrackedRead x => "variable " ++ backquoted x.render ++ " is not tracked by this element"
  | .untrackedWrite x => "cannot set untracked variable " ++ backquoted x.render
  | .emptyJoin => "Cannot join an empty set of lattice elements"
  | .differentLocals left right =>
    mismatch ("cannot join " ++ renderNames left ++ " variables with " ++ renderNames right ++
      " variables")
  | .differentWidths left right =>
    mismatch ("cannot join a " ++ toString left ++ "-bit vector with a " ++ toString right ++
      "-bit vector")
  | .differentSiteCounts left right =>
    mismatch ("definition sets over " ++ toString left ++ " and " ++ toString right ++ " sites")
  | .noBoundary direction =>
    direction.render ++ " analysis requires a boundary block, found none"
  | .severalBoundaries direction found =>
    direction.render ++ " analysis requires exactly one boundary block, found " ++ toString found
  | .unknownSite id sites =>
    "instruction " ++ toString id ++ " is outside of the " ++ toString sites ++ " known sites"
  | .unsupportedInstruction analysis instruction =>
    analysis.render ++ " does not support instruction " ++ backquoted instruction.render
  | .unsupportedValue analysis value =>
    analysis.render ++ " does not support value " ++ backquoted value.render
  | .cannotPause state => "cannot pause a precalculation that is " ++ state.render
  | .cannotContinue state => "cannot continue a precalculation that is " ++ state.render
  | .cannotStop state => "cannot stop a precalculation that is " ++ state.render
  | .nothingPublished => "no result has been published yet"
  | .alreadyPublished => "a result has already been published"

end Fault

end FlowHistory
