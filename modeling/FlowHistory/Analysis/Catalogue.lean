import FlowHistory.Analysis.ConstantBits
import FlowHistory.Analysis.ConstantFolding
import FlowHistory.Analysis.LiveVariables
import FlowHistory.Analysis.ReachingDefinitions
import FlowHistory.Analysis.Taint

/-!
The five analyses, each under its name with the values it works on.
-/
namespace FlowHistory.AnalysisKind

def Value : AnalysisKind → Type
  | .constantFolding => ConstValue
  | .constantBits => BitPattern
  | .reachingDefinitions => DefValue
  | .taint => TaintValue
  | .liveVariables => LiveValue

instance : (k : AnalysisKind) → DecidableEq k.Value
  | .constantFolding => inferInstanceAs (DecidableEq ConstValue)
  | .constantBits => inferInstanceAs (DecidableEq BitPattern)
  | .reachingDefinitions => inferInstanceAs (DecidableEq DefValue)
  | .taint => inferInstanceAs (DecidableEq TaintValue)
  | .liveVariables => inferInstanceAs (DecidableEq LiveValue)

instance : (k : AnalysisKind) → LatticeValue k.Value
  | .constantFolding => inferInstanceAs (LatticeValue ConstValue)
  | .constantBits => inferInstanceAs (LatticeValue BitPattern)
  | .reachingDefinitions => inferInstanceAs (LatticeValue DefValue)
  | .taint => inferInstanceAs (LatticeValue TaintValue)
  | .liveVariables => inferInstanceAs (LatticeValue LiveValue)

def analysis : (k : AnalysisKind) → Analysis k.Value
  | .constantFolding => ConstantFolding.analysis
  | .constantBits => ConstantBits.analysis
  | .reachingDefinitions => ReachingDefinitions.analysis
  | .taint => Taint.analysis
  | .liveVariables => LiveVariables.analysis

theorem kind_analysis (k : AnalysisKind) : k.analysis.kind = k := by
  cases k <;> rfl

end FlowHistory.AnalysisKind
