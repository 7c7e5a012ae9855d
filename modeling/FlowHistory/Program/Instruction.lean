import FlowHistory.Program.Expr

/-!
Instructions, with their text, the local each one defines and the locals it reads. A `Site` is an
instruction together with its number in the program.
-/
namespace FlowHistory

/-- Where a local bound on entry gets its value from. -/
inductive Origin where
  | parameter (index : Nat)
  | receiver
  | caughtException
  deriving DecidableEq, Repr

def Origin.render : Origin → String
  | .parameter index => "@parameter" ++ toString index
  | .receiver => "@this"
  | .caughtException => "@caughtexception"

inductive Instruction where
  | assign (target : Place) (value : Expr)
  | bind (target : Local) (origin : Origin)
  | branch (condition : Expr)
  | goto
  | lookupSwitch (key : Operand)
  | tableSwitch (key : Operand)
  | invoke (call : Invocation)
  | enterMonitor (x : Operand)
  | exitMonitor (x : Operand)
  | raise (x : Operand)
  | ret (value : Option Operand)
  | nop
  deriving DecidableEq, Repr

namespace Instruction

def render : Instruction → String
  | .assign target value => target.render ++ " = " ++ value.render
  | .bind target origin => target.render ++ " := " ++ origin.render
  | .branch condition => "if " ++ condition.render
  | .goto => "goto"
  | .lookupSwitch key => "lookupswitch(" ++ key.render ++ ")"
  | .tableSwitch key => "tableswitch(" ++ key.render ++ ")"
  | .invoke call => "invoke " ++ call.render
  | .enterMonitor x => "entermonitor " ++ x.render
  | .exitMonitor x => "exitmonitor " ++ x.render
  | .raise x => "throw " ++ x.render
  | .ret (some x) => "return " ++ x.render
  | .ret none => "return"
  | .nop => "nop"

/-- The local that the instruction writes, if it writes one. -/
def defined? : Instruction → Option Local
  | .assign (.var x) _ | .bind x _ => some x
  | _ => none

/-- The invocation that the instruction performs, as a statement or as an assigned value. -/
def call? : Instruction → Option Invocation
  | .invoke call | .assign _ (.invoke call) => some call
  | _ => none

/-- The locals that the instruction reads: those of the value before those of the place. -/
def used : Instruction → List Local
  | .assign target value => value.used ++ target.used
  | .branch condition => condition.used
  | .lookupSwitch x | .tableSwitch x | .enterMonitor x | .exitMonitor x | .raise x =>
    x.local?.toList
  | .invoke call => call.locals
  | .ret value => (value.bind Operand.local?).toList
  | .bind _ _ | .goto | .nop => []

/-- All locals that the instruction mentions. -/
def locals (i : Instruction) : List Local := i.used ++ i.defined?.toList

def isSwitch : Instruction → Bool
  | .lookupSwitch _ | .tableSwitch _ => true
  | _ => false

end Instruction

structure Site where
  id : Nat
  instruction : Instruction
  deriving DecidableEq, Repr

end FlowHistory
