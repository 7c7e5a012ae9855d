import FlowHistory.Analysis.Basic

/-!
Taint of numeric locals.

What comes from outside (parameters, the heap, results of calls, object constants) is tainted, and
numbers written in the program are clean. Invocations with a tag change the taint of a single
argument; a sensitive one marks a tainted argument as violated, or every tainted local if it has no
arguments. A mark of violation stays with its local for good.
-/
namespace FlowHistory

inductive TaintState where
  | bottom | clean | tainted
  deriving DecidableEq, Repr

namespace TaintState

/-- The higher of two states, clean being below tainted. -/
def max : TaintState → TaintState → TaintState
  | .tainted, _ | _, .tainted => .tainted
  | .clean, _ | _, .clean => .clean
  | .bottom, .bottom => .bottom

def render : TaintState → String
  | .bottom => "⊥"
  | .clean => "clean"
  | .tainted => "tainted"

end TaintState

structure TaintValue where
  state : TaintState
  violated : Bool
  deriving DecidableEq, Repr

namespace TaintValue

def bottom : TaintValue := ⟨.bottom, false⟩
def clean : TaintValue := ⟨.clean, false⟩
def tainted : TaintValue := ⟨.tainted, false⟩

/-- Forces a state and keeps the mark. -/
def withState (v : TaintValue) (s : TaintState) : TaintValue := { v with state := s }

/-- The taint of what is computed from two values: tainted if either is, and else not reached if
either is not. -/
def combine (v w : TaintValue) : TaintValue :=
  let state :=
    if v.state = .tainted ∨ w.state = .tainted then .tainted
    else if v.state = .bottom ∨ w.state = .bottom then .bottom
    else .clean
  ⟨state, v.violated || w.violated⟩

def union (v w : TaintValue) : TaintValue := ⟨v.state.max w.state, v.violated || w.violated⟩

def render (v : TaintValue) : String := v.state.render ++ (if v.violated then "!" else "")

instance : LatticeValue TaintValue where
  join v w := .ok (v.union w)
  render := render

end TaintValue

namespace Taint

/-- Locals that are not tracked are taken as tainted, and so are object constants. -/
def operand (e : Env TaintValue) : Operand → TaintValue
  | .read x => (e.get? x).getD .tainted
  | .literal c => if c.isObject then .tainted else .clean

def evaluate (e : Env TaintValue) : Expr → TaintValue
  | .operand x | .neg x | .cast _ x | .instanceOf x _ => operand e x
  | .binary _ lhs rhs => (operand e lhs).combine (operand e rhs)
  | .length _ | .invoke _ | .field _ _ | .element _ _ | .create _ | .createArray _ _ => .tainted

/-- The effect of tags on the single argument. Of several tags the first of taint, clean and
sensitive counts. -/
def mark (tags : Tags) (v : TaintValue) : TaintValue :=
  if tags.taint then v.withState .tainted
  else if tags.clean then v.withState .clean
  else if tags.sensitive && v.state == .tainted then ⟨.tainted, true⟩
  else v

/-- Marks a tainted value as violated. -/
def violate (v : TaintValue) : TaintValue :=
  if v.state = .tainted then { v with violated := true } else v

/-- The effect of an invocation on the state. -/
def intrinsic (call : Invocation) (e : Env TaintValue) : Env TaintValue :=
  match call.args with
  | [.read x] =>
    match e.get? x with
    | some v => e.write x (mark call.tags v)
    | none => e
  | [] => if call.tags.sensitive then e.mapValues fun _ v => violate v else e
  | _ => e

/-- Gives a tracked local a new value; an old mark of violation stays. -/
def overwrite (e : Env TaintValue) (x : Local) (v : TaintValue) : Env TaintValue :=
  match e.get? x with
  | some old => e.write x { v with violated := v.violated || old.violated }
  | none => e

/-- The effect of the invocation that an instruction performs. -/
def afterCall (i : Instruction) (e : Env TaintValue) : Env TaintValue :=
  match i.call? with
  | some call => intrinsic call e
  | none => e

/-- The effect of the assignment that an instruction performs. -/
def afterWrite (i : Instruction) (e : Env TaintValue) : Env TaintValue :=
  match i with
  | .assign (.var x) value => overwrite e x (evaluate e value)
  | .bind x _ => overwrite e x .tainted
  | _ => e

/-- An invocation takes effect before the assignment of its result. -/
def step (i : Instruction) (e : Env TaintValue) : Env TaintValue := afterWrite i (afterCall i e)

def analysis : Analysis TaintValue where
  kind := .taint
  tracks x := x.type.isNumeric
  bottom _ := .bottom
  fresh _ _ := .clean
  transfer _ site e := .ok (step site.instruction e)
  height _ := 3

end Taint

end FlowHistory
