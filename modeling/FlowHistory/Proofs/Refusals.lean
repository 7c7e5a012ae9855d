import FlowHistory.Proofs.Paths
import FlowHistory.Proofs.Recording

/-!
# When a run fails

Whether a transfer refuses an instruction depends on the instruction alone. So a run in the direction of
control fails exactly if control may arrive at a refused instruction, whatever the order of the visits, and
a run against it fails exactly if the program has no exit. No other fault ends a run, and whatever a step
looks up is there.
-/
namespace FlowHistory

/-- The literals that are no numbers. -/
def Operand.isForeign : Operand → Bool
  | .literal .null | .literal (.string _) | .literal (.classRef _) | .literal (.methodHandle _) => true
  | _ => false

/-- The operands of a copied value, of a binary or negated one and of a cast. -/
def Expr.computedFrom : Expr → List Operand
  | .operand x | .neg x | .cast _ x => [x]
  | .binary _ lhs rhs => [lhs, rhs]
  | _ => []

/-- The first operand that is no number, of a value that is computed for an integral local. -/
def Instruction.foreign? : Instruction → Option Operand
  | .assign (.var x) value =>
    if x.type.isIntegral then value.computedFrom.find? Operand.isForeign else none
  | _ => none

/-- The fault with which an analysis refuses an instruction. -/
def AnalysisKind.refusal? (k : AnalysisKind) (i : Instruction) : Option Fault :=
  match k with
  | .constantFolding => i.foreign?.map (.unsupportedValue k)
  | .constantBits =>
    if i.isSwitch then some (.unsupportedInstruction k i) else i.foreign?.map (.unsupportedValue k)
  | .reachingDefinitions => if i.isSwitch then some (.unsupportedInstruction k i) else none
  | .taint | .liveVariables => none

/-! Transfers. -/

theorem bind_pure_eq_error {α β : Type} {x : Except Fault α} {g : α → β} {f : Fault} :
    (x >>= fun v => pure (g v)) = .error f ↔ x = .error f := by
  cases x with
  | error f' => constructor <;> (intro h; cases h; rfl)
  | ok v => constructor <;> (intro h; cases h)

/-- The operands that are no numbers, and only these, are refused. -/
def Refusing {V : Type} (k : AnalysisKind) (read : Operand → Except Fault V) : Prop :=
  ∀ x, (x.isForeign = true ∧ read x = .error (.unsupportedValue k x)) ∨
    (x.isForeign = false ∧ ∃ v, read x = .ok v)

namespace Refusing

variable {V W : Type} {k : AnalysisKind} {read : Operand → Except Fault V} {f : Fault}

theorem eq_error_iff (h : Refusing k read) (x : Operand) :
    read x = .error f ↔ ([x].find? Operand.isForeign).map (.unsupportedValue k) = some f := by
  rcases h x with ⟨hx, hread⟩ | ⟨hx, v, hread⟩ <;> simp [hx, hread]

theorem bind_eq_error_iff (h : Refusing k read) (x y : Operand) (g : V → V → W) :
    (do let a ← read x; let b ← read y; return g a b) = Except.error f ↔
      ([x, y].find? Operand.isForeign).map (.unsupportedValue k) = some f := by
  rcases h x with ⟨hx, hread⟩ | ⟨hx, v, hread⟩
  · rw [hread, List.find?_cons_of_pos hx, Option.map_some, Option.some.injEq]
    constructor <;> (intro h; cases h; rfl)
  · rw [hread, List.find?_cons_of_neg (by simp [hx])]
    exact bind_pure_eq_error.trans (h.eq_error_iff y)

end Refusing

namespace ConstantFolding

theorem refusing_operand (e : Env ConstValue) : Refusing .constantFolding (operand e) := by
  intro x
  cases x with
  | read y => exact .inr ⟨rfl, _, rfl⟩
  | literal c =>
    cases c with
    | int _ | long _ | float _ | double _ => exact .inr ⟨rfl, _, rfl⟩
    | null | string _ | classRef _ | methodHandle _ => exact .inl ⟨rfl, rfl⟩

theorem evaluate_eq_error_iff {e : Env ConstValue} {value : Expr} {f : Fault} :
    evaluate e value = .error f ↔
      (value.computedFrom.find? Operand.isForeign).map (.unsupportedValue .constantFolding) = some f := by
  have hread := refusing_operand e
  cases value with
  | operand x => exact hread.eq_error_iff x
  | neg x => exact bind_pure_eq_error.trans (hread.eq_error_iff x)
  | cast t x => exact bind_pure_eq_error.trans (hread.eq_error_iff x)
  | binary op lhs rhs => exact hread.bind_eq_error_iff lhs rhs (foldBinary op)
  | _ => constructor <;> (intro h; cases h)

end ConstantFolding

namespace ConstantBits

theorem refusing_operand (e : Env BitPattern) : Refusing .constantBits (operand e) := by
  intro x
  cases x with
  | read y => exact .inr ⟨rfl, _, rfl⟩
  | literal c =>
    cases c with
    | int _ | long _ | float _ | double _ => exact .inr ⟨rfl, _, rfl⟩
    | null | string _ | classRef _ | methodHandle _ => exact .inl ⟨rfl, rfl⟩

theorem evaluate_eq_error_iff {e : Env BitPattern} {w : Nat} {value : Expr} {f : Fault} :
    evaluate e w value = .error f ↔
      (value.computedFrom.find? Operand.isForeign).map (.unsupportedValue .constantBits) = some f := by
  have hread := refusing_operand e
  cases value with
  | operand x => exact hread.eq_error_iff x
  | neg x => exact bind_pure_eq_error.trans (hread.eq_error_iff x)
  | cast t x => exact bind_pure_eq_error.trans (hread.eq_error_iff x)
  | binary op lhs rhs => exact hread.bind_eq_error_iff lhs rhs (BitPattern.binary op)
  | _ => constructor <;> (intro h; cases h)

end ConstantBits

namespace Flowgraph

variable {g : Flowgraph}

/-- The instructions of a program are numbered within their count and mention only its locals. -/
theorem Sane.site_spec (hg : g.Sane) {s : Site} (hs : s ∈ g.sites) :
    s.id < g.instructionCount ∧ ∀ x ∈ s.instruction.locals, x ∈ g.locals := by
  obtain ⟨b, hb, hs⟩ := List.mem_flatMap.1 hs
  obtain ⟨⟨i, id⟩, hmem, rfl⟩ := List.mem_map.1 hs
  obtain ⟨hle, hget⟩ := List.mem_zipIdx_iff_le_and_getElem?_sub.1 hmem
  constructor
  · have hlt := (List.getElem?_eq_some_iff.1 hget).1
    have hcount : b.first + b.size ≤ g.instructionCount := hg.numbered b hb
    simp only [Block.size] at hcount ⊢
    omega
  · intro x hx
    exact hg.mentioned hb (List.mem_flatMap.2 ⟨i, List.mem_of_getElem? hget, hx⟩)

end Flowgraph

theorem Analysis.contains_eq_tracks {V : Type} {a : Analysis V} {g : Flowgraph} {e : Env V} {x : Local}
    (he : e.locals = (a.locals g).toList) (hx : x ∈ g.locals) : e.contains x = a.tracks x := by
  rw [Bool.eq_iff_iff, ← Env.mem_locals, he]
  exact LocalSet.mem_filter.trans (and_iff_right hx)

/-- Assigning to a tracked local is refused exactly if computing the value is. -/
theorem Env.assign_eq_error {V : Type} {e : Env V} {x : Local} {value : Env V → Except Fault V}
    {f : Fault} : e.assign x value = .error f ↔ e.contains x = true ∧ value e = .error f := by
  rw [assign]
  split
  · rename_i hx
    exact bind_pure_eq_error.trans (and_iff_right hx).symm
  · rename_i hx
    constructor
    · intro h
      cases h
    · intro h
      exact absurd h.1 hx

theorem Instruction.foreign?_assign {x : Local} {value : Expr} {k : AnalysisKind} {f : Fault} :
    (Instruction.assign (.var x) value).foreign?.map (.unsupportedValue k) = some f ↔
      x.type.isIntegral = true ∧
        (value.computedFrom.find? Operand.isForeign).map (.unsupportedValue k) = some f := by
  simp only [foreign?]
  split <;> simp_all

section

variable {n : Nat} {s : Site} {f : Fault}

theorem ConstantFolding.transfer_eq_error_iff {e : Env ConstValue}
    (htracks : ∀ x, s.instruction.defined? = some x → e.contains x = x.type.isIntegral) :
    transfer s e = .error f ↔
      s.instruction.foreign?.map (.unsupportedValue .constantFolding) = some f := by
  obtain ⟨id, i⟩ := s
  cases i with
  | assign target value =>
    cases target with
    | var x =>
      change e.assign x (evaluate · value) = .error f ↔ _
      rw [Env.assign_eq_error, evaluate_eq_error_iff, htracks x rfl, Instruction.foreign?_assign]
    | _ => constructor <;> (intro h; cases h)
  | _ => constructor <;> (intro h; cases h)

theorem ConstantBits.transfer_eq_error_iff {e : Env BitPattern}
    (htracks : ∀ x, s.instruction.defined? = some x → e.contains x = x.type.isIntegral) :
    transfer s e = .error f ↔
      (if s.instruction.isSwitch then some (.unsupportedInstruction .constantBits s.instruction)
        else s.instruction.foreign?.map (.unsupportedValue .constantBits)) = some f := by
  obtain ⟨id, i⟩ := s
  cases i with
  | assign target value =>
    cases target with
    | var x =>
      rw [transfer_assign, Env.assign_eq_error, assigned, bind_pure_eq_error, evaluate_eq_error_iff,
        htracks x rfl]
      exact Instruction.foreign?_assign.symm
    | _ => constructor <;> (intro h; cases h)
  | lookupSwitch key | tableSwitch key => constructor <;> (intro h; cases h; rfl)
  | _ => constructor <;> (intro h; cases h)

theorem ReachingDefinitions.transfer_eq_error_iff {e : Env DefValue} (hid : s.id < n) :
    transfer n s e = .error f ↔
      (if s.instruction.isSwitch then some (.unsupportedInstruction .reachingDefinitions s.instruction)
        else none) = some f := by
  have hsite : IndexSet.singleton? n s.id ≠ none := by
    simp [IndexSet.singleton?, IndexSet.insert?, IndexSet.empty, hid]
  simp only [transfer]
  split
  · simp
  · split
    · constructor <;> (intro h; cases h)
    · split
      · split
        · constructor <;> (intro h; cases h)
        · rename_i hnone
          exact absurd hnone hsite
      · constructor <;> (intro h; cases h)

end

namespace AnalysisKind

/-- Of a state over the tracked locals, a transfer refuses what the analysis refuses, and nothing else. -/
theorem transfer_eq_error_iff {k : AnalysisKind} {g : Flowgraph} (hg : g.Sane) {s : Site}
    (hs : s ∈ g.sites) {e : Env k.Value} (he : e.locals = (k.analysis.locals g).toList) {f : Fault} :
    k.analysis.transfer g.instructionCount s e = .error f ↔ k.refusal? s.instruction = some f := by
  obtain ⟨hid, hlocals⟩ := hg.site_spec hs
  have htracks : ∀ x, s.instruction.defined? = some x → e.contains x = k.analysis.tracks x := by
    intro x hx
    exact Analysis.contains_eq_tracks he (hlocals x (by simp [Instruction.locals, hx]))
  cases k with
  | constantFolding => exact ConstantFolding.transfer_eq_error_iff htracks
  | constantBits => exact ConstantBits.transfer_eq_error_iff htracks
  | reachingDefinitions => exact ReachingDefinitions.transfer_eq_error_iff hid
  | taint => constructor <;> (intro h; cases h)
  | liveVariables => constructor <;> (intro h; cases h)

end AnalysisKind

/-! Runs. -/

namespace Problem

variable {V : Type} {p : Problem V}

theorem exists_mem_walkOrder {block : Block} {s : Site} (h : s ∈ block.sites) :
    ∃ i, (i, s) ∈ p.walkOrder block := by
  have hmem : s ∈ (p.walkOrder block).map Prod.snd := by
    cases hdir : p.direction with
    | forward => rwa [sites_walkOrder_forward hdir]
    | backward => rwa [sites_walkOrder_backward hdir, List.mem_reverse]
  obtain ⟨⟨i, _⟩, hi, rfl⟩ := List.mem_map.1 hmem
  exact ⟨i, hi⟩

/-- Where a list of instructions is accepted, each of them is in some state over the same locals. -/
theorem exists_apply_of_mem [LatticeValue V] (law : p.analysis.Lawful) {l : List (Nat × Site)}
    {e e' : Env V} (h : p.applyAll l e = .ok e') {s : Nat × Site} (hs : s ∈ l) :
    ∃ f f', f.locals = e.locals ∧ p.apply s.2 f = .ok f' := by
  induction l generalizing e with
  | nil => cases hs
  | cons t l ih =>
    obtain ⟨e₁, ht, hrest⟩ := applyAll_cons.1 h
    rcases List.mem_cons.1 hs with rfl | hs
    · exact ⟨e, e₁, rfl, ht⟩
    · obtain ⟨f, f', hf, hf'⟩ := ih hrest hs
      exact ⟨f, f', hf.trans (law.transfer_locals ht), hf'⟩

end Problem

namespace Engine

variable {V : Type} [DecidableEq V] [LatticeValue V] [LawfulJoin V] {p : Problem V} {q : Worklist}

/-- A visit that is stuck is one of a block along the flow, in a reached state. -/
theorem Stuck.exists_block {f : Fault} (hp : p.Sound) (law : p.analysis.Lawful) (hq : q.Fresh)
    (h : Stuck (start p q) f) : ∃ b block s env, p.Reachable b ∧ p.graph.block? b = some block ∧
      s ∈ block.sites ∧ law.Reached p.graph env ∧ p.apply s env = .error f := by
  obtain @⟨k, b, t, m, q', block, input, done, w, htour, hperm, hmid, hfault⟩ := h
  have hprob : t.problem = p := htour.problem_eq
  have hgrow := htour.growing hp (growing_start law hq)
  have hb : b ∈ t.queue.toList := hperm.subset List.mem_cons_self
  have hin := hgrow.input_reached hp hb (hprob ▸ hmid.input_eq)
  have hcurrent := Problem.applyAll_reached law hin (hprob ▸ hmid.current_eq)
  have hnext : w.next ∈ t.problem.walkOrder block := by simp [hmid.order]
  exact ⟨b, block, w.next.2, w.current, hgrow.queued_reachable hb, hprob ▸ hmid.lookup,
    Problem.mem_sites_of_mem_walkOrder hnext, hcurrent, hprob ▸ hfault⟩

/-- Whatever the next elementary step looks up by its number is there. -/
structure InRange (g : Flowgraph) (e : Engine V) : Prop where
  states_length : e.states.length = g.blockCount
  visited_length : e.visited.length = g.blockCount
  waiting {b : Nat} : b ∈ e.queue.toList → b < g.blockCount
  flowing {a b : Nat} : a ∈ e.problem.sources b ∨ a ∈ e.problem.targets b → a < g.blockCount
  walking {w : Walk V} : e.walk = some w → w.block < g.blockCount ∧
    ∀ s ∈ w.next :: w.rest, g.siteAt? w.block s.1 = some s.2 ∧ s.2.id < g.instructionCount

omit [LawfulJoin V] in
theorem Moved.inRange {n : Nat} {m : Engine V} (hp : p.Sound) (hq : q.Fresh)
    (h : Moved (start p q) n m) : InRange p.graph m := by
  have hnoted := h.noted hp hq
  have hflow : ∀ {a b : Nat}, a ∈ p.sources b ∨ a ∈ p.targets b → a < p.graph.blockCount := by
    rintro a b (ha | ha)
    · exact Flowgraph.sources_lt hp.sane ha
    · exact Flowgraph.targets_lt hp.sane ha
  cases h.stands hp.sane rfl with
  | @between k htour hidle _ =>
    have hcons := htour.consistent hp.sane hp.boundary_lt (consistent_start p hq)
    exact ⟨hnoted.states_length, hnoted.visited_length,
      fun hb => hp.reachable_lt (hcons.queued_reachable hb), fun ha => hflow (hcons.problem_eq ▸ ha),
      fun hw => by rw [hidle] at hw; cases hw⟩
  | @midway k b t q' block input done w htour _ hperm hmid hwalk _ =>
    have hcons := htour.consistent hp.sane hp.boundary_lt (consistent_start p hq)
    have hqueued : ∀ {c}, c ∈ b :: q'.toList → c < p.graph.blockCount := fun hc =>
      hp.reachable_lt (hcons.queued_reachable (hperm.subset hc))
    refine ⟨hnoted.states_length, hnoted.visited_length, fun hc => ?_,
      fun ha => hflow ((hmid.problem_eq.trans hcons.problem_eq) ▸ ha), fun hw => ?_⟩
    · exact hqueued (List.mem_cons_of_mem b (hmid.queue_eq ▸ hc))
    · rw [hwalk, Option.some.injEq] at hw
      subst hw
      have hlookup : p.graph.block? b = some block := hcons.problem_eq ▸ hmid.lookup
      rw [hmid.block_eq]
      refine ⟨hqueued List.mem_cons_self, fun s hs => ?_⟩
      have hmem : s ∈ t.problem.walkOrder block := by
        rw [hmid.order]
        exact List.mem_append_right _ hs
      refine ⟨by rw [Flowgraph.siteAt?, hlookup]; exact Problem.getElem?_of_mem_walkOrder hmem, ?_⟩
      refine (hp.sane.site_spec ?_).1
      exact Flowgraph.mem_sites_of_block? hlookup (Problem.mem_sites_of_mem_walkOrder hmem)

end Engine

/-- Control may arrive at an instruction of which `P` holds. -/
def Flowgraph.MayMeet (g : Flowgraph) (P : Instruction → Prop) : Prop :=
  ∃ b, g.Leads g.entry b ∧ ∃ s ∈ g.sitesOf b, P s.instruction

theorem Flowgraph.mayMeet_or {g : Flowgraph} {P Q : Instruction → Prop} :
    g.MayMeet (fun i => P i ∨ Q i) ↔ g.MayMeet P ∨ g.MayMeet Q := by
  simp only [MayMeet, and_or_left, exists_or]

/-- The instruction computes the value of an integral local from an operand that is no number. -/
def Instruction.ComputesForeign (i : Instruction) : Prop :=
  ∃ x value, i = .assign (.var x) value ∧ x.type.isIntegral = true ∧
    ∃ y ∈ value.computedFrom, y.isForeign = true

theorem Instruction.foreign?_isSome_iff {i : Instruction} :
    i.foreign?.isSome = true ↔ i.ComputesForeign := by
  constructor
  · intro h
    cases i with
    | assign target value =>
      cases target with
      | var x =>
        simp only [foreign?] at h
        split at h
        · rename_i hx
          exact ⟨x, value, rfl, hx, by simpa using h⟩
        · cases h
      | _ => cases h
    | _ => cases h
  · rintro ⟨x, value, rfl, hx, hy⟩
    simpa [foreign?, hx] using hy

namespace AnalysisKind

/-- The programs on which runs of the analysis fail. -/
def Fails (g : Flowgraph) : AnalysisKind → Prop
  | .constantFolding => g.MayMeet Instruction.ComputesForeign
  | .constantBits => g.MayMeet (·.isSwitch = true) ∨ g.MayMeet Instruction.ComputesForeign
  | .reachingDefinitions => g.MayMeet (·.isSwitch = true)
  | .taint => False
  | .liveVariables => g.exit = none

/-- The classes of the faults with which runs of the analysis fail. -/
def faultClasses : AnalysisKind → List FaultClass
  | .constantFolding => [.unsupportedValue]
  | .constantBits => [.unsupportedInstruction, .unsupportedValue]
  | .reachingDefinitions => [.unsupportedInstruction]
  | .taint => []
  | .liveVariables => [.illegalState]

variable {k : AnalysisKind} {g : Flowgraph} {p : Problem k.Value} {q : Worklist} {i : Instruction}
  {f : Fault}

theorem kind_of_refusal (h : k.refusal? i = some f) : f.kind ∈ k.faultClasses := by
  cases k with
  | constantFolding =>
    obtain ⟨x, -, rfl⟩ := Option.map_eq_some_iff.1 h
    simp [Fault.kind, faultClasses]
  | constantBits =>
    simp only [refusal?] at h
    split at h
    · cases h
      simp [Fault.kind, faultClasses]
    · obtain ⟨x, -, rfl⟩ := Option.map_eq_some_iff.1 h
      simp [Fault.kind, faultClasses]
  | reachingDefinitions =>
    simp only [refusal?] at h
    split at h
    · cases h
      simp [Fault.kind, faultClasses]
    · cases h
  | taint => cases h
  | liveVariables => cases h

/-- A run shows the refusal of an instruction along the flow. -/
theorem exists_refused_of_run (hg : g.Built) (hp : Problem.create k.analysis g = .ok p) (hq : q.Fresh)
    (hrun : k.analysis.runFrom g q = .error f) :
    ∃ b, p.Reachable b ∧ ∃ s ∈ g.sitesOf b, k.refusal? s.instruction = some f := by
  have hsound := Problem.sound_of_create hg hp
  rw [Analysis.runFrom_of_create hp] at hrun
  obtain ⟨b₀, -, hp⟩ := bind_eq_ok.1 hp
  cases hp
  obtain ⟨n, -, ⟨hend, -, -⟩ | ⟨f', hend, hstuck⟩⟩ := Run.ofQueue_ends hsound k.lawful hq
  · simp [Run.outcome, hend] at hrun
  · simp only [Run.outcome, hend, Except.error.injEq] at hrun
    subst hrun
    obtain ⟨b, block, s, env, hb, hblock, hs, henv, hfault⟩ := hstuck.exists_block hsound k.lawful hq
    refine ⟨b, hb, s, by rwa [Flowgraph.sitesOf_eq hblock], ?_⟩
    refine (transfer_eq_error_iff hsound.sane ?_ henv.locals_eq).1 hfault
    exact Flowgraph.mem_sites_of_block? hblock hs

/-- A run does not get past a refused instruction along the flow. -/
theorem exists_error_of_refused (hg : g.Built) (hp : Problem.create k.analysis g = .ok p) (hq : q.Fresh)
    {b : Nat} (hb : p.Reachable b) {s : Site} (hs : s ∈ g.sitesOf b)
    (href : k.refusal? s.instruction = some f) : ∃ f', k.analysis.runFrom g q = .error f' := by
  cases hrun : k.analysis.runFrom g q with
  | error f' => exact ⟨f', rfl⟩
  | ok h =>
    have hsound := Problem.sound_of_create hg hp
    obtain ⟨last, -, -, hsol, -⟩ := k.lawful.solution_of_run hg hp hq hrun
    obtain ⟨b₀, -, hp⟩ := bind_eq_ok.1 hp
    cases hp
    obtain ⟨block, st, hblock, hst, -, hflow⟩ := hsol.satisfied hb
    rw [Flowgraph.sitesOf_eq hblock] at hs
    obtain ⟨i, hi⟩ := Problem.exists_mem_walkOrder (p := ⟨k.analysis, g, b₀⟩) hs
    obtain ⟨e, e', he, happly⟩ := Problem.exists_apply_of_mem k.lawful hflow hi
    have hin := (hsol.reached hsound k.lawful hb hst).1
    have hsite : s ∈ g.sites := Flowgraph.mem_sites_of_block? hblock hs
    have herror := (transfer_eq_error_iff hsound.sane hsite (he.trans hin.locals_eq)).2 href
    rw [Problem.apply, herror] at happly
    cases happly

theorem run_eq_error_iff (hg : g.Built) (hp : Problem.create k.analysis g = .ok p) (hq : q.Fresh) :
    (∃ f, k.analysis.runFrom g q = .error f) ↔
      ∃ b, p.Reachable b ∧ ∃ s ∈ g.sitesOf b, (k.refusal? s.instruction).isSome = true := by
  constructor
  · rintro ⟨f, hrun⟩
    obtain ⟨b, hb, s, hs, href⟩ := exists_refused_of_run hg hp hq hrun
    exact ⟨b, hb, s, hs, by rw [href]; rfl⟩
  · rintro ⟨b, hb, s, hs, href⟩
    obtain ⟨f, href⟩ := Option.isSome_iff_exists.1 href
    exact exists_error_of_refused hg hp hq hb hs href

theorem mayMeet_refused_iff (hk : k ≠ .liveVariables) :
    g.MayMeet (fun i => (k.refusal? i).isSome = true) ↔ k.Fails g := by
  cases k with
  | constantFolding => simp only [refusal?, Option.isSome_map, Instruction.foreign?_isSome_iff]; rfl
  | constantBits =>
    have hrefused : ∀ i, (refusal? .constantBits i).isSome = true ↔
        i.isSwitch = true ∨ i.ComputesForeign := by
      intro i
      rw [← Instruction.foreign?_isSome_iff, refusal?]
      split <;> simp_all
    simp only [hrefused]
    exact Flowgraph.mayMeet_or
  | reachingDefinitions =>
    have hrefused : ∀ i, (refusal? .reachingDefinitions i).isSome = true ↔ i.isSwitch = true := by
      intro i
      rw [refusal?]
      split <;> simp_all
    simp only [hrefused]
    rfl
  | taint => simp [refusal?, Flowgraph.MayMeet, Fails]
  | liveVariables => exact absurd rfl hk

theorem direction_eq_forward (hk : k ≠ .liveVariables) : k.analysis.direction = .forward := by
  cases k with
  | liveVariables => exact absurd rfl hk
  | _ => rfl

theorem run_liveVariables_none (hg : g.Built) (hexit : g.exit = none) :
    LiveVariables.analysis.runFrom g q = .error (.noBoundary .backward) := by
  rw [Analysis.runFrom, Problem.create_backward_none hg rfl hexit]
  rfl

/-- The liveness of locals refuses nothing, but needs an exit to start from. -/
theorem run_liveVariables_error (hg : g.Built) (hq : q.Fresh)
    (hrun : LiveVariables.analysis.runFrom g q = .error f) :
    g.exit = none ∧ f = .noBoundary .backward := by
  cases hexit : g.exit with
  | none =>
    rw [run_liveVariables_none hg hexit] at hrun
    cases hrun
    exact ⟨rfl, rfl⟩
  | some exit =>
    have hp := Problem.create_backward (a := LiveVariables.analysis) hg rfl hexit
    obtain ⟨b, -, s, -, href⟩ := exists_refused_of_run (k := .liveVariables) hg hp hq hrun
    cases href

theorem run_error_iff_fails (k : AnalysisKind) (hg : g.Built) (hq : q.Fresh) :
    (∃ f, k.analysis.runFrom g q = .error f) ↔ k.Fails g := by
  by_cases hk : k = .liveVariables
  · subst hk
    constructor
    · rintro ⟨f, hrun⟩
      exact (run_liveVariables_error hg hq hrun).1
    · intro hexit
      exact ⟨_, run_liveVariables_none hg hexit⟩
  · have hdir := direction_eq_forward hk
    rw [run_eq_error_iff hg (Problem.create_forward hg hdir) hq, ← mayMeet_refused_iff hk]
    simp only [Problem.reachable_forward_iff (p := ⟨k.analysis, g, g.entry⟩) hdir]
    rfl

theorem kind_of_run (hg : g.Built) (hq : q.Fresh) (hrun : k.analysis.runFrom g q = .error f) :
    f.kind ∈ k.faultClasses := by
  by_cases hk : k = .liveVariables
  · subst hk
    obtain ⟨-, rfl⟩ := run_liveVariables_error hg hq hrun
    simp [Fault.kind, faultClasses]
  · obtain ⟨b, -, s, -, href⟩ :=
      exists_refused_of_run hg (Problem.create_forward hg (direction_eq_forward hk)) hq hrun
    exact kind_of_refusal href

/-- A run of an analysis fails exactly on the programs that the analysis fails on, whatever the order of
its visits, and with a fault of one of the classes of the analysis. A run that does not fail completes.
At every moment of a run, whatever is looked up by its number is there. -/
theorem run_fails_iff (k : AnalysisKind) (hg : g.Built) (hq : q.Fresh) :
    ((∃ f, k.analysis.runFrom g q = .error f) ↔ k.Fails g) ∧
    (∀ f, k.analysis.runFrom g q = .error f → f.kind ∈ k.faultClasses ∧
      f.kind ∉ [.emptyInput, .mismatchedDomain, .invalidArgument]) ∧
    (∀ h, k.analysis.runFrom g q = .ok h → ∃ last, h.last? = some last ∧ last.worklist = []) ∧
    ∀ p, Problem.create k.analysis g = .ok p →
      ∀ n m, (Engine.start p q).Moved n m → m.InRange g := by
  have hclasses : ∀ c ∈ k.faultClasses, c ∉ [.emptyInput, .mismatchedDomain, .invalidArgument] := by
    cases k <;> decide
  refine ⟨run_error_iff_fails k hg hq, fun f hrun => ?_, fun h hrun => ?_, fun p hp n m hmoved => ?_⟩
  · have hkind := kind_of_run hg hq hrun
    exact ⟨hkind, hclasses _ hkind⟩
  · obtain ⟨p, hp, -⟩ := bind_eq_ok.1 hrun
    obtain ⟨last, hlast, hempty, -⟩ := k.lawful.solution_of_run hg hp hq hrun
    exact ⟨last, hlast, hempty⟩
  · exact (Problem.boundary_of_create hp).2.1 ▸ hmoved.inRange (Problem.sound_of_create hg hp) hq

/-- A program that sets a number to `null`, with a switch in a loop that control never arrives at. -/
def sheltering : Flowgraph where
  graph := ⟨[⟨0, [.assign (.var ⟨"x", .int⟩) (.operand (.literal .null)), .ret none], false⟩,
    ⟨2, [.tableSwitch (.read ⟨"x", .int⟩)], false⟩], [(1, 1)]⟩
  entry := 0
  exit := some 0
  locals := .ofList [⟨"x", .int⟩, ⟨"x", .int⟩]

theorem sheltering_built : sheltering.Built := by
  have hblocks := (Draft.Made.empty.addBlock [.assign (.var ⟨"x", .int⟩) (.operand (.literal .null)),
    .ret none]).addBlock [.tableSwitch (.read ⟨"x", .int⟩)]
  exact ⟨_, @Draft.Made.addEdge _ _ 1 1 hblocks rfl, rfl⟩

/-- The switch does no harm, as control does not arrive at it. -/
theorem run_fails_iff_sheltering :
    (∃ f, constantFolding.analysis.runFrom sheltering (.naive []) = .error f) ∧
      ∃ h, reachingDefinitions.analysis.runFrom sheltering (.naive []) = .ok h := by
  constructor
  · apply (run_fails_iff constantFolding sheltering_built .naive).1.2
    refine ⟨0, ⟨_, .single 0⟩, _, List.mem_cons_self, ?_⟩
    exact ⟨⟨"x", .int⟩, .operand (.literal .null), rfl, rfl, .literal .null, by decide, rfl⟩
  · cases hrun : reachingDefinitions.analysis.runFrom sheltering (.naive []) with
    | ok h => exact ⟨h, rfl⟩
    | error f =>
      obtain ⟨b, ⟨path, hpath⟩, s, hs, hswitch⟩ :=
        (run_fails_iff reachingDefinitions sheltering_built .naive).1.1 ⟨f, hrun⟩
      cases hpath with
      | single =>
        have hnone : ∀ s ∈ sheltering.sitesOf 0, s.instruction.isSwitch = false := by decide
        rw [hnone s hs] at hswitch
        cases hswitch
      | cons hnext _ => cases hnext

end AnalysisKind

end FlowHistory
