import FlowHistory.Proofs.Execution
import FlowHistory.Proofs.Fixpoint
import FlowHistory.Proofs.Paths

/-!
# Executions followed by an analysis

An execution goes along a path of blocks and takes each instruction as one step between states of any
kind. A relation between such states and those of an analysis that transfers and joins keep is a
simulation: by induction on the path, it holds between the state in which the execution arrives at the
end of a block and the result that a solution has for the block.
-/
namespace FlowHistory

/-- Going forward, the instructions of a block are walked as they are executed. -/
theorem Problem.instructions_walkOrder {V : Type} {p : Problem V} (hp : p.direction = .forward)
    (block : Block) : (p.walkOrder block).map (fun s => s.2.instruction) = block.instructions := by
  have hsites : block.sites.map Site.instruction = block.instructions := by
    simp only [Block.sites, List.map_map, Function.comp_def]
    exact List.zipIdx_map_fst _ _
  rw [← hsites, ← sites_walkOrder_forward hp, List.map_map]
  rfl

variable {V S : Type} [LatticeValue V] {a : Analysis V} {g : Flowgraph} {start : S → Prop}
  {step : Instruction → S → S → Prop} {R : Env V → S → Prop}

/-- A relation between states of an analysis and of executions that holds at the start and is kept by
joins and by each instruction of the program. -/
structure Analysis.Simulates (a : Analysis V) (g : Flowgraph) (start : S → Prop)
    (step : Instruction → S → S → Prop) (R : Env V → S → Prop) : Prop where
  fresh {σ : S} : start σ → R (a.freshEnv g) σ
  up {e f : Env V} {σ : S} : R e σ → e.Below f → R f σ
  transfer {s : Site} {e e' : Env V} {σ τ : S} : s ∈ g.sites → e.locals = (a.locals g).toList →
    R e σ → a.transfer g.instructionCount s e = .ok e' → step s.instruction σ τ → R e' τ

namespace Analysis.Simulates

variable {p : Problem V}

theorem applyAll (sim : a.Simulates g start step R) (law : a.Lawful) (hp : Problem.create a g = .ok p)
    {l : List (Nat × Site)} {e e' : Env V} {σ τ : S} (hl : ∀ s ∈ l, s.2 ∈ g.sites)
    (he : e.locals = (a.locals g).toList) (hR : R e σ) (h : p.applyAll l e = .ok e')
    (hruns : Instruction.RunsAll step (l.map fun s => s.2.instruction) σ τ) : R e' τ := by
  obtain ⟨rfl, rfl, -⟩ := Problem.boundary_of_create hp
  induction l generalizing e σ with
  | nil =>
    cases h
    cases hruns
    exact hR
  | cons s l ih =>
    obtain ⟨f, hs, hrest⟩ := Problem.applyAll_cons.1 h
    cases hruns with
    | cons hstep hruns =>
      have hR' := sim.transfer (hl s (by simp)) he hR hs hstep
      have he' := (law.transfer_locals hs).trans he
      exact ih hR' hrest hruns (fun t ht => hl t (by simp [ht])) he'

variable [LawfulJoin V] {X : List (BlockState V)} {b : Nat} {σ τ : S}

/-- Through a block of the flow, a solution follows the execution. -/
theorem visit (sim : a.Simulates g start step R) (law : a.Lawful) (hg : g.Built)
    (hp : Problem.create a g = .ok p) (hdir : a.direction = .forward) (hX : p.Solution X)
    (hb : p.Reachable b) {block : Block} (hblock : g.block? b = some block)
    (hin : ∀ s, X[b]? = some s → p.inputOf X b = .ok s.input → R s.input σ)
    (hruns : Instruction.RunsAll step block.instructions σ τ) :
    ∃ s, X[b]? = some s ∧ R s.output τ := by
  have hsound := Problem.sound_of_create hg hp
  obtain ⟨rfl, rfl, -⟩ := Problem.boundary_of_create hp
  obtain ⟨block', s, hblock', hs, hinput, hflow⟩ := hX.satisfied hb
  rw [hblock] at hblock'
  cases hblock'
  refine ⟨s, hs, sim.applyAll law hp (fun t ht => ?_) ?_ (hin s hs hinput) hflow ?_⟩
  · exact Flowgraph.mem_sites_of_block? hblock (Problem.mem_sites_of_mem_walkOrder ht)
  · exact (hX.reached hsound law hb hs).1.locals_eq
  · rwa [Problem.instructions_walkOrder hdir]

/-- The flow arrives wherever an execution does, and the result that a solution holds there is related
to the state of the execution. -/
theorem follows (sim : a.Simulates g start step R) (law : a.Lawful) (hg : g.Built)
    (hp : Problem.create a g = .ok p) (hdir : a.direction = .forward) (hX : p.Solution X)
    (h : g.Executed start step b σ) : p.Reachable b ∧ ∃ s, X[b]? = some s ∧ R s.output σ := by
  have hsound := Problem.sound_of_create hg hp
  obtain ⟨ha, hgraph, -⟩ := Problem.boundary_of_create hp
  have hentry := Problem.boundary_eq_entry hg hp hdir
  induction h with
  | enter hstart hblock hruns =>
    have hreach : p.Reachable g.entry := hentry ▸ .refl
    refine ⟨hreach, sim.visit law hg hp hdir hX hreach hblock (fun s _ hinput => ?_) hruns⟩
    rw [← hentry, Problem.inputOf_of_sources_nil ((hsound.sources_nil_iff hsound.boundary_lt).2 rfl),
      Problem.seed_boundary, ha, hgraph, Except.ok.injEq] at hinput
    rw [← hinput]
    exact sim.fresh hstart
  | @follow b c σ τ block _ hc hblock hruns ih =>
    obtain ⟨hreach, sb, hsb, hR⟩ := ih
    have htarget : c ∈ p.targets b := by
      rw [Problem.targets, Problem.direction_of_create hp, hdir, hgraph]
      exact hc
    have hsource : b ∈ p.sources c := Problem.mem_sources_iff.2 htarget
    have hreach' := hreach.tail htarget
    refine ⟨hreach', sim.visit law hg hp hdir hX hreach' hblock (fun s _ hinput => ?_) hruns⟩
    rw [Problem.inputOf_of_sources_ne_nil (List.ne_nil_of_mem hsource)] at hinput
    exact sim.up hR (Env.below_joinAll hinput (Problem.mem_incoming.2 ⟨b, hsource, sb, hsb, rfl⟩))

end Analysis.Simulates

/-! Values that are related to the words of a store, local by local. -/

namespace Env

variable {W : Type} {D : (x : Local) → W → BitVec x.type.bitWidth → Prop} {e e' : Env W} {σ : Store}
  {x : Local} {b : BitVec x.type.bitWidth}

theorem all_write_put {v : W} (he : e.All fun y w => D y w (σ y)) (hv : D x v b) :
    (e.write x v).All fun y w => D y w (σ.put x b y) := by
  intro y w hw
  rcases get?_write_eq_some hw with ⟨rfl, rfl⟩ | ⟨hne, hw⟩
  · rwa [Store.put_same]
  · rw [Store.put_other σ b hne]
    exact he y w hw

theorem all_assign_put {value : Env W → Except Fault W} (he : e.All fun y w => D y w (σ y))
    (hv : ∀ v, value e = .ok v → D x v b) (h : e.assign x value = .ok e') :
    e'.All fun y w => D y w (σ.put x b y) := by
  rcases assign_eq_ok h with ⟨-, v, hval, rfl⟩ | ⟨hx, rfl⟩
  · exact all_write_put he (hv v hval)
  · -- a local that is not tracked may change
    intro y w hw
    have hne : y ≠ x := by
      rintro rfl
      simp [contains, hw] at hx
    rw [Store.put_other σ b hne]
    exact he y w hw

end Env

end FlowHistory
