import FlowHistory.Proofs.ReachingSites
import FlowHistory.Proofs.Recording

/-!
# The states in snapshots are well formed

Whatever a run of one of the five analyses records, also midway in a block and also if it is stopped or
fails later on: the states are over the tracked locals, patterns have the width of their local, and a block
that has been under the cursor holds no bottom and only sets of definitions of the very local.
-/
namespace FlowHistory

namespace ReachingDefinitions

/-- A set over the instructions of the program, all of which define the local. -/
def DefinitionsOf (g : Flowgraph) (x : Local) (v : DefValue) : Prop :=
  ∃ t, v = .sites t ∧ t.capacity = g.instructionCount ∧
    ∀ id ∈ t, ∃ s ∈ g.sites, s.id = id ∧ s.instruction.defined? = some x

theorem DefinitionsOf.union {g : Flowgraph} {x : Local} {v w u : DefValue} (hv : DefinitionsOf g x v)
    (hw : DefinitionsOf g x w) (h : v.union w = .ok u) : DefinitionsOf g x u := by
  obtain ⟨s, rfl, hcap, hs⟩ := hv
  obtain ⟨t, rfl, -, ht⟩ := hw
  obtain ⟨r, hr, rfl⟩ := DefValue.union_sites.1 h
  refine ⟨r, rfl, (IndexSet.capacity_of_union? hr).2.trans hcap, fun id hid => ?_⟩
  rcases (IndexSet.mem_of_union? hr).1 hid with hid | hid
  · exact hs id hid
  · exact ht id hid

theorem keeps_definitionsOf (g : Flowgraph) :
    analysis.Keeps g fun x v => v = .bottom ∨ DefinitionsOf g x v where
  bottom _ := .inl rfl
  fresh _ := .inr ⟨_, rfl, rfl, fun id hid => absurd hid (IndexSet.not_mem_empty _ id)⟩
  join {x v w u} hv hw h := by
    rcases hv with rfl | hv
    · cases h
      exact hw
    · rcases hw with rfl | hw
      · obtain ⟨s, rfl, hs⟩ := hv
        cases h
        exact .inr ⟨s, rfl, hs⟩
      · exact .inr (hv.union hw h)
  transfer {s e e'} hs he h y v hv := by
    by_cases hy : s.instruction.defined? = some y
    · obtain ⟨w, hw⟩ := Env.exists_get?_of_locals_eq (lawful.transfer_locals h) hv
      obtain ⟨t, ht, hcap, hmem⟩ := get?_transfer_of_defines h hy hw
      rw [hv, Option.some.injEq] at ht
      exact .inr ⟨t, ht, hcap, fun id hid => ⟨s, hs, ((hmem id).1 hid).symm, hy⟩⟩
    · rw [get?_transfer_of_not_defines h hy] at hv
      exact he y v hv

end ReachingDefinitions

/-- Block `b` is under the cursor in snapshot `i` or in an earlier one. -/
def SeenBy {V : Type} (snapshots : Array (Snapshot V)) (i b : Nat) : Prop :=
  ∃ j snap, j ≤ i ∧ snapshots[j]? = some snap ∧ snap.cursor.block = b

theorem seenBy_iff {V : Type} {snapshots : Array (Snapshot V)} {i b : Nat} :
    SeenBy snapshots i b ↔ ∃ s ∈ snapshots.toList.take (i + 1), s.cursor.block = b := by
  constructor
  · rintro ⟨j, snap, hj, hsnap, hb⟩
    refine ⟨snap, List.mem_iff_getElem?.2 ⟨j, ?_⟩, hb⟩
    rw [List.getElem?_take_of_lt (by omega), Array.getElem?_toList, hsnap]
  · rintro ⟨snap, hmem, hb⟩
    obtain ⟨j, hj⟩ := List.mem_iff_getElem?.1 hmem
    rw [List.getElem?_take] at hj
    split at hj
    · rename_i hlt
      exact ⟨j, snap, by omega, by rwa [← Array.getElem?_toList], hb⟩
    · cases hj

namespace AnalysisKind

/-- The shape of a value that belongs to a local, whether or not control has arrived. -/
def Shaped : (k : AnalysisKind) → Local → k.Value → Prop
  | .constantBits, x, v => BitPattern.width v = x.type.bitWidth
  | _, _, _ => True

/-- What a value of a local is where control has arrived. -/
def Arrived (g : Flowgraph) : (k : AnalysisKind) → Local → k.Value → Prop
  | .constantFolding, _, v => v ≠ ConstValue.bottom
  | .constantBits, _, v => ∀ bit ∈ BitPattern.bits v, bit ≠ .bottom
  | .reachingDefinitions, x, v => ReachingDefinitions.DefinitionsOf g x v
  | .taint, _, v => TaintValue.state v ≠ .bottom
  | .liveVariables, _, v => v ≠ LiveValue.bottom

/-- A state over the tracked locals, with values of the right shape. -/
structure WellFormed (k : AnalysisKind) (g : Flowgraph) (e : Env k.Value) : Prop where
  locals_eq : e.locals = (k.analysis.locals g).toList
  shaped : e.All k.Shaped

/-- Every table that is shown has well-formed states, arrived ones for the blocks that have been under
the cursor and untouched ones for all others. -/
def WellRecorded (k : AnalysisKind) (g : Flowgraph) (snapshots : Array (Snapshot k.Value)) : Prop :=
  ∀ i snap, snapshots[i]? = some snap → snap.states.length = g.blockCount ∧
    ∀ b s, snap.states[b]? = some s →
      (k.WellFormed g s.input ∧ k.WellFormed g s.output) ∧
      (SeenBy snapshots i b → s.input.All (k.Arrived g) ∧ s.output.All (k.Arrived g)) ∧
      (¬ SeenBy snapshots i b → s.input = k.analysis.bottomEnv g ∧ s.output = k.analysis.bottomEnv g)

variable {k : AnalysisKind} {g : Flowgraph} {q : Worklist} {boundary n b : Nat} {m : Engine k.Value}

theorem wellFormed_of_fits {e : Env k.Value} (h : k.lawful.Fits g e) : k.WellFormed g e := by
  refine ⟨h.locals_eq, fun x v hv => ?_⟩
  cases k with
  | constantBits => exact h.values x v hv
  | _ => trivial

/-- At each moment, the blocks visited so far hold arrived values. -/
theorem arrived_of_moved (hp : (Problem.mk k.analysis g boundary).Sound) (hq : q.Fresh)
    (h : (Engine.start ⟨k.analysis, g, boundary⟩ q).Moved n m) (hv : m.visited[b]? = some true)
    {s : BlockState k.Value} (hs : m.states[b]? = some s) :
    s.input.All (k.Arrived g) ∧ s.output.All (k.Arrived g) := by
  have hreached := (h.held hp k.lawful hq).reached hv hs
  cases k with
  | reachingDefinitions =>
    have hkept := (ReachingDefinitions.keeps_definitionsOf g).moved hp hq h hs
    constructor
    · intro x v hxv
      exact (hkept.1 x v hxv).resolve_left (hreached.1.above x v hxv)
    · intro x v hxv
      exact (hkept.2 x v hxv).resolve_left (hreached.2.above x v hxv)
  | _ => exact ⟨hreached.1.above, hreached.2.above⟩

theorem wellRecorded_of_moved (hp : (Problem.mk k.analysis g boundary).Sound) (hq : q.Fresh)
    (h : (Engine.start ⟨k.analysis, g, boundary⟩ q).Moved n m) : k.WellRecorded g m.snapshots := by
  intro i snap hsnap
  -- the moment at which the snapshot was taken
  obtain ⟨j, t, hmoved, hstates, hprefix⟩ := h.exists_moment (by rwa [Array.getElem?_toList])
  have hnoted := hmoved.noted hp hq
  have hheld := hmoved.held hp k.lawful hq
  have hseen : ∀ b, SeenBy m.snapshots i b ↔ t.visited[b]? = some true := by
    intro b
    rw [seenBy_iff, ← hprefix, hnoted.seen_iff]
  rw [← hstates]
  refine ⟨hnoted.states_length, fun b s hs => ⟨?_, fun hb => ?_, fun hb => ?_⟩⟩
  · have hfits := hheld.fits hs
    exact ⟨wellFormed_of_fits hfits.1, wellFormed_of_fits hfits.2⟩
  · exact arrived_of_moved hp hq hmoved ((hseen b).1 hb) hs
  · have hlt : b < g.blockCount := hnoted.states_length ▸ (List.getElem?_eq_some_iff.1 hs).1
    rw [hmoved.bottom_of_not_visited hp k.lawful hq hlt (mt (hseen b).2 hb), Option.some.injEq] at hs
    exact hs ▸ ⟨rfl, rfl⟩

/-- Every snapshot that a run records is well formed, however many steps the run makes and whichever way
it ends. -/
theorem snapshots_well_formed (k : AnalysisKind) (hg : g.Built) (hq : q.Fresh) :
    (∀ p, Problem.create k.analysis g = .ok p →
      ∀ n, k.WellRecorded g ((Engine.start p q).drive n).1.snapshots) ∧
    ∀ h, k.analysis.runFrom g q = .ok h → k.WellRecorded g h.snapshots := by
  have hdriven : ∀ p, Problem.create k.analysis g = .ok p →
      ∀ n, k.WellRecorded g ((Engine.start p q).drive n).1.snapshots := by
    intro p hp n
    have hsound := Problem.sound_of_create hg hp
    obtain ⟨b, -, hp⟩ := bind_eq_ok.1 hp
    cases hp
    obtain ⟨i, hmoved⟩ := Engine.moved_drive (p := ⟨k.analysis, g, b⟩) hq n
    exact wellRecorded_of_moved hsound hq hmoved
  refine ⟨hdriven, fun h hrun => ?_⟩
  obtain ⟨p, hp, hrun⟩ := bind_eq_ok.1 hrun
  have hengine : h = (Run.ofQueue p q).engine.history := by
    simp only [Run.outcome] at hrun
    split at hrun
    · cases hrun
    · exact (Except.ok.inj hrun).symm
  rw [hengine]
  exact hdriven p hp (p.analysis.budget p.graph)

/-- In the last snapshot, the blocks of the loop program hold sets of definitions. -/
theorem snapshots_well_formed_doubling :
    ∃ h last s, reachingDefinitions.analysis.run doubling ⟨.random, some 7⟩ = .ok h ∧
      h.last? = some last ∧ last.states[2]? = some s ∧
      s.output.All (ReachingDefinitions.DefinitionsOf doubling) := by
  obtain ⟨h, hrun⟩ := AnalysisKind.exists_run_doubling .reachingDefinitions ⟨.random, some 7⟩
  have hfresh := Config.worklist_fresh ⟨.random, some 7⟩
  obtain ⟨last, hlast, -, hsol, hvisited⟩ :=
    reachingDefinitions.lawful.solution_of_run doubling_built rfl hfresh hrun
  have hpath : doubling.Path 0 [0, 1, 2] 2 := .cons (by decide) (.cons (by decide) (.single 2))
  have hreach := (Problem.reachable_forward_iff (p := ⟨reachingDefinitions.analysis, doubling, 0⟩) rfl).2
    ⟨_, hpath⟩
  obtain ⟨snap, hsnap, hcursor⟩ := (hvisited 2).2 hreach
  obtain ⟨j, hj⟩ := List.mem_iff_getElem?.1 hsnap
  rw [Array.getElem?_toList] at hj
  have hlt := (Array.getElem?_eq_some_iff.1 hj).1
  have hback : h.snapshots[h.snapshots.size - 1]? = some last := by
    rw [← Array.back?_eq_getElem?]
    exact hlast
  obtain ⟨s, hs⟩ := hsol.exists_state (show 2 < doubling.blockCount by decide)
  obtain ⟨-, hrecorded⟩ := snapshots_well_formed reachingDefinitions doubling_built hfresh
  obtain ⟨-, hstates⟩ := hrecorded h hrun _ last hback
  obtain ⟨-, harrived, -⟩ := hstates 2 s hs
  exact ⟨h, last, s, hrun, hlast, hs, (harrived ⟨j, snap, Nat.le_sub_one_of_lt hlt, hj, hcursor⟩).2⟩

end AnalysisKind

end FlowHistory
