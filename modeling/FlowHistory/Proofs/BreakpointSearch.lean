import FlowHistory.Proofs.LinkedCursors

/-!
# The search for a breakpoint

A navigator that looks for a breakpoint goes on step by step, until it comes to a marked instruction or
cannot go on. As a relation this has no bound on the number of steps; it has exactly one outcome, and the
number of recorded steps is bound enough to find it. The outcome is the first marked step after the cursor, or
the last step if there is none. A step of an empty block executed no instruction and counts as not marked.
-/
namespace FlowHistory

namespace History

variable {V : Type} {h : History V} {marks : Breakpoints} {step : Nat}

/-- The instruction that a step executed is marked. -/
def MarkedAt (h : History V) (marks : Breakpoints) (step : Nat) : Prop :=
  ∃ snap site, h.snapshot? step = some snap ∧ h.site? snap = some site ∧ marks.isSet site.id = true

theorem MarkedAt.lt (hm : h.MarkedAt marks step) : step < h.size := by
  obtain ⟨snap, site, hsnap, -⟩ := hm
  exact (Array.getElem?_eq_some_iff.1 hsnap).1

theorem markedAt_iff {snap : Snapshot V} (hs : h.snapshot? step = some snap) :
    h.MarkedAt marks step ↔ ∃ site, h.site? snap = some site ∧ marks.isSet site.id = true := by
  simp [MarkedAt, hs]

/-- The first marked step after a given one. -/
def FirstAfter (h : History V) (marks : Breakpoints) (before step : Nat) : Prop :=
  before < step ∧ h.MarkedAt marks step ∧ ∀ s, before < s → s < step → ¬ h.MarkedAt marks s

end History

namespace Navigator

variable {V : Type} {n : Navigator V} {marks : Breakpoints} {r r' : Bool × Navigator V}

theorem atBreakpoint_iff : n.atBreakpoint marks = true ↔ n.history.MarkedAt marks n.step := by
  rw [atBreakpoint, snapshot?, History.MarkedAt]
  cases hsnap : n.history.snapshot? n.step with
  | none => simp
  | some snap =>
    cases hsite : n.history.site? snap with
    | none => simp [hsite]
    | some site => simp [hsite]

/-- The search with no bound on its steps. -/
inductive Seeks (marks : Breakpoints) : Navigator V → Bool × Navigator V → Prop
  | stuck {n : Navigator V} : n.next.1 = false → Seeks marks n (false, n.next.2)
  | found {n : Navigator V} : n.next.1 = true → n.next.2.atBreakpoint marks = true →
    Seeks marks n (true, n.next.2)
  | onward {n : Navigator V} {r : Bool × Navigator V} : n.next.1 = true →
    n.next.2.atBreakpoint marks = false → Seeks marks n.next.2 r → Seeks marks n r

theorem Seeks.unique (h : Seeks marks n r) (h' : Seeks marks n r') : r = r' := by
  induction h with
  | stuck hr =>
    cases h' with
    | stuck _ => rfl
    | found hmoved _ | onward hmoved _ _ =>
      rw [hr] at hmoved
      cases hmoved
  | found hmoved hmark =>
    cases h' with
    | stuck hr =>
      rw [hmoved] at hr
      cases hr
    | found _ _ => rfl
    | onward _ hclear _ =>
      rw [hmark] at hclear
      cases hclear
  | onward hmoved hclear _ ih =>
    cases h' with
    | stuck hr =>
      rw [hmoved] at hr
      cases hr
    | found _ hmark =>
      rw [hclear] at hmark
      cases hmark
    | onward _ _ hrest => exact ih hrest

/-- With a bound that reaches to the end of the record, the search ends by itself. -/
theorem Linked.seeks (hl : n.Linked) {limit : Nat} (hlimit : n.history.size ≤ n.step + limit) :
    Seeks marks n (seekBreakpoint marks limit n) := by
  induction limit generalizing n with
  | zero =>
    -- there is nothing in the record, so a step on is refused too
    rcases hl.next_cases with ⟨-, hlt, -⟩ | ⟨hr, -⟩
    · omega
    · have hstuck : Seeks marks n (false, n.next.2) := .stuck hr
      rw [hl.next_of_refused hr] at hstuck
      exact hstuck
  | succ limit ih =>
    simp only [seekBreakpoint]
    cases hmoved : n.next.1 with
    | false => exact .stuck hmoved
    | true =>
      have hstep := hl.step_next hmoved
      cases hmark : n.next.2.atBreakpoint marks with
      | true => exact .found hmoved hmark
      | false =>
        have hrest : n.next.2.history.size ≤ n.next.2.step + limit := by
          rw [hstep]
          exact Nat.le_trans hlimit (by omega)
        exact .onward hmoved hmark (ih (linked_goto n _) hrest)

/-- A turn of the search that finds nothing passes one step by, and that one is not marked. -/
theorem Linked.markedAt_after (hl : n.Linked) (hmoved : n.next.1 = true)
    (hclear : n.next.2.atBreakpoint marks = false) {s : Nat} (hs : n.step < s)
    (hmark : n.history.MarkedAt marks s) : n.next.2.step < s := by
  have hstep := hl.step_next hmoved
  have hne : s ≠ n.next.2.step := by
    rintro rfl
    rw [atBreakpoint_iff.2 hmark] at hclear
    cases hclear
  omega

theorem Seeks.firstAfter (h : Seeks marks n r) (hl : n.Linked) (hfound : r.1 = true) :
    n.history.FirstAfter marks n.step r.2.step := by
  induction h with
  | stuck _ => cases hfound
  | @found n hmoved hmark =>
    have hstep := hl.step_next hmoved
    change n.history.FirstAfter marks n.step n.next.2.step
    exact ⟨by omega, atBreakpoint_iff.1 hmark, fun s hs hlt => by omega⟩
  | @onward n r hmoved hclear _ ih =>
    have hstep := hl.step_next hmoved
    obtain ⟨hlt, hmark, hbetween⟩ := ih (linked_goto n _) hfound
    exact ⟨by omega, hmark, fun s hs hbefore hs' =>
      hbetween s (hl.markedAt_after hmoved hclear hs hs') hbefore hs'⟩

theorem Seeks.not_markedAt (h : Seeks marks n r) (hl : n.Linked) (hlost : r.1 = false) :
    r.2.step = n.history.size - 1 ∧ ∀ s, n.step < s → ¬ n.history.MarkedAt marks s := by
  induction h with
  | @stuck n hr =>
    have hlast := hl.step_of_refused hr
    refine ⟨by rw [hl.next_of_refused hr, hlast], fun s hs hmark => ?_⟩
    have hlt := hmark.lt
    omega
  | found _ _ => cases hlost
  | @onward n r hmoved hclear _ ih =>
    obtain ⟨hlast, hnone⟩ := ih (linked_goto n _) hlost
    exact ⟨hlast, fun s hs hmark => hnone s (hl.markedAt_after hmoved hclear hs hmark) hmark⟩

theorem Linked.seeks_iff (hl : n.Linked) : Seeks marks n r ↔ r = n.runToBreakpoint marks := by
  have hrun : Seeks marks n (n.runToBreakpoint marks) := hl.seeks (Nat.le_add_left _ _)
  constructor
  · intro h
    exact h.unique hrun
  · intro h
    rw [h]
    exact hrun

end Navigator

/-! The instruction under a recorded cursor. -/

theorem Direction.index_lt_of_mem_tour {d : Direction} {b n : Nat} {c : Cursor} (h : c ∈ d.tour b n) :
    c.index < max 1 n := by
  obtain ⟨i, hi, rfl⟩ := List.mem_map.1 h
  cases d <;> simpa [positions] using hi

theorem Engine.Charted.exists_block {V : Type} {p : Problem V} {e : Engine V} {visits : List (Visit V)}
    {snap : Snapshot V} (h : Charted p e visits) (hs : snap ∈ e.snapshots.toList) :
    ∃ block, p.graph.block? snap.cursor.block = some block ∧ snap.cursor.index < max 1 block.size := by
  have hall : snap ∈ (visits.map Visit.snapshots).flatten := h.divided.snapshots_eq ▸ hs
  obtain ⟨part, hpart, hmem⟩ := List.mem_flatten.1 hall
  obtain ⟨v, hv, rfl⟩ := List.mem_map.1 hpart
  obtain ⟨-, block, hwalks⟩ := h.walks hv
  have hcursor : snap.cursor ∈ v.snapshots.map Snapshot.cursor := List.mem_map_of_mem hmem
  rw [hwalks.cursors] at hcursor
  refine ⟨block, ?_, Direction.index_lt_of_mem_tour (List.mem_of_mem_take hcursor)⟩
  rw [hwalks.block_of_mem hmem]
  exact hwalks.lookup

namespace AnalysisKind

variable {k : AnalysisKind} {g : Flowgraph} {h : History k.Value} {n : Navigator k.Value}

/-- A recorded step is at a block of the graph, and executed an instruction of it unless the block is
empty. -/
theorem site_of_records (hg : g.Built) (hh : k.analysis.Records g h) {s : Nat} {snap : Snapshot k.Value}
    (hs : h.snapshot? s = some snap) :
    ∃ block, g.block? snap.cursor.block = some block ∧
      (block.isEmpty = true → h.site? snap = none) ∧
      (block.isEmpty = false → ∃ site, block.sites[snap.cursor.index]? = some site ∧
        h.site? snap = some site) := by
  obtain ⟨p, hp, q, i, m, hq, hmoved, rfl⟩ := leaves_of_records hg hh
  obtain ⟨visits, hvisits⟩ := hmoved.charted (Problem.sound_of_create hg hp) hq
  have hgraph : p.graph = g := (direction_of_create hp).1
  obtain ⟨block, hblock, hlt⟩ := hvisits.exists_block (Array.mem_toList_iff.2 (Array.mem_of_getElem? hs))
  rw [hgraph] at hblock
  have hsite : m.history.site? snap = block.sites[snap.cursor.index]? := by
    rw [History.site?, Engine.history, Flowgraph.siteAt?, hvisits.problem_eq, hgraph, hblock]
    rfl
  have hlength : block.sites.length = block.size := by simp [Block.sites, Block.size]
  refine ⟨block, hblock, fun hempty => ?_, fun hne => ?_⟩
  · have hzero : block.size = 0 := by simpa [Block.isEmpty, Block.size] using hempty
    rw [hsite]
    exact List.getElem?_eq_none (by omega)
  · have hpos : block.size ≠ 0 := by simpa [Block.isEmpty, Block.size] using hne
    have hget := List.getElem?_eq_getElem (l := block.sites) (i := snap.cursor.index) (by omega)
    exact ⟨_, hget, hsite.trans hget⟩

/-- The search from anywhere in the record of a run comes to one end. That is the first marked step after the
cursor if there is one. Else it finds nothing and ends at the last step, or at 0 if nothing was recorded. A
step counts as marked if its instruction is, and not at all if its block is empty. -/
theorem searches_stop_first (hg : g.Built) (hh : k.analysis.Records g h) (hn : Navigator.Reached h n)
    (marks : Breakpoints) :
    (∀ r, n.Seeks marks r ↔ r = n.runToBreakpoint marks) ∧
    ((∃ s, n.step < s ∧ h.MarkedAt marks s) → (n.runToBreakpoint marks).1 = true ∧
      h.FirstAfter marks n.step (n.runToBreakpoint marks).2.step) ∧
    ((∀ s, n.step < s → ¬ h.MarkedAt marks s) → (n.runToBreakpoint marks).1 = false ∧
      (n.runToBreakpoint marks).2.step = h.size - 1) ∧
    ∀ s snap, h.snapshot? s = some snap → ∃ block, g.block? snap.cursor.block = some block ∧
      (block.isEmpty = true → ¬ h.MarkedAt marks s) ∧
      (block.isEmpty = false → ∃ site, block.sites[snap.cursor.index]? = some site ∧
        (h.MarkedAt marks s ↔ marks.isSet site.id = true)) := by
  obtain ⟨rfl, hl⟩ := hn.linked (navigable_of_records hg hh)
  have hseeks : n.Seeks marks (n.runToBreakpoint marks) := hl.seeks_iff.2 rfl
  refine ⟨fun r => hl.seeks_iff, ?_, fun hnone => ?_, fun s snap hs => ?_⟩
  · rintro ⟨s, hs, hmark⟩
    cases hr : (n.runToBreakpoint marks).1 with
    | true => exact ⟨rfl, hseeks.firstAfter hl hr⟩
    | false => exact absurd hmark ((hseeks.not_markedAt hl hr).2 s hs)
  · cases hr : (n.runToBreakpoint marks).1 with
    | false => exact ⟨rfl, (hseeks.not_markedAt hl hr).1⟩
    | true =>
      obtain ⟨hlt, hmark, -⟩ := hseeks.firstAfter hl hr
      exact absurd hmark (hnone _ hlt)
  · obtain ⟨block, hblock, hnone, hsome⟩ := site_of_records hg hh hs
    refine ⟨block, hblock, fun hempty => ?_, fun hne => ?_⟩
    · simp [History.markedAt_iff hs, hnone hempty]
    · obtain ⟨site, hget, hsite⟩ := hsome hne
      exact ⟨site, hget, by simp [History.markedAt_iff hs, hsite]⟩

/-- From the second visit of the loop, the search goes past the exit to the third. -/
theorem searches_stop_first_doubling :
    ∃ h n, constantFolding.analysis.runFrom doubling (.naive []) = .ok h ∧
      n = (Navigator.start h).followAll [.goto 2] ∧
      (n.runToBreakpoint ⟨[false, true, false]⟩).1 = true ∧
      h.FirstAfter ⟨[false, true, false]⟩ 2 4 := by
  obtain ⟨-, hfound, -⟩ := searches_stop_first (k := constantFolding) doubling_built
    (.completed .naive rfl) ⟨[.goto 2], rfl⟩ ⟨[false, true, false]⟩
  obtain ⟨htrue, hfirst⟩ := hfound ⟨4, by decide, _, _, rfl, rfl, rfl⟩
  exact ⟨_, _, rfl, rfl, htrue, hfirst⟩

end AnalysisKind

end FlowHistory
