import FlowHistory.Proofs.Growth

/-!
# Control flow paths

Paths of blocks, the instructions that are met along them, and the way in which an analysis flows along
them: with the edges from the entry, or against them from the exit.
-/
namespace FlowHistory

/-- An element of two lists in a row stands in the second one or in the first. -/
theorem append_eq_append_cons_iff {α : Type} {l m before after : List α} {x : α} :
    l ++ m = before ++ x :: after ↔
      (∃ rest, before = l ++ rest ∧ m = rest ++ x :: after) ∨
      ∃ rest, l = before ++ x :: rest ∧ after = rest ++ m := by
  rw [List.append_eq_append_iff]
  constructor
  · rintro (h | ⟨tail, hl, htail⟩)
    · exact .inl h
    · cases tail with
      | nil => exact .inl ⟨[], by simpa using hl.symm, by simpa using htail.symm⟩
      | cons y rest =>
        obtain ⟨rfl, hafter⟩ := List.cons.inj htail
        exact .inr ⟨rest, hl, hafter⟩
  · rintro (h | ⟨rest, hl, rfl⟩)
    · exact .inl h
    · exact .inr ⟨x :: rest, hl, rfl⟩

namespace Flowgraph

/-- `path` goes from block `a` to block `b`, from each of its blocks to a successor. -/
inductive Path (g : Flowgraph) : Nat → List Nat → Nat → Prop
  | single (a : Nat) : Path g a [a] a
  | cons {a b c : Nat} {path : List Nat} : b ∈ g.successors a → Path g b path c →
    Path g a (a :: path) c

/-- Some path goes from `a` to `b`. -/
def Leads (g : Flowgraph) (a b : Nat) : Prop := ∃ path, g.Path a path b

/-- The instructions of a block. -/
def sitesOf (g : Flowgraph) (b : Nat) : List Site := ((g.block? b).map Block.sites).getD []

/-- The instructions along a path, from the top of its first block to the end of its last one. -/
def sitesAlong (g : Flowgraph) (path : List Nat) : List Site := path.flatMap g.sitesOf

variable {g : Flowgraph} {a b c : Nat} {l m path : List Nat}

namespace Path

theorem eq_cons (h : g.Path a path b) : ∃ rest, path = a :: rest := by
  cases h with
  | single => exact ⟨[], rfl⟩
  | cons _ _ => exact ⟨_, rfl⟩

theorem eq_snoc (h : g.Path a path b) : ∃ l, path = l ++ [b] := by
  induction h with
  | single a => exact ⟨[], rfl⟩
  | @cons a _ _ _ _ _ ih =>
    obtain ⟨l, rfl⟩ := ih
    exact ⟨a :: l, rfl⟩

theorem snoc (h : g.Path a path b) (hc : c ∈ g.successors b) : g.Path a (path ++ [c]) c := by
  induction h with
  | single a => exact .cons hc (.single c)
  | cons hab _ ih => exact .cons hab (ih hc)

/-- A path may go on where another one ends. -/
theorem trans (h : g.Path a l b) (h' : g.Path b (b :: m) c) : g.Path a (l ++ m) c := by
  induction h with
  | single a => exact h'
  | cons hab _ ih => exact .cons hab (ih h')

/-- A path can be cut at any of its blocks. -/
theorem split (h : g.Path a (l ++ c :: m) b) : g.Path a (l ++ [c]) c ∧ g.Path c (c :: m) b := by
  induction l generalizing a with
  | nil =>
    obtain ⟨_, heq⟩ := h.eq_cons
    obtain ⟨rfl, -⟩ : c = a ∧ _ := by simpa using heq
    exact ⟨.single c, h⟩
  | cons d l ih =>
    generalize hpath : d :: l ++ c :: m = path at h
    cases h with
    | single => simp at hpath
    | cons hab hrest =>
      obtain ⟨rfl, rfl⟩ := List.cons.inj hpath
      obtain ⟨hleft, hright⟩ := ih hrest
      exact ⟨.cons hab hleft, hright⟩

theorem leads_of_mem (h : g.Path a path b) (hc : c ∈ path) : g.Leads a c ∧ g.Leads c b := by
  obtain ⟨l, m, rfl⟩ := List.append_of_mem hc
  obtain ⟨hleft, hright⟩ := h.split
  exact ⟨⟨_, hleft⟩, ⟨_, hright⟩⟩

end Path

theorem sitesOf_eq {block : Block} (h : g.block? b = some block) : g.sitesOf b = block.sites := by
  simp [sitesOf, h]

@[simp] theorem sitesAlong_nil : g.sitesAlong [] = [] := rfl

@[simp] theorem sitesAlong_cons : g.sitesAlong (b :: path) = g.sitesOf b ++ g.sitesAlong path := rfl

@[simp] theorem sitesAlong_append : g.sitesAlong (l ++ m) = g.sitesAlong l ++ g.sitesAlong m :=
  List.flatMap_append

/-- An instruction met along a path lies in one of its blocks. -/
theorem sitesAlong_eq_append_cons {before after : List Site} {s : Site}
    (h : g.sitesAlong path = before ++ s :: after) :
    ∃ l c m above below, path = l ++ c :: m ∧ g.sitesOf c = above ++ s :: below ∧
      before = g.sitesAlong l ++ above ∧ after = below ++ g.sitesAlong m := by
  induction path generalizing before with
  | nil => simp at h
  | cons c m ih =>
    rcases append_eq_append_cons_iff.1 h with ⟨rest, rfl, hrest⟩ | ⟨below, hc, rfl⟩
    · obtain ⟨l, c', m', above, below, rfl, hs, rfl, rfl⟩ := ih hrest
      exact ⟨c :: l, c', m', above, below, rfl, hs, by simp, rfl⟩
    · exact ⟨[], c, m, before, below, rfl, hc, rfl, rfl⟩

end Flowgraph

namespace Problem

variable {V : Type} {a : Analysis V} {g : Flowgraph} {p : Problem V} {b : Nat}

theorem sites_walkOrder_forward (hp : p.direction = .forward) (block : Block) :
    (p.walkOrder block).map Prod.snd = block.sites := by
  simp only [walkOrder, hp, List.map_map, Function.comp_def]
  exact List.zipIdx_map_fst 0 block.sites

theorem sites_walkOrder_backward (hp : p.direction = .backward) (block : Block) :
    (p.walkOrder block).map Prod.snd = block.sites.reverse := by
  simp only [walkOrder, hp, List.map_reverse, List.map_map, Function.comp_def]
  exact congrArg List.reverse (List.zipIdx_map_fst 0 block.sites)

theorem direction_of_create (hp : Problem.create a g = .ok p) : p.direction = a.direction := by
  rw [direction, (boundary_of_create hp).1]

/-- An analysis in the direction of control starts at the entry. -/
theorem create_forward (hg : g.Built) (hdir : a.direction = .forward) :
    Problem.create a g = .ok ⟨a, g, g.entry⟩ := by
  rw [create, hdir, hg.boundary_forward]
  rfl

/-- An analysis against it starts at the exit. -/
theorem create_backward (hg : g.Built) (hdir : a.direction = .backward) {exit : Nat}
    (hexit : g.exit = some exit) : Problem.create a g = .ok ⟨a, g, exit⟩ := by
  rw [create, hdir, hg.boundary_backward hexit]
  rfl

theorem create_backward_none (hg : g.Built) (hdir : a.direction = .backward) (hexit : g.exit = none) :
    Problem.create a g = .error (.noBoundary .backward) := by
  rw [create, hdir, hg.boundary_backward_none hexit]
  rfl

theorem boundary_eq_entry (hg : g.Built) (hp : Problem.create a g = .ok p)
    (hdir : a.direction = .forward) : p.boundary = g.entry := by
  rw [create_forward hg hdir] at hp
  cases hp
  rfl

/-- It arrives at the blocks to which a path leads from the entry. -/
theorem reachable_forward_iff (hp : p.direction = .forward) :
    p.Reachable b ↔ p.graph.Leads p.boundary b := by
  have htargets : ∀ a, p.targets a = p.graph.successors a := fun a => by rw [targets, hp]; rfl
  constructor
  · intro h
    induction h with
    | refl => exact ⟨_, .single _⟩
    | tail _ hstep ih =>
      obtain ⟨path, hpath⟩ := ih
      exact ⟨_, hpath.snoc (htargets _ ▸ hstep)⟩
  · rintro ⟨path, hpath⟩
    rw [Reachable]
    generalize p.boundary = a at hpath ⊢
    induction hpath with
    | single a => exact .refl
    | cons hab _ ih => exact .head (htargets _ ▸ hab) ih

/-- An analysis against the direction of control arrives at the blocks from which a path leads to where
it starts. -/
theorem reachable_backward_iff (hp : p.direction = .backward) :
    p.Reachable b ↔ p.graph.Leads b p.boundary := by
  have htargets : ∀ {a c}, c ∈ p.targets a ↔ a ∈ p.graph.successors c := fun {a c} => by
    rw [← mem_sources_iff, sources, hp]
    rfl
  constructor
  · intro h
    induction h with
    | refl => exact ⟨_, .single _⟩
    | tail _ hstep ih =>
      obtain ⟨path, hpath⟩ := ih
      exact ⟨_, .cons (htargets.1 hstep) hpath⟩
  · rintro ⟨path, hpath⟩
    generalize hend : p.boundary = c at hpath
    induction hpath with
    | single a => exact hend ▸ .refl
    | cons hab _ ih => exact (ih hend).tail (htargets.2 hab)

end Problem

end FlowHistory
