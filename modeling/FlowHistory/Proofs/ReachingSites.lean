import FlowHistory.Proofs.PathStates

/-!
# Definitions that reach the end of a block

A definition reaches the end of a block when control may go there from just after it without meeting
another definition of the same local. Along a single path the analysis keeps the last definition of each
local. Sites are marks with a single cause, so the final sets are those that reach, no more and no less.
-/
namespace FlowHistory

/-- The instruction numbered `id` is the last one of the list that defines `x`. -/
def DefinedLast (x : Local) (id : Nat) (l : List Site) : Prop :=
  ∃ before s after, l = before ++ s :: after ∧ s.id = id ∧ s.instruction.defined? = some x ∧
    ∀ t ∈ after, t.instruction.defined? ≠ some x

/-- Control may go from just after an instruction numbered `id`, which defines `x` in a block that the
entry leads to, to the end of block `b`, and meet no instruction on the way that defines `x`. -/
def Flowgraph.DefinitionReaches (g : Flowgraph) (x : Local) (id b : Nat) : Prop :=
  ∃ c above s below rest, g.Leads g.entry c ∧ g.sitesOf c = above ++ s :: below ∧ s.id = id ∧
    s.instruction.defined? = some x ∧ g.Path c (c :: rest) b ∧
    ∀ t ∈ below ++ g.sitesAlong rest, t.instruction.defined? ≠ some x

section

variable {x : Local} {id b : Nat}

theorem not_definedLast_nil : ¬ DefinedLast x id [] := by
  rintro ⟨before, s, after, h, -⟩
  simp at h

theorem definedLast_cons {s : Site} {l : List Site} :
    DefinedLast x id (s :: l) ↔ DefinedLast x id l ∨
      (s.id = id ∧ s.instruction.defined? = some x ∧ ∀ t ∈ l, t.instruction.defined? ≠ some x) := by
  constructor
  · rintro ⟨before, t, after, h, hid, hdef, hafter⟩
    cases before with
    | nil =>
      obtain ⟨rfl, rfl⟩ := List.cons.inj h
      exact .inr ⟨hid, hdef, hafter⟩
    | cons _ before =>
      obtain ⟨rfl, rfl⟩ := List.cons.inj h
      exact .inl ⟨before, t, after, rfl, hid, hdef, hafter⟩
  · rintro (⟨before, t, after, rfl, h⟩ | h)
    · exact ⟨s :: before, t, after, rfl, h⟩
    · exact ⟨[], s, l, rfl, h⟩

/-- A definition reaches a block exactly if it is the last one along some path there from the entry. -/
theorem Flowgraph.definitionReaches_iff {g : Flowgraph} :
    g.DefinitionReaches x id b ↔
      ∃ path, g.Path g.entry path b ∧ DefinedLast x id (g.sitesAlong path) := by
  constructor
  · rintro ⟨c, above, s, below, rest, ⟨first, hfirst⟩, hsites, hid, hdef, hrest, hfree⟩
    obtain ⟨l, rfl⟩ := hfirst.eq_snoc
    refine ⟨_, hfirst.trans hrest, g.sitesAlong l ++ above, s, below ++ g.sitesAlong rest, ?_, hid, hdef,
      hfree⟩
    simp [hsites]
  · rintro ⟨path, hpath, before, s, after, hsites, hid, hdef, hfree⟩
    obtain ⟨l, c, m, above, below, rfl, hc, -, rfl⟩ := sitesAlong_eq_append_cons hsites
    obtain ⟨hfirst, hrest⟩ := hpath.split
    exact ⟨c, above, s, below, m, ⟨_, hfirst⟩, hc, hid, hdef, hrest, hfree⟩

end

namespace ReachingDefinitions

variable {n : Nat} {s : Site} {e e' : Env DefValue} {x : Local}

/-- A definition of a tracked local leaves the set of its own number. -/
theorem get?_transfer_of_defines (h : transfer n s e = .ok e') (hx : s.instruction.defined? = some x)
    {v : DefValue} (hv : e.get? x = some v) :
    ∃ t, e'.get? x = some (.sites t) ∧ t.capacity = n ∧ ∀ id, id ∈ t ↔ id = s.id := by
  have hcontains : e.contains x = true := Env.mem_locals.1 (Env.mem_locals_iff.2 ⟨v, hv⟩)
  simp only [transfer, hx, hcontains, if_true] at h
  split at h
  · cases h
  · split at h
    · rename_i t ht
      cases h
      refine ⟨t, by simp [Env.get?_write, hv], ?_, fun id => ?_⟩
      · simp only [IndexSet.singleton?, IndexSet.insert?] at ht
        split at ht
        · cases ht
          rfl
        · cases ht
      · simp [IndexSet.mem_of_insert? ht]
    · cases h

theorem get?_transfer_of_not_defines (h : transfer n s e = .ok e')
    (hx : s.instruction.defined? ≠ some x) : e'.get? x = e.get? x := by
  simp only [transfer] at h
  split at h
  · cases h
  · split at h
    · cases h
      rfl
    · rename_i y hy
      have hne : x ≠ y := by
        rintro rfl
        exact hx hy
      split at h
      · split at h
        · cases h
          rw [Env.get?_write, if_neg hne]
        · cases h
      · cases h
        rfl

/-- Whether a site is among those of a value. -/
def bears : DefValue → Nat → Prop
  | .bottom, _ => False
  | .top, _ => True
  | .sites t, id => id ∈ t

theorem bears_union {v w u : DefValue} (h : v.union w = .ok u) (id : Nat) :
    bears u id ↔ bears v id ∨ bears w id := by
  cases v with
  | bottom =>
    cases h
    simp [bears]
  | top =>
    cases w <;> cases h <;> simp [bears]
  | sites s =>
    cases w with
    | bottom =>
      cases h
      simp [bears]
    | top =>
      cases h
      simp [bears]
    | sites t =>
      obtain ⟨r, hr, rfl⟩ := DefValue.union_sites.1 h
      exact IndexSet.mem_of_union? hr

/-- A site comes from the instruction itself or was there before it. -/
def marking : analysis.Marking Nat where
  bears := bears
  bears_join h := bears_union h _
  not_bears_bottom := id
  transfer_total {n s e e' f} h hf := by
    simp only [analysis] at h ⊢
    rcases transfer_cases n s with ⟨fault, hs⟩ | hs | ⟨x, hs⟩
    · rw [hs] at h
      cases h
    · exact ⟨f, hs f⟩
    · rw [hs] at h ⊢
      exact Env.exists_assign hf (fun v hv => ⟨v, hv⟩) h
  transfer_cause {n s e e' x v m} h hv hm := by
    by_cases hx : s.instruction.defined? = some x
    · obtain ⟨w, hw⟩ := Env.exists_get?_of_locals_eq (lawful.transfer_locals h) hv
      obtain ⟨t, ht, -, hmem⟩ := get?_transfer_of_defines h hx hw
      rw [hv] at ht
      cases ht
      refine ⟨none, trivial, fun f f' hf h' _ => ?_⟩
      obtain ⟨w', hw'⟩ := Env.exists_get?_of_locals_eq hf.symm hw
      obtain ⟨t', ht', -, hmem'⟩ := get?_transfer_of_defines h' hx hw'
      exact ⟨_, ht', (hmem' m).2 ((hmem m).1 hm)⟩
    · rw [get?_transfer_of_not_defines h hx] at hv
      refine ⟨some (x, m), ⟨v, hv, hm⟩, ?_⟩
      rintro f f' - h' ⟨w, hw, hbears⟩
      exact ⟨w, (get?_transfer_of_not_defines h' hx).trans hw, hbears⟩

variable {p : Problem DefValue} {l : List Site} {f : Env DefValue}

/-- Along a single path, the set of a local holds the last definition, or is left as it was. -/
theorem sites_of_applySites (hp : p.analysis = analysis) {t : IndexSet} (he : e.get? x = some (.sites t))
    (ht : t.capacity = p.graph.instructionCount) (h : p.applySites l e = .ok f) :
    ∃ t', f.get? x = some (.sites t') ∧ t'.capacity = p.graph.instructionCount ∧
      ∀ id, id ∈ t' ↔ DefinedLast x id l ∨ (id ∈ t ∧ ∀ s ∈ l, s.instruction.defined? ≠ some x) := by
  induction l generalizing e t with
  | nil =>
    cases h
    exact ⟨t, he, ht, fun id => by simp [not_definedLast_nil]⟩
  | cons s l ih =>
    obtain ⟨e₁, hs, hrest⟩ := Problem.applySites_cons.1 h
    rw [Problem.apply, hp] at hs
    by_cases hx : s.instruction.defined? = some x
    · obtain ⟨t₁, ht₁, hcap, hmem⟩ := get?_transfer_of_defines hs hx he
      obtain ⟨t', ht', hcap', hmem'⟩ := ih ht₁ hcap hrest
      refine ⟨t', ht', hcap', fun id => ?_⟩
      rw [hmem', hmem, definedLast_cons]
      simp [hx, eq_comm]
    · obtain ⟨t', ht', hcap', hmem'⟩ := ih ((get?_transfer_of_not_defines hs hx).trans he) ht hrest
      refine ⟨t', ht', hcap', fun id => ?_⟩
      rw [hmem', definedLast_cons]
      simp [hx]

variable {g : Flowgraph} {path : List Nat} {q : Worklist} {h : History DefValue}

/-- The set of a local after a path from the entry holds just its last definition. -/
theorem sites_along (hp : Problem.create analysis g = .ok p) (hx : x ∈ g.locals)
    (hint : x.type.isIntegral = true)
    (h : p.applySites (g.sitesAlong path) (analysis.freshEnv g) = .ok f) :
    ∃ t, f.get? x = some (.sites t) ∧ t.capacity = g.instructionCount ∧
      ∀ id, id ∈ t ↔ DefinedLast x id (g.sitesAlong path) := by
  obtain ⟨ha, rfl, -⟩ := Problem.boundary_of_create hp
  obtain ⟨t, ht, hcap, hmem⟩ := sites_of_applySites ha (Analysis.get?_freshEnv hx hint) rfl h
  exact ⟨t, ht, hcap, fun id => by simpa using hmem id⟩

/-- A value that bears exactly the definitions that are last along some path is the set of those. -/
theorem exists_sites {v : DefValue} (hp : Problem.create analysis g = .ok p) (hx : x ∈ g.locals)
    (hint : x.type.isIntegral = true) (hne : v ≠ .bottom) {b : Nat}
    (hroutes : ∀ route, g.Path g.entry route b →
      ∃ f, p.applySites (g.sitesAlong route) (analysis.freshEnv g) = .ok f)
    (hbears : ∀ id, bears v id ↔ ∃ route f w, g.Path g.entry route b ∧
      p.applySites (g.sitesAlong route) (analysis.freshEnv g) = .ok f ∧ f.get? x = some w ∧ bears w id) :
    ∃ t, v = .sites t ∧ ∀ id, id ∈ t ↔ g.DefinitionReaches x id b := by
  cases v with
  | bottom => exact absurd rfl hne
  | top =>
    -- even a number that no instruction has would be that of a definition
    obtain ⟨route, f, w, -, hf, hw, hid⟩ := (hbears g.instructionCount).1 trivial
    obtain ⟨t, ht, hcap, -⟩ := sites_along hp hx hint hf
    rw [ht] at hw
    cases hw
    have hlt := IndexSet.lt_capacity_of_mem hid
    omega
  | sites t =>
    refine ⟨t, rfl, fun id => ?_⟩
    rw [Flowgraph.definitionReaches_iff]
    refine (hbears id).trans ⟨?_, ?_⟩
    · rintro ⟨route, f, w, hroute, hf, hw, hid⟩
      obtain ⟨t', ht', -, hmem⟩ := sites_along hp hx hint hf
      rw [ht'] at hw
      cases hw
      exact ⟨route, hroute, (hmem id).1 hid⟩
    · rintro ⟨route, hroute, hdef⟩
      obtain ⟨f, hf⟩ := hroutes route hroute
      obtain ⟨t', ht', -, hmem⟩ := sites_along hp hx hint hf
      exact ⟨route, f, _, hroute, hf, ht', (hmem id).2 hdef⟩

/-- The final set of an integral local at a block that the entry leads to holds exactly the definitions
that reach the end of the block. -/
theorem mem_final_sites_iff (hg : g.Built) (hq : q.Fresh) (hrun : analysis.runFrom g q = .ok h) :
    ∃ last, h.last? = some last ∧ ∀ b, g.Leads g.entry b → ∀ x ∈ g.locals, x.type.isIntegral = true →
      ∃ s t, last.states[b]? = some s ∧ s.output.get? x = some (.sites t) ∧
        ∀ id, id ∈ t ↔ g.DefinitionReaches x id b := by
  obtain ⟨p, hp, -⟩ := bind_eq_ok.1 hrun
  have hdir : p.direction = .forward := Problem.direction_of_create hp
  have hentry := Problem.boundary_eq_entry hg hp rfl
  obtain ⟨-, hgraph, -⟩ := Problem.boundary_of_create hp
  obtain ⟨last, hlast, hstates⟩ := marking.bears_iff_of_run lawful hg hp hq hrun
  simp only [Problem.reachable_forward_iff hdir, Problem.route_forward_iff hdir,
    Problem.sitesAlong_forward hdir, hentry, hgraph] at hstates
  refine ⟨last, hlast, fun b hb x hx hint => ?_⟩
  obtain ⟨hroutes, hvalues⟩ := hstates b hb
  obtain ⟨s, v, hs, hv, hne, hbears⟩ := hvalues x hx hint
  obtain ⟨t, rfl, ht⟩ := exists_sites hp hx hint hne hroutes hbears
  exact ⟨s, t, hs, hv, ht⟩

/-- After the loop, the definition in the loop is among those that reach. -/
theorem mem_final_sites_iff_doubling :
    ∃ h last s t, analysis.run doubling ⟨.random, some 7⟩ = .ok h ∧ h.last? = some last ∧
      last.states[2]? = some s ∧ s.output.get? ⟨"x", .int⟩ = some (.sites t) ∧ 1 ∈ t := by
  obtain ⟨h, hrun⟩ := AnalysisKind.exists_run_doubling .reachingDefinitions ⟨.random, some 7⟩
  have hfresh := Config.worklist_fresh ⟨.random, some 7⟩
  obtain ⟨last, hlast, hsites⟩ := mem_final_sites_iff doubling_built hfresh hrun
  have hloop : doubling.Path 1 [1, 2] 2 := .cons (by decide) (.single 2)
  have hpath : doubling.Path 0 [0, 1, 2] 2 := .cons (by decide) hloop
  obtain ⟨s, t, hs, ht, hmem⟩ := hsites 2 ⟨_, hpath⟩ ⟨"x", .int⟩ (by decide) rfl
  have hreaches : doubling.DefinitionReaches ⟨"x", .int⟩ 1 2 :=
    ⟨1, [], ⟨1, double⟩, [], [2], ⟨[0, 1], .cons (by decide) (.single 1)⟩, rfl, rfl, rfl, hloop, by decide⟩
  exact ⟨h, last, s, t, hrun, hlast, hs, ht, (hmem 1).2 hreaches⟩

end ReachingDefinitions

end FlowHistory
