import FlowHistory.Proofs.PathStates

/-!
# Reads before writes

A local is live at the top of a block when control may go on from there and read the local before it
writes it. Along a single path the analysis computes just that. It starts at the exit, so it only sees
paths that lead there: on these its verdicts are exact, and where control can be caught in a loop that
never leads to the exit, a local that is read in the loop may still be called dead.
-/
namespace FlowHistory

/-- Some instruction of the list reads `x`, and none before it writes `x`. -/
def ReadFirst (x : Local) (l : List Site) : Prop :=
  ∃ before s after, l = before ++ s :: after ∧ x ∈ s.instruction.used ∧
    ∀ t ∈ before, t.instruction.defined? ≠ some x

/-- Control may go from the top of block `b` through block `c` and read `x` before it writes `x`. -/
def Flowgraph.ReadsFirst (g : Flowgraph) (x : Local) (b c : Nat) : Prop :=
  ∃ path, g.Path b path c ∧ ReadFirst x (g.sitesAlong path)

/-- Control may read `x` before it writes `x` along some path from the top of block `b`, of which every
block leads to the exit. -/
def Flowgraph.ReadsTowards (g : Flowgraph) (x : Local) (b exit : Nat) : Prop :=
  ∃ path c, g.Path b path c ∧ (∀ d ∈ path, g.Leads d exit) ∧ ReadFirst x (g.sitesAlong path)

section

variable {x : Local} {g : Flowgraph} {b c exit : Nat}

theorem not_readFirst_nil : ¬ ReadFirst x [] := by
  rintro ⟨before, s, after, h, -⟩
  simp at h

theorem readFirst_cons {s : Site} {l : List Site} :
    ReadFirst x (s :: l) ↔
      x ∈ s.instruction.used ∨ (s.instruction.defined? ≠ some x ∧ ReadFirst x l) := by
  constructor
  · rintro ⟨before, t, after, h, hread, hfree⟩
    cases before with
    | nil =>
      obtain ⟨rfl, rfl⟩ := List.cons.inj h
      exact .inl hread
    | cons _ before =>
      obtain ⟨rfl, rfl⟩ := List.cons.inj h
      rw [List.forall_mem_cons] at hfree
      exact .inr ⟨hfree.1, before, t, after, rfl, hread, hfree.2⟩
  · rintro (hread | ⟨hs, before, t, after, rfl, hread, hfree⟩)
    · exact ⟨[], s, l, rfl, hread, by simp⟩
    · exact ⟨s :: before, t, after, rfl, hread, List.forall_mem_cons.2 ⟨hs, hfree⟩⟩

instance decidableReadFirst (x : Local) : (l : List Site) → Decidable (ReadFirst x l)
  | [] => isFalse not_readFirst_nil
  | _ :: l =>
    have := decidableReadFirst x l
    decidable_of_iff _ readFirst_cons.symm

theorem ReadFirst.append {l : List Site} (h : ReadFirst x l) (m : List Site) : ReadFirst x (l ++ m) := by
  obtain ⟨before, s, after, rfl, hread, hfree⟩ := h
  exact ⟨before, s, after ++ m, by simp, hread, hfree⟩

/-- A path that reads first may go on. -/
theorem Flowgraph.ReadsFirst.trans {d : Nat} (h : g.ReadsFirst x b c) (hd : g.Leads c d) :
    g.ReadsFirst x b d := by
  obtain ⟨l, hl, hread⟩ := h
  obtain ⟨m, hm⟩ := hd
  obtain ⟨m, rfl⟩ := hm.eq_cons
  refine ⟨l ++ m, hl.trans hm, ?_⟩
  rw [sitesAlong_append]
  exact hread.append _

/-- Reading first on the way to the exit is reading first along blocks that all lead there. -/
theorem Flowgraph.readsFirst_exit_iff : g.ReadsFirst x b exit ↔ g.ReadsTowards x b exit := by
  constructor
  · rintro ⟨path, hpath, hread⟩
    exact ⟨path, exit, hpath, fun d hd => (hpath.leads_of_mem hd).2, hread⟩
  · rintro ⟨path, c, hpath, hleads, hread⟩
    obtain ⟨l, rfl⟩ := hpath.eq_snoc
    exact ReadsFirst.trans ⟨_, hpath, hread⟩ (hleads c (by simp))

end

namespace LiveVariables

variable {x : Local} {e f : Env LiveValue}

theorem get?_foldl_write (xs : List Local) (e : Env LiveValue) (x : Local) :
    (xs.foldl (fun e y => e.write y .live) e).get? x =
      (e.get? x).map fun v => if x ∈ xs then .live else v := by
  induction xs generalizing e with
  | nil => simp
  | cons y xs ih =>
    rw [List.foldl_cons, ih, Env.get?_write]
    cases e.get? x with
    | none => simp
    | some v =>
      by_cases hy : x = y <;> by_cases hx : x ∈ xs <;> simp [hy, hx]

/-- What is read is live before an instruction, what is only written is dead, and the rest is as after
it. -/
theorem get?_step (i : Instruction) (e : Env LiveValue) (x : Local) :
    (step i e).get? x = (e.get? x).map fun v =>
      if x ∈ i.used then .live else if i.defined? = some x then .dead else v := by
  rw [step, get?_foldl_write]
  cases hdef : i.defined? with
  | none => simp
  | some y =>
    rw [Env.get?_write]
    by_cases hy : x = y
    · subst hy
      simp [Function.comp_def]
    · simp [hy, Ne.symm hy]

/-- What is live is read by the instruction itself or was live after it. -/
def marking : analysis.Marking Unit where
  bears v _ := v = .live
  bears_join {v w u _} h := by
    cases h
    cases v <;> cases w <;> simp [LiveValue.union]
  not_bears_bottom := by simp [analysis]
  transfer_total _ _ := ⟨_, rfl⟩
  transfer_cause {n s e e' x v m} h hv hm := by
    cases h
    rw [get?_step] at hv
    obtain ⟨w, hw, hwv⟩ := Option.map_eq_some_iff.1 hv
    by_cases hused : x ∈ s.instruction.used
    · refine ⟨none, trivial, fun f f' hf h' _ => ?_⟩
      cases h'
      obtain ⟨u, hu⟩ := Env.exists_get?_of_locals_eq hf.symm hw
      exact ⟨.live, by simp [get?_step, hu, hused], rfl⟩
    · have hdef : s.instruction.defined? ≠ some x := by
        intro hdef
        simp [hused, hdef, hm] at hwv
      simp only [hused, hdef, if_false] at hwv
      refine ⟨some (x, m), ⟨w, hw, hwv.trans hm⟩, ?_⟩
      rintro f f' - h' ⟨u, hu, rfl⟩
      cases h'
      exact ⟨.live, by simp [get?_step, hu, hused, hdef], rfl⟩

variable {p : Problem LiveValue} {l : List Site}

/-- Along a single path, a local is live at the top if it is read first, and else dead. -/
theorem get?_applySites (hp : p.analysis = analysis) (he : e.get? x = some .dead)
    (h : p.applySites l.reverse e = .ok f) :
    (ReadFirst x l → f.get? x = some .live) ∧ (¬ ReadFirst x l → f.get? x = some .dead) := by
  induction l generalizing f with
  | nil =>
    cases h
    exact ⟨fun hread => absurd hread not_readFirst_nil, fun _ => he⟩
  | cons s l ih =>
    rw [List.reverse_cons, Problem.applySites_append] at h
    obtain ⟨f₀, hl, hs⟩ := h
    obtain ⟨f₁, hs, hf⟩ := Problem.applySites_cons.1 hs
    cases hf
    rw [Problem.apply, hp] at hs
    cases hs
    obtain ⟨hlive, hdead⟩ := ih hl
    rw [readFirst_cons, get?_step]
    by_cases hread : ReadFirst x l
    · rw [hlive hread]
      by_cases hused : x ∈ s.instruction.used <;> by_cases hdef : s.instruction.defined? = some x <;>
        simp [hused, hdef, hread]
    · rw [hdead hread]
      by_cases hused : x ∈ s.instruction.used <;> simp [hused, hread]

variable {g : Flowgraph} {exit : Nat} {q : Worklist}

/-- A run on a program with an exit completes. It visits the blocks that lead to the exit, and there a
local is live if it may be read first on the way to the exit, and else dead. -/
theorem exists_run (hg : g.Built) (hexit : g.exit = some exit) (hq : q.Fresh) :
    ∃ h last, analysis.runFrom g q = .ok h ∧ h.last? = some last ∧
      (∀ b, (∃ s ∈ h.snapshots.toList, s.cursor.block = b) ↔ g.Leads b exit) ∧
      ∀ b x, g.Leads b exit → x ∈ g.locals → ∃ s, last.states[b]? = some s ∧
        (s.output.get? x = some .live ↔ g.ReadsFirst x b exit) ∧
        (s.output.get? x = some .dead ↔ ¬ g.ReadsFirst x b exit) := by
  have hp := Problem.create_backward (a := analysis) hg rfl hexit
  have hreach : ∀ b, Problem.Reachable ⟨analysis, g, exit⟩ b ↔ g.Leads b exit := fun b =>
    Problem.reachable_backward_iff rfl
  obtain ⟨h, hrun⟩ := lawful.exists_run hg hp hq fun s _ e => ⟨_, rfl⟩
  obtain ⟨-, -, -, -, hvisited⟩ := lawful.solution_of_run hg hp hq hrun
  obtain ⟨last, hlast, hstates⟩ := marking.bears_iff_of_run lawful hg hp hq hrun
  refine ⟨h, last, hrun, hlast, fun b => (hvisited b).trans (hreach b), fun b x hb hx => ?_⟩
  obtain ⟨hroutes, hvalues⟩ := hstates b ((hreach b).2 hb)
  obtain ⟨s, v, hs, hv, hne, hbears⟩ := hvalues x hx rfl
  have hfresh : (analysis.freshEnv g).get? x = some .dead := Analysis.get?_freshEnv hx rfl
  have hlive : v = .live ↔ g.ReadsFirst x b exit := by
    refine (hbears ()).trans ⟨?_, ?_⟩
    · rintro ⟨route, f, w, hroute, hf, hw, rfl⟩
      refine ⟨route, hroute, by_contra fun hread => ?_⟩
      rw [(get?_applySites rfl hfresh hf).2 hread] at hw
      cases hw
    · rintro ⟨route, hroute, hread⟩
      obtain ⟨f, hf⟩ := hroutes route hroute
      exact ⟨route, f, .live, hroute, hf, (get?_applySites rfl hfresh hf).1 hread, rfl⟩
  refine ⟨s, hs, ?_, ?_⟩
  · rw [hv, Option.some.injEq, hlive]
  · rw [hv, Option.some.injEq, ← hlive]
    cases v with
    | bottom => exact absurd rfl hne
    | dead => simp
    | live => simp

/-- A run on a program with an exit completes, and at the top of every block that leads to the exit a
local is live exactly if it may be read before it is written along blocks that lead to the exit, and
else dead. -/
theorem final_live_iff (hg : g.Built) (hexit : g.exit = some exit) (hq : q.Fresh) :
    ∃ h last, analysis.runFrom g q = .ok h ∧ h.last? = some last ∧
      ∀ b, g.Leads b exit → ∀ x ∈ g.locals, ∃ s, last.states[b]? = some s ∧
        (s.output.get? x = some .live ↔ g.ReadsTowards x b exit) ∧
        (¬ g.ReadsTowards x b exit → s.output.get? x = some .dead) := by
  obtain ⟨h, last, hrun, hlast, -, hstates⟩ := exists_run hg hexit hq
  refine ⟨h, last, hrun, hlast, fun b hb x hx => ?_⟩
  obtain ⟨s, hs, hlive, hdead⟩ := hstates b x hb hx
  rw [Flowgraph.readsFirst_exit_iff] at hlive hdead
  exact ⟨s, hs, hlive, hdead.2⟩

theorem final_live_iff_doubling :
    ∃ h last s, analysis.runFrom doubling (.naive []) = .ok h ∧ h.last? = some last ∧
      last.states[1]? = some s ∧ s.output.get? ⟨"x", .int⟩ = some .live := by
  obtain ⟨h, last, hrun, hlast, hstates⟩ := final_live_iff doubling_built rfl .naive
  have hleads : doubling.Leads 1 2 := ⟨[1, 2], .cons (by decide) (.single 2)⟩
  obtain ⟨s, hs, hlive, -⟩ := hstates 1 hleads ⟨"x", .int⟩ (by decide)
  have hread : ReadFirst ⟨"x", .int⟩ (doubling.sitesAlong [1]) :=
    ⟨[], ⟨1, double⟩, [], rfl, by decide, by simp⟩
  exact ⟨h, last, s, hrun, hlast, hs, hlive.2 ⟨[1], 1, .single 1, by simpa using hleads, hread⟩⟩

/-! Control may also be caught in a loop that does not lead to the exit. -/

/-- A program that binds a local and then returns or prints the local for ever. -/
def printing : Flowgraph where
  graph := ⟨[⟨0, [.bind ⟨"x", .int⟩ (.parameter 0)], false⟩,
    ⟨1, [.branch (.operand (.literal (.int 1)))], false⟩, ⟨2, [.ret none], false⟩,
    ⟨3, [.invoke ⟨"print", [.read ⟨"x", .int⟩], .empty⟩], false⟩], [(0, 1), (1, 2), (1, 3), (3, 3)]⟩
  entry := 0
  exit := some 2
  locals := .ofList [⟨"x", .int⟩, ⟨"x", .int⟩]

theorem printing_built : printing.Built := by
  have hblocks := (((Draft.Made.empty.addBlock [.bind ⟨"x", .int⟩ (.parameter 0)]).addBlock
    [.branch (.operand (.literal (.int 1)))]).addBlock [.ret none]).addBlock
    [.invoke ⟨"print", [.read ⟨"x", .int⟩], .empty⟩]
  have hfirst := @Draft.Made.addEdge _ _ 0 1 hblocks rfl
  have hreturn := @Draft.Made.addEdge _ _ 1 2 hfirst rfl
  have hprint := @Draft.Made.addEdge _ _ 1 3 hreturn rfl
  have hloop := @Draft.Made.addEdge _ _ 3 3 hprint rfl
  exact ⟨_, hloop, rfl⟩

/-- The loop is not left. -/
theorem eq_of_path_printing {a c : Nat} {path : List Nat} (h : printing.Path a path c) (ha : a = 3) :
    c = 3 := by
  induction h with
  | single a => exact ha
  | cons hb _ ih =>
    subst ha
    exact ih (List.mem_singleton.1 hb)

theorem not_readsFirst_printing : ¬ printing.ReadsFirst ⟨"x", .int⟩ 1 2 := by
  rintro ⟨path, hpath, hread⟩
  cases hpath with
  | @cons _ b _ path hb hrest =>
    have hmem : b ∈ [2, 3] := hb
    rcases List.mem_pair.1 hmem with rfl | rfl
    · cases hrest with
      | single => exact absurd hread (by decide)
      | cons hc _ => cases hc
    · cases eq_of_path_printing hrest rfl

/-- The run calls the local dead before the choice, although the loop reads it. -/
theorem dead_though_read :
    ∃ h last s, analysis.run printing ⟨.naive, none⟩ = .ok h ∧ h.last? = some last ∧
      (∃ t ∈ h.snapshots.toList, t.cursor.block = 1) ∧ last.states[1]? = some s ∧
      s.output.get? ⟨"x", .int⟩ = some .dead ∧ printing.ReadsFirst ⟨"x", .int⟩ 1 3 := by
  obtain ⟨h, last, hrun, hlast, hvisited, hstates⟩ :=
    exists_run printing_built rfl (Config.worklist_fresh ⟨.naive, none⟩)
  have hleads : printing.Leads 1 2 := ⟨[1, 2], .cons (by decide) (.single 2)⟩
  obtain ⟨s, hs, -, hdead⟩ := hstates 1 ⟨"x", .int⟩ hleads (by decide)
  refine ⟨h, last, s, hrun, hlast, (hvisited 1).2 hleads, hs, hdead.2 not_readsFirst_printing, ?_⟩
  exact ⟨[1, 3], .cons (by decide) (.single 3), by decide⟩

/-- At a block that a run has visited, the verdict that a local is dead can be trusted, so that no path
at all reads the local before writing it, exactly if a local that may be read first at all may be read
first on the way to the exit. -/
theorem dead_trusted_iff (hg : g.Built) (hexit : g.exit = some exit) (hq : q.Fresh) :
    ∃ h last, analysis.runFrom g q = .ok h ∧ h.last? = some last ∧
      ∀ b, (∃ t ∈ h.snapshots.toList, t.cursor.block = b) → ∀ x ∈ g.locals,
        ∃ s, last.states[b]? = some s ∧
          ((s.output.get? x = some .dead → ∀ c, ¬ g.ReadsFirst x b c) ↔
            ((∃ c, g.ReadsFirst x b c) → g.ReadsFirst x b exit)) := by
  obtain ⟨h, last, hrun, hlast, hvisited, hstates⟩ := exists_run hg hexit hq
  refine ⟨h, last, hrun, hlast, fun b hb x hx => ?_⟩
  obtain ⟨s, hs, -, hdead⟩ := hstates b x ((hvisited b).1 hb) hx
  refine ⟨s, hs, ?_⟩
  rw [hdead]
  constructor
  · rintro htrust ⟨c, hread⟩
    by_contra hexit
    exact htrust hexit c hread
  · intro hway hexit c hread
    exact hexit (hway ⟨c, hread⟩)

/-- The binding itself comes before every read, so the verdict at the entry can be trusted. -/
theorem dead_trusted_iff_printing :
    ∃ h last s, analysis.runFrom printing (.naive []) = .ok h ∧ h.last? = some last ∧
      last.states[0]? = some s ∧ (s.output.get? ⟨"x", .int⟩ = some .dead →
        ∀ c, ¬ printing.ReadsFirst ⟨"x", .int⟩ 0 c) := by
  obtain ⟨h, last, hrun, hlast, htrust⟩ := dead_trusted_iff printing_built rfl .naive
  obtain ⟨_, -, hrun', -, hvisited, -⟩ := exists_run printing_built rfl .naive
  rw [hrun, Except.ok.injEq] at hrun'
  have hleads : printing.Leads 0 2 := ⟨[0, 1, 2], .cons (by decide) (.cons (by decide) (.single 2))⟩
  obtain ⟨s, hs, hiff⟩ := htrust 0 (hrun' ▸ (hvisited 0).2 hleads) ⟨"x", .int⟩ (by decide)
  refine ⟨h, last, s, hrun, hlast, hs, hiff.2 ?_⟩
  rintro ⟨c, path, hpath, hread⟩
  obtain ⟨rest, rfl⟩ := hpath.eq_cons
  have hbind : ReadFirst ⟨"x", .int⟩ (⟨0, .bind ⟨"x", .int⟩ (.parameter 0)⟩ :: printing.sitesAlong rest) :=
    hread
  simp [readFirst_cons, Instruction.used, Instruction.defined?] at hbind

end LiveVariables

end FlowHistory
