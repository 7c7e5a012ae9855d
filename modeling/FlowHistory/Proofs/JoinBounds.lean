import FlowHistory.Proofs.BitLaws
import Mathlib.Order.Defs.Unbundled

/-!
# Joins are least upper bounds

Values of one local have a size that all of them share: the width of a pattern, the number of sites of the
program for a set of definitions. States over the same locals, with values of such sizes, always have a join.
It is the least upper bound of the states, and so depends on which states are joined, but neither on their order
nor on how often each is named. Of other states the join names what does not fit.
-/
namespace FlowHistory

open LatticeValue (Below)

instance {V : Type} [LatticeValue V] [LawfulJoin V] : IsPartialOrder V Below where
  refl := LawfulJoin.refl
  trans _ _ _ := LawfulJoin.trans
  antisymm _ _ := LawfulJoin.antisymm

/-! Where a join fails. -/

theorem BitPattern.eq_of_join_error {p q : BitPattern} {f : Fault} (h : LatticeValue.join p q = .error f) :
    f = .differentWidths p.width q.width := by
  by_cases hw : p.width = q.width
  · simp [LatticeValue.join, hw] at h
  · simpa [LatticeValue.join, hw, eq_comm] using h

theorem DefValue.eq_of_union_error {v w : DefValue} {f : Fault} (h : v.union w = .error f) :
    ∃ m n, f = .differentSiteCounts m n := by
  cases v with
  | bottom => cases h
  | top => cases w <;> cases h
  | sites s =>
    cases w with
    | bottom | top => cases h
    | sites t =>
      rw [union] at h
      split at h
      · cases h
      · cases h
        exact ⟨_, _, rfl⟩

namespace Env

variable {V : Type} [LatticeValue V] {P : Fault → Prop} {f : Fault}

theorem joinValues_error (hP : ∀ {v w : V} {f : Fault}, LatticeValue.join v w = .error f → P f)
    {xs ys : List V} (h : joinValues xs ys = .error f) : P f := by
  induction xs generalizing ys with
  | nil => cases h
  | cons x xs ih =>
    cases ys with
    | nil => cases h
    | cons y ys =>
      rcases bind_eq_error.1 h with h | ⟨z, -, h⟩
      · exact hP h
      · rcases bind_eq_error.1 h with h | ⟨zs, -, h⟩
        · exact ih h
        · cases h

theorem foldlM_joinSame_error (hP : ∀ {v w : V} {f : Fault}, LatticeValue.join v w = .error f → P f)
    {rest : List (Env V)} {e : Env V} (h : rest.foldlM joinSame e = .error f) : P f := by
  induction rest generalizing e with
  | nil => cases h
  | cons g rest ih =>
    rw [List.foldlM_cons] at h
    rcases bind_eq_error.1 h with h | ⟨j, -, h⟩
    · rcases bind_eq_error.1 h with h | ⟨vs, -, h⟩
      · exact joinValues_error hP h
      · cases h
    · exact ih h

/-- A state over other locals than the first is found before any values are joined, and the first such state
is named. -/
theorem joinAll_differentLocals {e : Env V} {rest : List (Env V)} (h : ∃ f ∈ rest, f.locals ≠ e.locals) :
    ∃ before f after, rest = before ++ f :: after ∧ (∀ g ∈ before, g.locals = e.locals) ∧
      f.locals ≠ e.locals ∧ joinAll (e :: rest) = .error (.differentLocals e.locals f.locals) := by
  have hother : ∀ f : Env V, (!e.sameLocals f) = true ↔ f.locals ≠ e.locals := by
    intro f
    rw [sameLocals, Bool.not_eq_true', beq_eq_false_iff_ne]
    exact ne_comm
  obtain ⟨g, hg, hne⟩ := h
  have hfound : (rest.find? fun f => !e.sameLocals f).isSome := List.find?_isSome.2 ⟨g, hg, (hother g).2 hne⟩
  obtain ⟨f, hf⟩ := Option.isSome_iff_exists.1 hfound
  obtain ⟨hf', before, after, hrest, hbefore⟩ := List.find?_eq_some_iff_append.1 hf
  refine ⟨before, f, after, hrest, fun g hg => ?_, (hother f).1 hf', by rw [joinAll, hf]⟩
  have hbefore_g := hbefore g hg
  by_contra hne
  simp [(hother g).2 hne] at hbefore_g

/-- What fails for some states fails for locals that differ, or in joining values. -/
theorem joinAll_error (hP : ∀ {v w : V} {f : Fault}, LatticeValue.join v w = .error f → P f)
    (hlocals : ∀ l m, P (.differentLocals l m)) {es : List (Env V)} (hne : es ≠ [])
    (h : joinAll es = .error f) : P f := by
  cases es with
  | nil => exact absurd rfl hne
  | cons e rest =>
    rw [joinAll] at h
    split at h
    · cases h
      exact hlocals _ _
    · exact foldlM_joinSame_error hP h

variable [LawfulJoin V]

/-- The join of states is their least upper bound. -/
theorem joinAll_below_iff {es : List (Env V)} {j u : Env V} (h : joinAll es = .ok j) :
    j.Below u ↔ ∀ e ∈ es, e.Below u := by
  refine ⟨fun hju e he => ?_, joinAll_least h⟩
  exact below_trans (below_joinAll h he) hju

/-- A join does not change with states that are below it. -/
theorem joinAll_eq_of_below {es fs : List (Env V)} {j k : Env V} (hes : joinAll es = .ok j)
    (hfs : joinAll fs = .ok k) (hsub : ∀ e ∈ es, e ∈ fs) (hbelow : ∀ f ∈ fs, f.Below j) : k = j := by
  apply below_antisymm
  · exact joinAll_least hfs hbelow
  · exact joinAll_least hes fun e he => below_joinAll hfs (hsub e he)

instance : IsPartialOrder (Env V) Env.Below where
  refl := below_refl
  trans _ _ _ := below_trans
  antisymm _ _ := below_antisymm

end Env

namespace AnalysisKind

/-- The size of a value, where the analysis has sizes: the width of a pattern, the capacity of a set. -/
def Sized : (k : AnalysisKind) → Nat → k.Value → Prop
  | .constantBits, n, p => BitPattern.width p = n
  | .reachingDefinitions, n, v => ∀ s, v = DefValue.sites s → s.capacity = n
  | .constantFolding, _, _ | .taint, _, _ | .liveVariables, _, _ => True

/-- The bottom among the values of a size. -/
def lowest : (k : AnalysisKind) → Nat → k.Value
  | .constantFolding, _ => ConstValue.bottom
  | .constantBits, n => BitPattern.bottom n
  | .reachingDefinitions, _ => DefValue.bottom
  | .taint, _ => TaintValue.bottom
  | .liveVariables, _ => LiveValue.bottom

/-- A state over the given locals, with a value of the given size for each of them. -/
structure Over (k : AnalysisKind) (locals : LocalSet) (size : Local → Nat) (e : Env k.Value) : Prop where
  locals_eq : e.locals = locals.toList
  sized : e.All fun x => k.Sized (size x)

/-- The state that has the bottom everywhere. -/
def lowestEnv (k : AnalysisKind) (locals : LocalSet) (size : Local → Nat) : Env k.Value :=
  .ofFn locals fun x => k.lowest (size x)

variable {k : AnalysisKind} {n : Nat} {v w : k.Value} {locals : LocalSet} {size : Local → Nat}

theorem exists_join (hv : k.Sized n v) (hw : k.Sized n w) :
    ∃ u, LatticeValue.join v w = .ok u ∧ k.Sized n u := by
  cases k with
  | constantFolding | taint | liveVariables => exact ⟨_, rfl, trivial⟩
  | constantBits =>
    have heq : BitPattern.width v = BitPattern.width w := Eq.trans hv (Eq.symm hw)
    exact ⟨_, BitPattern.join_eq_ok.2 ⟨heq, rfl⟩, (BitPattern.width_union heq).trans hv⟩
  | reachingDefinitions => exact DefValue.exists_union hv hw

theorem sized_lowest (k : AnalysisKind) (n : Nat) : k.Sized n (k.lowest n) := by
  cases k with
  | constantFolding | taint | liveVariables => trivial
  | constantBits => exact BitPattern.width_filled n .bottom
  | reachingDefinitions => exact fun s hs => by cases hs

theorem lowest_below (hv : k.Sized n v) : Below (k.lowest n) v := by
  cases k with
  | constantFolding => exact ConstValue.below_iff.2 (.inl rfl)
  | constantBits =>
    obtain rfl : BitPattern.width v = n := hv
    exact BitPattern.below_iff.2 (BitPattern.bottom_le v)
  | reachingDefinitions => exact DefValue.below_iff.2 (.inl rfl)
  | taint => exact TaintValue.bottom_below v
  | liveVariables => exact LiveValue.bottom_below v

theorem kind_of_join_error {f : Fault} (h : LatticeValue.join v w = .error f) : f.kind = .mismatchedDomain := by
  cases k with
  | constantFolding | taint | liveVariables => cases h
  | constantBits => rw [BitPattern.eq_of_join_error h, Fault.kind]
  | reachingDefinitions =>
    obtain ⟨m, n, rfl⟩ := DefValue.eq_of_union_error h
    rfl

theorem over_lowestEnv (k : AnalysisKind) (locals : LocalSet) (size : Local → Nat) :
    k.Over locals size (k.lowestEnv locals size) :=
  ⟨Env.locals_ofFn _ _, Env.all_ofFn fun x _ => k.sized_lowest (size x)⟩

theorem lowestEnv_below {e : Env k.Value} (he : k.Over locals size e) :
    (k.lowestEnv locals size).Below e := by
  refine Env.below_iff.2 ⟨(Env.locals_ofFn _ _).trans he.locals_eq.symm, fun x v w hv hw => ?_⟩
  rw [lowestEnv, Env.get?_ofFn] at hv
  split at hv
  · cases hv
    exact lowest_below (he.sized x w hw)
  · cases hv

theorem exists_joinAll {es : List (Env k.Value)} (hne : es ≠ []) (hes : ∀ e ∈ es, k.Over locals size e) :
    ∃ j, Env.joinAll es = .ok j ∧ k.Over locals size j := by
  obtain ⟨j, hj, hlocals, hsized⟩ := Env.exists_joinAll (P := fun x => k.Sized (size x))
    (fun _ _ _ => exists_join) hne fun e he => ⟨(hes e he).locals_eq, (hes e he).sized⟩
  exact ⟨j, hj, hlocals, hsized⟩

/-- For each analysis: the join of some states over one universe exists and is their least upper bound in the
order of states, which is the order of values local by local. It is the same for all lists that name the same
states, in any order and any number of times, and with the state that is the bottom everywhere or without it. A
single state is its own join. Only the join of no states is refused as empty; and if a state is over other
locals than the first one, then the join is refused with the locals of the first one and of the first other. -/
theorem joins_least_upper_bounds (k : AnalysisKind) :
    (IsPartialOrder k.Value Below ∧ IsPartialOrder (Env k.Value) Env.Below ∧
      ∀ e f : Env k.Value, e.Below f ↔ e.locals = f.locals ∧
        ∀ x v w, e.get? x = some v → f.get? x = some w → Below v w) ∧
    (∀ (locals : LocalSet) (size : Local → Nat) (es : List (Env k.Value)), es ≠ [] →
      (∀ e ∈ es, k.Over locals size e) → ∃ j, Env.joinAll es = .ok j ∧
        (∀ u, j.Below u ↔ ∀ e ∈ es, e.Below u) ∧
        ∀ fs, (∀ e ∈ es, e ∈ fs) → (∀ f ∈ fs, f ∈ es ∨ f = k.lowestEnv locals size) →
          Env.joinAll fs = .ok j) ∧
    (∀ e : Env k.Value, Env.joinAll [e] = .ok e) ∧
    (∀ es : List (Env k.Value), (∃ f, Env.joinAll es = .error f ∧ f.kind = .emptyInput) ↔ es = []) ∧
    ∀ (e : Env k.Value) (rest : List (Env k.Value)), (∃ f ∈ rest, f.locals ≠ e.locals) →
      ∃ before f after, rest = before ++ f :: after ∧ (∀ g ∈ before, g.locals = e.locals) ∧
        f.locals ≠ e.locals ∧ Env.joinAll (e :: rest) = .error (.differentLocals e.locals f.locals) ∧
        (Fault.differentLocals e.locals f.locals).kind = .mismatchedDomain := by
  refine ⟨⟨inferInstance, inferInstance, fun e f => Env.below_iff⟩, fun locals size es hne hes => ?_,
    fun e => rfl, fun es => ⟨?_, ?_⟩, fun e rest hother => ?_⟩
  · obtain ⟨j, hj, hover⟩ := exists_joinAll hne hes
    refine ⟨j, hj, fun u => Env.joinAll_below_iff hj, fun fs hsub hfs => ?_⟩
    have hsome : fs ≠ [] := by
      obtain ⟨e, he⟩ := List.exists_mem_of_ne_nil es hne
      exact List.ne_nil_of_mem (hsub e he)
    obtain ⟨i, hi, -⟩ := exists_joinAll hsome fun f hf =>
      (hfs f hf).elim (hes f) fun heq => heq ▸ k.over_lowestEnv locals size
    rw [hi, Env.joinAll_eq_of_below hj hi hsub fun f hf => ?_]
    rcases hfs f hf with hf | rfl
    · exact Env.below_joinAll hj hf
    · exact lowestEnv_below hover
  · rintro ⟨f, hf, hkind⟩
    by_contra hne
    rw [Env.joinAll_error (P := fun f => f.kind = .mismatchedDomain) kind_of_join_error (fun _ _ => rfl)
      hne hf] at hkind
    cases hkind
  · rintro rfl
    exact ⟨.emptyJoin, rfl, rfl⟩
  · obtain ⟨before, f, after, hrest, hbefore, hf, hjoin⟩ := Env.joinAll_differentLocals hother
    exact ⟨before, f, after, hrest, hbefore, hf, hjoin, rfl⟩

/-- A state of one local with the given bits. -/
def ofBits (bits : List Bit) : Env BitPattern := .ofFn (.ofList [⟨"x", .int⟩]) fun _ => ⟨bits⟩

theorem over_ofBits (bits : List Bit) :
    constantBits.Over (.ofList [⟨"x", .int⟩]) (fun _ => bits.length) (ofBits bits) :=
  ⟨Env.locals_ofFn _ _, Env.all_ofFn fun _ _ => rfl⟩

theorem joins_least_upper_bounds_bits :
    Env.joinAll [ofBits [.zero, .one], ofBits [.one, .one]] = .ok (ofBits [.top, .one]) ∧
    Env.joinAll [ofBits [.one, .one], ofBits [.bottom, .bottom], ofBits [.zero, .one], ofBits [.one, .one]] =
      .ok (ofBits [.top, .one]) := by
  have hjoin : Env.joinAll [ofBits [.zero, .one], ofBits [.one, .one]] = .ok (ofBits [.top, .one]) := rfl
  obtain ⟨j, hj, -, hsame⟩ := (joins_least_upper_bounds .constantBits).2.1 (.ofList [⟨"x", .int⟩]) (fun _ => 2)
    [ofBits [.zero, .one], ofBits [.one, .one]] (List.cons_ne_nil _ _) (by
      rintro e (_ | ⟨_, _ | ⟨_, ⟨⟩⟩⟩)
      · exact over_ofBits [.zero, .one]
      · exact over_ofBits [.one, .one])
  obtain rfl : ofBits [.top, .one] = j := Except.ok.inj (hjoin.symm.trans hj)
  refine ⟨hjoin, hsame _ (fun e he => ?_) fun f hf => ?_⟩
  · rcases he with _ | ⟨_, _ | ⟨_, ⟨⟩⟩⟩
    · exact .tail _ (.tail _ (.head _))
    · exact .head _
  · rcases hf with _ | ⟨_, _ | ⟨_, hf⟩⟩
    · exact .inl (.tail _ (.head _))
    · exact .inr rfl
    · exact .inl hf

end AnalysisKind

end FlowHistory
