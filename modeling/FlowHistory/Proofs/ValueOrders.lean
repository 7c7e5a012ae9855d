import FlowHistory.Analysis.ConstantFolding
import FlowHistory.Analysis.LiveVariables
import FlowHistory.Analysis.ReachingDefinitions
import FlowHistory.Analysis.Taint
import FlowHistory.Proofs.Order
import FlowHistory.Proofs.PackedSets

/-!
# The orders of constants, definition sites, taint and liveness

Three of the joins are total, and idempotent, commutative and associative; that alone makes them least
upper bounds in the order they give. Sets of definition sites can be joined only over the same program,
and are ordered by inclusion.
-/
namespace FlowHistory

open LatticeValue (Below)

theorem below_iff_of_total {V : Type} [LatticeValue V] {f : V → V → V}
    (hf : ∀ x y : V, LatticeValue.join x y = .ok (f x y)) {x y : V} : Below x y ↔ f x y = y := by
  rw [Below, hf, Except.ok.injEq]

/-- A join that never refuses and forms a semilattice is a least upper bound in its own order. -/
theorem LawfulJoin.of_total {V : Type} [LatticeValue V] (f : V → V → V)
    (hf : ∀ x y : V, LatticeValue.join x y = .ok (f x y)) (hidem : ∀ x, f x x = x)
    (hcomm : ∀ x y, f x y = f y x) (hassoc : ∀ x y z, f (f x y) z = f x (f y z)) : LawfulJoin V := by
  have hbelow : ∀ {x y : V}, Below x y ↔ f x y = y := below_iff_of_total hf
  have hjoin : ∀ {x y z : V}, LatticeValue.join x y = .ok z ↔ f x y = z := fun {x y z} => by
    rw [hf, Except.ok.injEq]
  constructor
  · exact fun x => hbelow.2 (hidem x)
  · intro x y z hxy hyz
    rw [hbelow] at *
    rw [← hyz, ← hassoc, hxy]
  · intro x y hxy hyx
    rw [hbelow] at *
    rw [← hyx, hcomm, hxy]
  · intro x y z h
    rw [hjoin] at h
    rw [hbelow, ← h, ← hassoc, hidem]
  · intro x y z h
    rw [hjoin] at h
    rw [hbelow, ← h, hcomm x y, ← hassoc, hidem]
  · intro x y z u h hxu hyu
    rw [hjoin] at h
    rw [hbelow] at *
    rw [← h, hassoc, hyu, hxu]

namespace ConstValue

theorem union_self (x : ConstValue) : x.union x = x := by cases x <;> simp [union]

theorem union_comm (x y : ConstValue) : x.union y = y.union x := by
  cases x <;> cases y <;> simp [union, eq_comm] <;> grind

theorem union_assoc (x y z : ConstValue) : (x.union y).union z = x.union (y.union z) := by
  cases x <;> cases y <;> cases z <;> simp [union] <;> grind [union]

instance : LawfulJoin ConstValue :=
  .of_total union (fun _ _ => rfl) union_self union_comm union_assoc

/-- Below a constant are only the bottom and the constant itself. -/
theorem below_iff {x y : ConstValue} : Below x y ↔ x = .bottom ∨ y = .top ∨ x = y := by
  rw [below_iff_of_total (f := union) fun _ _ => rfl]
  cases x <;> cases y <;> simp [union] <;> grind

end ConstValue

namespace TaintState

theorem max_self (x : TaintState) : x.max x = x := by cases x <;> rfl

theorem max_comm (x y : TaintState) : x.max y = y.max x := by cases x <;> cases y <;> rfl

theorem max_assoc (x y z : TaintState) : (x.max y).max z = x.max (y.max z) := by
  cases x <;> cases y <;> cases z <;> rfl

end TaintState

namespace TaintValue

instance : LawfulJoin TaintValue :=
  .of_total union (fun _ _ => rfl) (fun v => by simp [union, TaintState.max_self])
    (fun v w => by simp [union, TaintState.max_comm v.state, Bool.or_comm v.violated])
    (fun v w u => by simp [union, TaintState.max_assoc, Bool.or_assoc])

/-- Taint and the mark of violation grow apart from each other. -/
theorem below_iff {v w : TaintValue} :
    Below v w ↔ v.state.max w.state = w.state ∧ (v.violated = true → w.violated = true) := by
  rw [below_iff_of_total (f := union) fun _ _ => rfl]
  obtain ⟨s, b⟩ := v
  obtain ⟨t, c⟩ := w
  simp [union]

theorem bottom_below (v : TaintValue) : Below .bottom v := by
  obtain ⟨s, b⟩ := v
  cases s <;> simp [below_iff, bottom, TaintState.max]

end TaintValue

namespace LiveValue

instance : LawfulJoin LiveValue :=
  .of_total union (fun _ _ => rfl) (fun v => by cases v <;> rfl)
    (fun v w => by cases v <;> cases w <;> rfl) (fun v w u => by cases v <;> cases w <;> cases u <;> rfl)

theorem below_iff {v w : LiveValue} : Below v w ↔ v.union w = w := below_iff_of_total fun _ _ => rfl

theorem bottom_below (v : LiveValue) : Below .bottom v := below_iff.2 (by cases v <;> rfl)

end LiveValue

namespace IndexSet

/-- Inclusion of sets over the same indices. -/
def Included (s t : IndexSet) : Prop := s.capacity = t.capacity ∧ ∀ i, i ∈ s → i ∈ t

theorem union?_eq_right_iff {s t : IndexSet} : s.union? t = some t ↔ Included s t := by
  constructor
  · intro h
    exact ⟨(capacity_of_union? h).1, fun i hi => (mem_of_union? h).2 (.inl hi)⟩
  · rintro ⟨hc, hsub⟩
    obtain ⟨u, hu, hcap⟩ := union?_of_capacity_eq hc
    rw [hu, Option.some.injEq]
    refine IndexSet.ext (hcap.trans hc) fun i => ?_
    rw [mem_of_union? hu]
    exact ⟨fun h => h.elim (hsub i) id, .inr⟩

/-- A set gains members as it grows. -/
theorem count_lt_of_included {s t : IndexSet} (h : Included s t) (hne : s ≠ t) : s.count < t.count := by
  have hsub : s.toList.Subperm t.toList :=
    s.sortedLT_toList.nodup.subperm fun i hi => mem_toList.2 (h.2 i (mem_toList.1 hi))
  rw [← length_toList, ← length_toList]
  refine Nat.lt_of_le_of_ne hsub.length_le fun hlen => hne (IndexSet.ext h.1 fun i => ?_)
  rw [← mem_toList, ← mem_toList]
  exact (hsub.perm_of_length_le hlen.ge).mem_iff

theorem count_le_capacity (s : IndexSet) : s.count ≤ s.capacity := by
  have hsub : s.toList.Subperm (List.range s.capacity) :=
    s.sortedLT_toList.nodup.subperm fun i hi => List.mem_range.2 (lt_capacity_of_mem (mem_toList.1 hi))
  simpa [length_toList] using hsub.length_le

end IndexSet

namespace DefValue

theorem below_iff {v w : DefValue} : Below v w ↔
    v = .bottom ∨ w = .top ∨ ∃ s t, v = .sites s ∧ w = .sites t ∧ s.Included t := by
  have hbelow : Below v w ↔ v.union w = .ok w := Iff.rfl
  rw [hbelow]
  cases v with
  | bottom => simp [union]
  | top => cases w <;> simp [union]
  | sites s =>
    cases w with
    | bottom => simp [union]
    | top => simp [union]
    | sites t =>
      simp only [union, reduceCtorEq, sites.injEq, exists_eq_left', exists_and_left, false_or]
      rw [← IndexSet.union?_eq_right_iff]
      split <;> simp_all

theorem union_sites {s t : IndexSet} {u : DefValue} :
    (DefValue.sites s).union (.sites t) = .ok u ↔ ∃ r, s.union? t = some r ∧ u = .sites r := by
  simp only [union]
  cases s.union? t with
  | none => simp
  | some r => simp [eq_comm]

/-- Sets over one number of sites can be united. -/
theorem exists_union {n : Nat} {v w : DefValue} (hv : ∀ s, v = .sites s → s.capacity = n)
    (hw : ∀ s, w = .sites s → s.capacity = n) :
    ∃ u, v.union w = .ok u ∧ ∀ s, u = .sites s → s.capacity = n := by
  cases v with
  | bottom => exact ⟨w, rfl, hw⟩
  | top => cases w <;> exact ⟨.top, rfl, by simp⟩
  | sites s =>
    cases w with
    | bottom => exact ⟨_, rfl, hv⟩
    | top => exact ⟨.top, rfl, by simp⟩
    | sites t =>
      obtain ⟨u, hu, hcap⟩ := IndexSet.union?_of_capacity_eq ((hv s rfl).trans (hw t rfl).symm)
      refine ⟨.sites u, union_sites.2 ⟨u, hu, rfl⟩, fun r hr => ?_⟩
      cases hr
      exact hcap.trans (hv s rfl)

instance : LawfulJoin DefValue where
  refl x := by
    rw [below_iff]
    cases x <;> simp [IndexSet.Included]
  trans {x y z} hxy hyz := by
    rw [below_iff] at *
    rcases hxy with rfl | rfl | ⟨s, t, rfl, rfl, hst⟩
    · exact .inl rfl
    · rcases hyz with h | rfl | ⟨_, _, h, -⟩
      · cases h
      · exact .inr (.inl rfl)
      · cases h
    · rcases hyz with h | rfl | ⟨t', u, h, rfl, htu⟩
      · cases h
      · exact .inr (.inl rfl)
      · cases h
        exact .inr (.inr ⟨s, u, rfl, rfl, hst.1.trans htu.1, fun i hi => htu.2 i (hst.2 i hi)⟩)
  antisymm {x y} hxy hyx := by
    rw [below_iff] at *
    rcases hxy with rfl | rfl | ⟨s, t, rfl, rfl, hst⟩
    · rcases hyx with rfl | h | ⟨_, _, -, h, -⟩
      · rfl
      · cases h
      · cases h
    · rcases hyx with h | rfl | ⟨_, _, h, -⟩
      · cases h
      · rfl
      · cases h
    · rcases hyx with h | h | ⟨_, _, h, h', hts⟩
      · cases h
      · cases h
      · cases h
        cases h'
        rw [IndexSet.ext hst.1 fun i => ⟨hst.2 i, hts.2 i⟩]
  left {x y z} h := by
    rw [below_iff]
    cases x with
    | bottom => exact .inl rfl
    | top => cases y <;> cases h <;> exact .inr (.inl rfl)
    | sites s =>
      cases y with
      | bottom => cases h; exact .inr (.inr ⟨s, s, rfl, rfl, rfl, fun _ hi => hi⟩)
      | top => cases h; exact .inr (.inl rfl)
      | sites t =>
        obtain ⟨r, hr, rfl⟩ := union_sites.1 h
        exact .inr (.inr ⟨s, r, rfl, rfl, (IndexSet.capacity_of_union? hr).2.symm,
          fun i hi => (IndexSet.mem_of_union? hr).2 (.inl hi)⟩)
  right {x y z} h := by
    rw [below_iff]
    cases y with
    | bottom => exact .inl rfl
    | top => cases x <;> cases h <;> exact .inr (.inl rfl)
    | sites t =>
      cases x with
      | bottom => cases h; exact .inr (.inr ⟨t, t, rfl, rfl, rfl, fun _ hi => hi⟩)
      | top => cases h; exact .inr (.inl rfl)
      | sites s =>
        obtain ⟨r, hr, rfl⟩ := union_sites.1 h
        have hcap := IndexSet.capacity_of_union? hr
        exact .inr (.inr ⟨t, r, rfl, rfl, (hcap.2.trans hcap.1).symm,
          fun i hi => (IndexSet.mem_of_union? hr).2 (.inr hi)⟩)
  least {x y z u} h hxu hyu := by
    rw [below_iff] at *
    cases x with
    | bottom => cases y <;> cases h <;> exact hyu
    | top => cases y <;> cases h <;> exact hxu
    | sites s =>
      cases y with
      | bottom => cases h; exact hxu
      | top => cases h; exact hyu
      | sites t =>
        obtain ⟨r, hr, rfl⟩ := union_sites.1 h
        rcases hxu with h | rfl | ⟨s', u', h, rfl, hsu⟩
        · cases h
        · exact .inr (.inl rfl)
        · cases h
          rcases hyu with h | h | ⟨t', u'', h, h', htu⟩
          · cases h
          · cases h
          · cases h
            cases h'
            refine .inr (.inr ⟨r, u', rfl, rfl, (IndexSet.capacity_of_union? hr).2.trans hsu.1, fun i hi => ?_⟩)
            exact ((IndexSet.mem_of_union? hr).1 hi).elim (hsu.2 i) (htu.2 i)

end DefValue

end FlowHistory
