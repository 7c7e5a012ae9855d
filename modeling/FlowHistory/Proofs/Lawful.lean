import FlowHistory.Analysis.Basic
import FlowHistory.Proofs.Order
import Mathlib.Algebra.Order.BigOperators.Group.List
import Mathlib.Algebra.Order.Ring.Nat

/-!
# What the iteration relies on

An analysis is lawful when its values grow along a lattice of finite height and its transfers respect
the order. The values that a local may have are those that *fit*; among them, the join never refuses.
A value is *reached* when nothing of it is still at the bottom. Transfers are only asked to be monotone
on reached states: the product of bit patterns is not monotone on unreached ones.
-/
namespace FlowHistory

open LatticeValue (Below)

namespace Env

variable {V : Type}

/-- Every value has a property that may depend on its local. -/
def All (e : Env V) (P : Local → V → Prop) : Prop := ∀ x v, e.get? x = some v → P x v

theorem get?_write_eq_some {e : Env V} {x y : Local} {v w : V} (h : (e.write x v).get? y = some w) :
    (y = x ∧ w = v) ∨ (y ≠ x ∧ e.get? y = some w) := by
  rw [get?_write] at h
  by_cases hy : y = x
  · rw [if_pos hy] at h
    obtain ⟨_, _, rfl⟩ := Option.map_eq_some_iff.1 h
    exact .inl ⟨hy, rfl⟩
  · rw [if_neg hy] at h
    exact .inr ⟨hy, h⟩

/-- A write keeps a property that the new value has wherever the old one has it. -/
theorem all_write_of_all {e : Env V} {P : Local → V → Prop} {x : Local} {v : V} (h : e.All P)
    (hv : ∀ old, P x old → P x v) : (e.write x v).All P := by
  intro y w hw
  rw [get?_write] at hw
  by_cases hy : y = x
  · subst hy
    rw [if_pos rfl] at hw
    obtain ⟨old, hold, rfl⟩ := Option.map_eq_some_iff.1 hw
    exact hv old (h y old hold)
  · rw [if_neg hy] at hw
    exact h y w hw

theorem all_write {e : Env V} {P : Local → V → Prop} {x : Local} {v : V} (h : e.All P) (hv : P x v) :
    (e.write x v).All P := all_write_of_all h fun _ _ => hv

theorem mapValues_write {W : Type} (e : Env V) (f : Local → V → W) (x : Local) (v : V) :
    (e.write x v).mapValues f = (e.mapValues f).write x (f x v) := by
  apply ext_get?
  intro y
  simp only [get?_mapValues, get?_write]
  by_cases hy : y = x
  · subst hy
    simp [Function.comp_def]
  · simp [hy]

theorem all_mapValues {e : Env V} {P : Local → V → Prop} {f : Local → V → V} (h : e.All P)
    (hf : ∀ x v, P x v → P x (f x v)) : (e.mapValues f).All P := by
  intro x w hw
  rw [get?_mapValues] at hw
  obtain ⟨v, hv, rfl⟩ := Option.map_eq_some_iff.1 hw
  exact hf x v (h x v hv)

theorem all_ofFn {s : LocalSet} {f : Local → V} {P : Local → V → Prop} (h : ∀ x ∈ s, P x (f x)) :
    (ofFn s f).All P := by
  intro x v hv
  rw [get?_ofFn] at hv
  split at hv
  · rename_i hx
    cases hv
    exact h x hx
  · cases hv

variable [LatticeValue V]

theorem below_write {e f : Env V} {x : Local} {v w : V} (h : e.Below f)
    (hvw : LatticeValue.Below v w) :
    (e.write x v).Below (f.write x w) := by
  refine below_iff.2 ⟨by simpa using h.locals_eq, fun y v' w' hv' hw' => ?_⟩
  rcases get?_write_eq_some hv' with ⟨rfl, rfl⟩ | ⟨hy, hv'⟩
  · rcases get?_write_eq_some hw' with ⟨-, rfl⟩ | ⟨hne, -⟩
    · exact hvw
    · exact absurd rfl hne
  · rcases get?_write_eq_some hw' with ⟨heq, -⟩ | ⟨-, hw'⟩
    · exact absurd heq hy
    · exact h.get? hv' hw'

theorem below_mapValues {W : Type} [LatticeValue W] {e f : Env V} {m k : Local → V → W} (h : e.Below f)
    (hm : ∀ x v w, LatticeValue.Below v w → LatticeValue.Below (m x v) (k x w)) :
    (e.mapValues m).Below (f.mapValues k) := by
  refine below_iff.2 ⟨by simpa using h.locals_eq, fun x v' w' hv' hw' => ?_⟩
  rw [get?_mapValues] at hv' hw'
  obtain ⟨v, hv, rfl⟩ := Option.map_eq_some_iff.1 hv'
  obtain ⟨w, hw, rfl⟩ := Option.map_eq_some_iff.1 hw'
  exact hm x v w (h.get? hv hw)

/-- States over the same locals can be joined if their values have a property under which values can. -/
theorem exists_joinSame_of_all {P : Local → V → Prop} {e f : Env V}
    (hjoin : ∀ x v w, P x v → P x w → ∃ u, LatticeValue.join v w = .ok u ∧ P x u)
    (hl : e.locals = f.locals) (he : e.All P) (hf : f.All P) :
    ∃ j, e.joinSame f = .ok j ∧ j.locals = e.locals ∧ j.All P := by
  obtain ⟨j, hj⟩ := exists_joinSame hl fun x v w hv hw =>
    (hjoin x v w (he x v hv) (hf x w hw)).imp fun _ => And.left
  refine ⟨j, hj, locals_joinSame hl hj, fun x u hu => ?_⟩
  obtain ⟨v, w, hv, hw, hvw⟩ := (get?_joinSame hl hj).1 hu
  obtain ⟨u', hu', hP⟩ := hjoin x v w (he x v hv) (hf x w hw)
  rw [hvw] at hu'
  cases hu'
  exact hP

theorem exists_joinAll {P : Local → V → Prop} {locals : List Local} {es : List (Env V)}
    (hjoin : ∀ x v w, P x v → P x w → ∃ u, LatticeValue.join v w = .ok u ∧ P x u)
    (hne : es ≠ []) (h : ∀ e ∈ es, e.locals = locals ∧ e.All P) :
    ∃ j, joinAll es = .ok j ∧ j.locals = locals ∧ j.All P := by
  have key : ∀ (rest : List (Env V)) (e : Env V), e.All P →
      (∀ f ∈ rest, e.locals = f.locals ∧ f.All P) →
      ∃ j, rest.foldlM joinSame e = .ok j ∧ j.locals = e.locals ∧ j.All P := by
    intro rest
    induction rest with
    | nil => exact fun e he _ => ⟨e, rfl, rfl, he⟩
    | cons f rest ih =>
      intro e he hrest
      rw [List.forall_mem_cons] at hrest
      obtain ⟨j, hj, hlocals, hall⟩ := exists_joinSame_of_all hjoin hrest.1.1 he hrest.1.2
      obtain ⟨k, hk, hlocals', hall'⟩ := ih j hall fun f' hf' =>
        ⟨hlocals.trans (hrest.2 f' hf').1, (hrest.2 f' hf').2⟩
      exact ⟨k, foldlM_joinSame_cons.2 ⟨j, hj, hk⟩, hlocals'.trans hlocals, hall'⟩
  cases es with
  | nil => exact absurd rfl hne
  | cons e rest =>
    rw [List.forall_mem_cons] at h
    have hl : ∀ f ∈ rest, e.locals = f.locals := fun f hf => h.1.1.trans (h.2 f hf).1.symm
    obtain ⟨j, hj, hlocals, hall⟩ := key rest e h.1.2 fun f hf => ⟨hl f hf, (h.2 f hf).2⟩
    exact ⟨j, joinAll_cons.2 ⟨hl, hj⟩, hlocals.trans h.1.1, hall⟩

theorem Below.contains_eq {e f : Env V} (h : e.Below f) (x : Local) : e.contains x = f.contains x := by
  rw [Bool.eq_iff_iff, ← mem_locals, ← mem_locals, h.locals_eq]

end Env

/-- If in two lists side by side whatever differs gains rank, then unequal lists gain rank. -/
theorem sum_map_lt {α : Type} {r : α → Nat} {R : α → α → Prop}
    (hR : ∀ {a b : α}, R a b → a ≠ b → r a < r b) {l m : List α} (h : List.Forall₂ R l m) :
    l ≠ m → (l.map r).sum < (m.map r).sum := by
  have key : (l.map r).sum ≤ (m.map r).sum ∧ (l ≠ m → (l.map r).sum < (m.map r).sum) := by
    induction h with
    | nil => exact ⟨Nat.le_refl _, fun h => absurd rfl h⟩
    | @cons a b l m hab _ ih =>
      simp only [List.map_cons, List.sum_cons]
      by_cases heq : a = b
      · refine ⟨by rw [heq]; omega, fun hne => ?_⟩
        have := ih.2 fun hlm => hne (by rw [heq, hlm])
        rw [heq]
        omega
      · have := hR hab heq
        omega
  exact key.2

/-- The laws under which the iteration ends in the least solution. -/
structure Analysis.Lawful {V : Type} [LatticeValue V] (a : Analysis V) where
  /-- the values that a local may have in a program of so many instructions -/
  fits : (sites : Nat) → Local → V → Prop
  /-- nothing of the value is at the bottom -/
  reached : V → Prop
  /-- how far the value has grown -/
  rank : (sites : Nat) → V → Nat
  fits_bottom {n : Nat} {x : Local} : a.tracks x = true → fits n x (a.bottom x)
  fits_fresh {n : Nat} {x : Local} : a.tracks x = true → fits n x (a.fresh n x)
  reached_fresh {n : Nat} {x : Local} : reached (a.fresh n x)
  fits_join {n : Nat} {x : Local} {v w : V} :
    fits n x v → fits n x w → ∃ u, LatticeValue.join v w = .ok u ∧ fits n x u
  bottom_below {n : Nat} {x : Local} {v : V} : fits n x v → Below (a.bottom x) v
  /-- what is joined into a value above the bottom is above the bottom itself -/
  bottom_below_of_below {x : Local} {v u : V} :
    Below v u → Below (a.bottom x) u → Below (a.bottom x) v
  reached_up {v w : V} : reached v → Below v w → reached w
  fits_up {n : Nat} {x : Local} {v w : V} : reached v → fits n x v → Below v w → fits n x w
  rank_lt {n : Nat} {x : Local} {v w : V} :
    fits n x v → fits n x w → Below v w → v ≠ w → rank n v < rank n w
  rank_le {n : Nat} {x : Local} {v : V} : fits n x v → rank n v ≤ a.height n
  transfer_locals {n : Nat} {s : Site} {e e' : Env V} : a.transfer n s e = .ok e' → e'.locals = e.locals
  transfer_fits {n : Nat} {s : Site} {e e' : Env V} :
    e.All (fits n) → a.transfer n s e = .ok e' → e'.All (fits n)
  transfer_reached {n : Nat} {s : Site} {e e' : Env V} :
    e.All (fits n) → e.All (fun _ => reached) → a.transfer n s e = .ok e' → e'.All fun _ => reached
  transfer_mono {n : Nat} {s : Site} {e e' f f' : Env V} :
    e.All (fits n) → e.All (fun _ => reached) → e.Below f → a.transfer n s e = .ok e' →
      a.transfer n s f = .ok f' → e'.Below f'

namespace Analysis.Lawful

variable {V : Type} [LatticeValue V] {a : Analysis V} (law : a.Lawful)

/-- A state that the iteration may hold: over the tracked locals of the graph, with values that fit. -/
structure Fits (g : Flowgraph) (e : Env V) : Prop where
  locals_eq : e.locals = (a.locals g).toList
  values : e.All (law.fits g.instructionCount)

/-- A state in which nothing is at the bottom. -/
structure Reached (g : Flowgraph) (e : Env V) : Prop extends law.Fits g e where
  above : e.All fun _ => law.reached

variable {g : Flowgraph}

theorem fits_bottomEnv : law.Fits g (a.bottomEnv g) := by
  refine ⟨by simp [bottomEnv], Env.all_ofFn fun x hx => law.fits_bottom ?_⟩
  exact (LocalSet.mem_filter.1 hx).2

theorem reached_freshEnv : law.Reached g (a.freshEnv g) where
  locals_eq := by simp [freshEnv]
  values := Env.all_ofFn fun x hx => law.fits_fresh (LocalSet.mem_filter.1 hx).2
  above := Env.all_ofFn fun x _ => law.reached_fresh

theorem bottomEnv_below {e : Env V} (h : law.Fits g e) : (a.bottomEnv g).Below e := by
  refine Env.below_iff.2 ⟨by simp [bottomEnv, h.locals_eq], fun x v w hv hw => ?_⟩
  rw [bottomEnv, Env.get?_ofFn] at hv
  split at hv
  · cases hv
    exact law.bottom_below (h.values x w hw)
  · cases hv

include law in
theorem bottomEnv_below_of_below {e u : Env V} (h : e.Below u) (hu : (a.bottomEnv g).Below u) :
    (a.bottomEnv g).Below e := by
  refine Env.below_iff.2 ⟨hu.locals_eq.trans h.locals_eq.symm, fun x v w hv hw => ?_⟩
  obtain ⟨z, hz⟩ := Env.exists_get?_of_locals_eq h.locals_eq hw
  have hvz := hu.get? hv hz
  rw [bottomEnv, Env.get?_ofFn] at hv
  split at hv
  · cases hv
    exact law.bottom_below_of_below (h.get? hw hz) hvz
  · cases hv

theorem reached_of_below {e f : Env V} (h : law.Reached g e) (hef : e.Below f) : law.Reached g f := by
  refine ⟨⟨hef.locals_eq ▸ h.locals_eq, fun x w hw => ?_⟩, fun x w hw => ?_⟩
  all_goals obtain ⟨v, hv⟩ := Env.exists_get?_of_locals_eq hef.locals_eq.symm hw
  · exact law.fits_up (h.above x v hv) (h.values x v hv) (hef.get? hv hw)
  · exact law.reached_up (h.above x v hv) (hef.get? hv hw)

/-- Fitting states can be joined. -/
theorem fits_joinAll {es : List (Env V)} (hne : es ≠ []) (h : ∀ e ∈ es, law.Fits g e) :
    ∃ j, Env.joinAll es = .ok j ∧ law.Fits g j := by
  obtain ⟨j, hj, hlocals, hvalues⟩ := Env.exists_joinAll (P := law.fits g.instructionCount)
    (fun _ _ _ => law.fits_join) hne fun e he => ⟨(h e he).locals_eq, (h e he).values⟩
  exact ⟨j, hj, hlocals, hvalues⟩

/-- The sum of the ranks of all values. -/
def envRank (g : Flowgraph) (e : Env V) : Nat := (e.values.map (law.rank g.instructionCount)).sum

theorem envRank_le {e : Env V} (h : law.Fits g e) :
    law.envRank g e ≤ (a.locals g).toList.length * a.height g.instructionCount := by
  have hlen : (e.values.map (law.rank g.instructionCount)).length = (a.locals g).toList.length := by
    rw [← h.locals_eq]
    simp [Env.locals, Env.values]
  have hle : ∀ r ∈ e.values.map (law.rank g.instructionCount), r ≤ a.height g.instructionCount := ?_
  · rw [← hlen]
    simpa [envRank] using List.sum_le_card_nsmul _ _ hle
  intro r hr
  obtain ⟨v, hv, rfl⟩ := List.mem_map.1 hr
  obtain ⟨p, hp, rfl⟩ := List.mem_map.1 hv
  exact law.rank_le (h.values p.1 p.2 (Env.get?_eq_some_iff_mem.2 hp))

/-- A state that grows gains rank. -/
theorem envRank_lt {e f : Env V} (he : law.Fits g e) (hf : law.Fits g f) (hef : e.Below f) (hne : e ≠ f) :
    law.envRank g e < law.envRank g f := by
  let n := g.instructionCount
  have hal : Env.Aligned (fun v w => v ≠ w → law.rank n v < law.rank n w) e.entries f.entries :=
    Env.aligned_of_get? hef.locals_eq fun x v w hv hw =>
      law.rank_lt (he.values x v hv) (hf.values x w hw) (hef.get? hv hw)
  have hentries : e.entries ≠ f.entries := by
    intro h
    refine hne ?_
    cases e
    cases f
    cases h
    rfl
  have hlt := sum_map_lt (r := fun p : Local × V => law.rank n p.2)
    (fun {p q} hpq hne => hpq.2 fun h => hne (Prod.ext hpq.1 h)) hal hentries
  simpa [envRank, Env.values, Function.comp_def] using hlt

end Analysis.Lawful

end FlowHistory
