import FlowHistory.Lattice

/-!
Abstract states: a value for each local of a fixed universe.

The entries are kept in the order of their locals, so states over one universe can be joined entry
by entry, and two states that agree on every local are equal. The universe of a state never changes:
reading or writing a local outside of it is refused.
-/
namespace FlowHistory

structure Env (V : Type) where
  entries : List (Local × V)
  ordered : (entries.map Prod.fst).Pairwise (· < ·)
  deriving DecidableEq

namespace Env

variable {V W : Type}

def locals (e : Env V) : List Local := e.entries.map Prod.fst

def values (e : Env V) : List V := e.entries.map Prod.snd

def size (e : Env V) : Nat := e.entries.length

/-- The state that gives each local of `s` its value under `f`. -/
def ofFn (s : LocalSet) (f : Local → V) : Env V :=
  ⟨s.toList.map fun x => (x, f x), by simpa [Function.comp_def] using s.ordered⟩

/-- The last value that a list of pairs gives to a local. -/
def lastValue? (pairs : List (Local × V)) (x : Local) : Option V :=
  (pairs.reverse.find? fun p => p.1 == x).map Prod.snd

/-- The state of a list of pairs, of which the last one counts for a repeated local. -/
def ofPairs (pairs : List (Local × V)) : Env V :=
  let s := LocalSet.ofList (pairs.map Prod.fst)
  ⟨s.toList.filterMap fun x => (lastValue? pairs x).map fun v => (x, v), by
    rw [List.map_filterMap, List.pairwise_filterMap]
    refine s.ordered.imp fun hab a' ha b' hb => ?_
    simp only [Option.map_map, Option.map_eq_some_iff, Function.comp_apply] at ha hb
    obtain ⟨_, _, rfl⟩ := ha
    obtain ⟨_, _, rfl⟩ := hb
    exact hab⟩

def get? (e : Env V) (x : Local) : Option V :=
  (e.entries.find? fun p => p.1 == x).map Prod.snd

def contains (e : Env V) (x : Local) : Bool := (e.get? x).isSome

/-- The value of a tracked local. -/
def get (e : Env V) (x : Local) : Except Fault V :=
  match e.get? x with
  | some v => .ok v
  | none => .error (.untrackedRead x)

/-- Applies `f` to every value. -/
def mapValues (e : Env V) (f : Local → V → W) : Env W :=
  ⟨e.entries.map fun p => (p.1, f p.1 p.2), by simpa [Function.comp_def] using e.ordered⟩

/-- Gives `x` the value `v` if it is tracked, and changes nothing else. -/
def write (e : Env V) (x : Local) (v : V) : Env V :=
  e.mapValues fun y w => if y = x then v else w

/-- Gives a tracked local a value. -/
def set (e : Env V) (x : Local) (v : V) : Except Fault (Env V) :=
  if e.contains x then .ok (e.write x v) else .error (.untrackedWrite x)

def sameLocals (e : Env V) (f : Env W) : Bool := e.locals == f.locals

theorem map_fst_zip_sublist {α β : Type} (xs : List α) (ys : List β) :
    ((xs.zip ys).map Prod.fst).Sublist xs := by
  induction xs generalizing ys with
  | nil => simp
  | cons x xs ih =>
    cases ys with
    | nil => simp
    | cons y ys => simpa using ih ys

/-- Replaces the values, in order. -/
def withValues (e : Env V) (vs : List W) : Env W :=
  ⟨e.locals.zip vs, e.ordered.sublist (map_fst_zip_sublist e.locals vs)⟩

/-! Reading after building and writing. -/

@[simp] theorem locals_ofFn (s : LocalSet) (f : Local → V) : (ofFn s f).locals = s.toList := by
  simp [locals, ofFn, Function.comp_def]

@[simp] theorem locals_mapValues (e : Env V) (f : Local → V → W) :
    (e.mapValues f).locals = e.locals := by
  simp [locals, mapValues, Function.comp_def]

@[simp] theorem locals_write (e : Env V) (x : Local) (v : V) : (e.write x v).locals = e.locals :=
  locals_mapValues e _

theorem get?_mapValues (e : Env V) (f : Local → V → W) (x : Local) :
    (e.mapValues f).get? x = (e.get? x).map (f x) := by
  simp only [get?, mapValues]
  induction e.entries with
  | nil => rfl
  | cons p r ih =>
    by_cases h : p.1 = x
    · subst h; simp
    · rw [List.map_cons, List.find?_cons_of_neg (by simpa using h),
        List.find?_cons_of_neg (by simpa using h), ih]

theorem get?_write (e : Env V) (x y : Local) (v : V) :
    (e.write x v).get? y = if y = x then (e.get? y).map fun _ => v else e.get? y := by
  rw [write, get?_mapValues]
  by_cases h : y = x <;> simp [h]

theorem get?_ofFn (s : LocalSet) (f : Local → V) (x : Local) :
    (ofFn s f).get? x = if x ∈ s then some (f x) else none := by
  simp only [get?, ofFn, LocalSet.mem_def]
  induction s.toList with
  | nil => simp
  | cons y r ih =>
    by_cases h : y = x
    · subst h; simp
    · rw [List.map_cons, List.find?_cons_of_neg (by simpa using h), ih]
      simp [Ne.symm h]

theorem mem_locals {e : Env V} {x : Local} : x ∈ e.locals ↔ e.contains x = true := by
  simp only [locals, contains, get?, Option.isSome_map]
  induction e.entries with
  | nil => simp
  | cons p r ih =>
    by_cases h : p.1 = x
    · simp [h]
    · simp [h, Ne.symm h, ih]

theorem find?_eq_none_of_forall_lt {l : List (Local × V)} {x : Local}
    (h : ∀ p ∈ l, x < p.1) : (l.find? fun p => p.1 == x) = none := by
  simp only [List.find?_eq_none, beq_iff_eq]
  intro p hp heq
  exact Local.lt_irrefl x (heq ▸ h p hp)

theorem entries_eq_of_find? : ∀ {l m : List (Local × V)},
    (l.map Prod.fst).Pairwise (· < ·) → (m.map Prod.fst).Pairwise (· < ·) →
    (∀ x, (l.find? fun p => p.1 == x).map Prod.snd = (m.find? fun p => p.1 == x).map Prod.snd) →
    l = m
  | [], [], _, _, _ => rfl
  | [], p :: _, _, _, h => by simpa using h p.1
  | p :: _, [], _, _, h => by simpa using h p.1
  | p :: l, q :: m, hl, hm, h => by
    simp only [List.map_cons, List.pairwise_cons, List.mem_map, forall_exists_index, and_imp,
      forall_apply_eq_imp_iff₂] at hl hm
    have hfst : p.1 = q.1 := by
      refine Classical.byContradiction fun hne => ?_
      by_cases hlt : p.1 < q.1
      · have hnone := find?_eq_none_of_forall_lt
          (fun r (hr : r ∈ q :: m) => (List.mem_cons.1 hr).elim (fun e => e ▸ hlt)
            fun hr => Local.lt_trans hlt (hm.1 r hr))
        simpa [hnone] using h p.1
      · have hgt := Local.lt_of_not_lt hlt hne
        have hnone := find?_eq_none_of_forall_lt
          (fun r (hr : r ∈ p :: l) => (List.mem_cons.1 hr).elim (fun e => e ▸ hgt)
            fun hr => Local.lt_trans hgt (hl.1 r hr))
        simpa [hnone] using h q.1
    have hsnd : p.2 = q.2 := by simpa [hfst] using h p.1
    have hpq : p = q := Prod.ext hfst hsnd
    subst hpq
    refine congrArg (p :: ·) (entries_eq_of_find? hl.2 hm.2 fun x => ?_)
    by_cases hx : p.1 = x
    · subst hx
      rw [find?_eq_none_of_forall_lt hl.1, find?_eq_none_of_forall_lt hm.1]
    · simpa [hx] using h x

/-- States that agree on every local are equal. -/
theorem ext_get? {e f : Env V} (h : ∀ x, e.get? x = f.get? x) : e = f := by
  obtain ⟨l, hl⟩ := e
  obtain ⟨m, hm⟩ := f
  have := entries_eq_of_find? hl hm h
  subst this
  rfl

variable [LatticeValue V]

/-- Joins two lists of values position by position; the first join that is refused decides. -/
def joinValues : List V → List V → Except Fault (List V)
  | x :: xs, y :: ys => do
    let z ← LatticeValue.join x y
    let zs ← joinValues xs ys
    return z :: zs
  | _, _ => return []

/-- Joins a state over the same locals into `e`. -/
def joinSame (e f : Env V) : Except Fault (Env V) := do
  let vs ← joinValues e.values f.values
  return e.withValues vs

/-- Joins states in their order. There must be at least one, and all must be over the locals of the
first. -/
def joinAll : List (Env V) → Except Fault (Env V)
  | [] => .error .emptyJoin
  | e :: rest =>
    match rest.find? fun f => !e.sameLocals f with
    | some f => .error (.differentLocals e.locals f.locals)
    | none => rest.foldlM joinSame e

def render (e : Env V) : String :=
  let entry := fun (p : Local × V) => p.1.render ++ ": " ++ LatticeValue.render p.2
  "\x7b" ++ ", ".intercalate (e.entries.map entry) ++ "\x7d"

end Env

end FlowHistory
