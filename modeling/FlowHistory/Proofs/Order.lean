import FlowHistory.Env
import Mathlib.Data.List.Forall2

/-!
# The order given by the join

A value is below another when joining the two gives the other one. Where the join of values is a
least upper bound, so is the join of states, which goes entry by entry; a state is then below another
exactly when both are over the same locals and every value is below its counterpart. A join may be
refused, so least upper bounds are stated for joins that succeed.
-/
namespace FlowHistory

/-- A computation in sequence succeeds exactly when both of its parts do. -/
theorem bind_eq_ok {α β : Type} {x : Except Fault α} {f : α → Except Fault β} {b : β} :
    (x >>= f) = .ok b ↔ ∃ a, x = .ok a ∧ f a = .ok b := by
  cases x with
  | error e => simp [bind, Except.bind]
  | ok a => simp [bind, Except.bind]

theorem bind_eq_error {α β : Type} {x : Except Fault α} {f : α → Except Fault β} {fault : Fault} :
    (x >>= f) = .error fault ↔ x = .error fault ∨ ∃ a, x = .ok a ∧ f a = .error fault := by
  cases x with
  | error e => simp [bind, Except.bind]
  | ok a => simp [bind, Except.bind]

theorem pure_eq_ok {α : Type} {a b : α} : (pure a : Except Fault α) = .ok b ↔ a = b := by
  simp [pure, Except.pure]

namespace LatticeValue

variable {V : Type} [LatticeValue V]

/-- `x` is below `y` when joining them gives `y`. -/
def Below (x y : V) : Prop := join x y = .ok y

end LatticeValue

open LatticeValue (Below)

/-- Values ordered by their join, which is a least upper bound wherever it is defined. -/
class LawfulJoin (V : Type) [LatticeValue V] : Prop where
  refl (x : V) : Below x x
  trans {x y z : V} : Below x y → Below y z → Below x z
  antisymm {x y : V} : Below x y → Below y x → x = y
  left {x y z : V} : LatticeValue.join x y = .ok z → Below x z
  right {x y z : V} : LatticeValue.join x y = .ok z → Below y z
  least {x y z u : V} : LatticeValue.join x y = .ok z → Below x u → Below y u → Below z u

namespace Env

variable {V W : Type}

theorem get?_eq_some_iff_mem {e : Env V} {x : Local} {v : V} :
    e.get? x = some v ↔ (x, v) ∈ e.entries := by
  obtain ⟨l, hl⟩ := e
  simp only [get?]
  induction l with
  | nil => simp
  | cons p r ih =>
    simp only [List.map_cons, List.pairwise_cons] at hl
    by_cases h : p.1 = x
    · -- the head is the only entry of its local, since the later ones are greater
      subst h
      have hnot : ∀ v, (p.1, v) ∉ r := fun v hv =>
        Local.lt_irrefl _ (hl.1 p.1 (List.mem_map.2 ⟨_, hv, rfl⟩))
      simp [hnot, Prod.ext_iff, eq_comm]
    · rw [List.find?_cons_of_neg (by simpa using h), ih hl.2]
      simp [Prod.ext_iff, Ne.symm h]

theorem mem_locals_iff {e : Env V} {x : Local} : x ∈ e.locals ↔ ∃ v, e.get? x = some v := by
  rw [mem_locals, contains, Option.isSome_iff_exists]

/-- Over the same locals, one of two states has a value where the other has. -/
theorem exists_get?_of_locals_eq {e : Env V} {f : Env W} (h : e.locals = f.locals) {x : Local} {v : V}
    (hv : e.get? x = some v) : ∃ w, f.get? x = some w := by
  have hx : x ∈ e.locals := mem_locals_iff.2 ⟨v, hv⟩
  rw [h] at hx
  exact mem_locals_iff.1 hx

/-- Entries of two states side by side, with a relation between their values. -/
def Aligned (R : V → W → Prop) (l : List (Local × V)) (m : List (Local × W)) : Prop :=
  List.Forall₂ (fun p q => p.1 = q.1 ∧ R p.2 q.2) l m

/-- A relation that holds local by local holds entry by entry. -/
theorem aligned_of_get? {R : V → W → Prop} {e : Env V} {f : Env W} (hl : e.locals = f.locals)
    (h : ∀ x v w, e.get? x = some v → f.get? x = some w → R v w) : Aligned R e.entries f.entries := by
  have key : ∀ (l : List (Local × V)) (m : List (Local × W)), l.map Prod.fst = m.map Prod.fst →
      (∀ p ∈ l, ∀ q ∈ m, p.1 = q.1 → R p.2 q.2) → Aligned R l m := by
    intro l
    induction l with
    | nil =>
      intro m hm _
      have : m = [] := by simpa using hm.symm
      subst this
      exact .nil
    | cons p l ih =>
      intro m hm hR
      cases m with
      | nil => simp at hm
      | cons q m =>
        simp only [List.map_cons, List.cons.injEq] at hm
        refine .cons ⟨hm.1, hR p (by simp) q (by simp) hm.1⟩ (ih m hm.2 ?_)
        intro p' hp' q' hq'
        exact hR p' (by simp [hp']) q' (by simp [hq'])
  refine key _ _ hl fun p hp q hq hpq => ?_
  refine h p.1 p.2 q.2 (get?_eq_some_iff_mem.2 hp) (get?_eq_some_iff_mem.2 ?_)
  rw [hpq]
  exact hq

theorem length_values {e f : Env V} (h : e.locals = f.locals) : e.values.length = f.values.length := by
  have := congrArg List.length h
  simpa [locals, values] using this

variable [LatticeValue V]

theorem joinValues_cons {x y : V} {xs ys zs : List V} :
    joinValues (x :: xs) (y :: ys) = .ok zs ↔
      ∃ z r, LatticeValue.join x y = .ok z ∧ joinValues xs ys = .ok r ∧ zs = z :: r := by
  simp only [joinValues, bind_eq_ok, pure_eq_ok]
  constructor
  · rintro ⟨z, hz, r, hr, rfl⟩
    exact ⟨z, r, hz, hr, rfl⟩
  · rintro ⟨z, r, hz, hr, rfl⟩
    exact ⟨z, hz, r, hr, rfl⟩

theorem joinSame_eq_ok {e f g : Env V} :
    e.joinSame f = .ok g ↔ ∃ vs, joinValues e.values f.values = .ok vs ∧ e.withValues vs = g := by
  simp only [joinSame, bind_eq_ok, pure_eq_ok]

theorem length_joinValues {xs ys zs : List V} (hl : xs.length = ys.length)
    (h : joinValues xs ys = .ok zs) : zs.length = xs.length := by
  induction xs generalizing ys zs with
  | nil =>
    simp only [joinValues, pure_eq_ok] at h
    simp [← h]
  | cons x xs ih =>
    cases ys with
    | nil => simp at hl
    | cons y ys =>
      obtain ⟨z, r, -, hr, rfl⟩ := joinValues_cons.1 h
      simp [ih (by simpa using hl) hr]

theorem locals_joinSame {e f g : Env V} (hl : e.locals = f.locals) (h : e.joinSame f = .ok g) :
    g.locals = e.locals := by
  obtain ⟨vs, hvs, rfl⟩ := joinSame_eq_ok.1 h
  have hlen := length_joinValues (length_values hl) hvs
  have hlocals : e.locals.length = e.values.length := by simp [locals, values]
  rw [locals, withValues, List.map_fst_zip (by omega)]

/-- The joined state gives each local the join of its two values. -/
theorem get?_joinSame {e f g : Env V} (hl : e.locals = f.locals) (h : e.joinSame f = .ok g)
    {x : Local} {u : V} :
    g.get? x = some u ↔
      ∃ v w, e.get? x = some v ∧ f.get? x = some w ∧ LatticeValue.join v w = .ok u := by
  obtain ⟨vs, hvs, rfl⟩ := joinSame_eq_ok.1 h
  obtain ⟨l, ol⟩ := e
  obtain ⟨m, om⟩ := f
  simp only [get?, withValues, locals, values] at hl hvs ⊢
  clear h ol om
  induction l generalizing m vs with
  | nil => simp
  | cons p l ih =>
    cases m with
    | nil => simp at hl
    | cons q m =>
      simp only [List.map_cons, List.cons.injEq] at hl
      obtain ⟨z, r, hz, hr, rfl⟩ := joinValues_cons.1 hvs
      by_cases hx : p.1 = x
      · have hq : q.1 = x := hl.1 ▸ hx
        simp [hx, hq, hz]
      · have hq : ¬ q.1 = x := hl.1 ▸ hx
        simp only [List.map_cons, List.zip_cons_cons]
        rw [List.find?_cons_of_neg (by simpa using hx), List.find?_cons_of_neg (by simpa using hx),
          List.find?_cons_of_neg (by simpa using hq)]
        exact ih r m hl.2 hr

/-- States whose values can be joined local by local can be joined. -/
theorem exists_joinSame {e f : Env V} (hl : e.locals = f.locals)
    (h : ∀ x v w, e.get? x = some v → f.get? x = some w → ∃ u, LatticeValue.join v w = .ok u) :
    ∃ g, e.joinSame f = .ok g := by
  have key : ∀ {l m : List (Local × V)}, Aligned (fun v w => ∃ u, LatticeValue.join v w = .ok u) l m →
      ∃ vs, joinValues (l.map Prod.snd) (m.map Prod.snd) = .ok vs := by
    intro l m hal
    induction hal with
    | nil => exact ⟨[], rfl⟩
    | cons hpq _ ih =>
      obtain ⟨z, hz⟩ := hpq.2
      obtain ⟨r, hr⟩ := ih
      exact ⟨z :: r, joinValues_cons.2 ⟨z, r, hz, hr, rfl⟩⟩
  obtain ⟨vs, hvs⟩ := key (aligned_of_get? hl h)
  exact ⟨_, joinSame_eq_ok.2 ⟨vs, hvs, rfl⟩⟩

/-- A state is below another when joining the two gives the other one. -/
def Below (e f : Env V) : Prop := joinAll [e, f] = .ok f

theorem joinAll_pair {e f g : Env V} :
    joinAll [e, f] = .ok g ↔ e.locals = f.locals ∧ e.joinSame f = .ok g := by
  by_cases h : e.locals = f.locals
  · simp [joinAll, sameLocals, h]
  · simp [joinAll, sameLocals, h]

theorem below_iff {e f : Env V} :
    e.Below f ↔ e.locals = f.locals ∧
      ∀ x v w, e.get? x = some v → f.get? x = some w → LatticeValue.Below v w := by
  rw [Below, joinAll_pair]
  refine and_congr_right fun hl => ⟨fun h x v w hv hw => ?_, fun h => ?_⟩
  · obtain ⟨v', w', hv', hw', hj⟩ := (get?_joinSame hl h).1 hw
    rw [hv] at hv'
    rw [hw] at hw'
    cases hv'
    cases hw'
    exact hj
  · obtain ⟨g, hg⟩ := exists_joinSame hl fun x v w hv hw => ⟨w, h x v w hv hw⟩
    rw [hg]
    refine congrArg _ (ext_get? fun x => Option.ext fun u => ?_)
    rw [get?_joinSame hl hg]
    constructor
    · rintro ⟨v, w, hv, hw, hj⟩
      have hb : LatticeValue.join v w = .ok w := h x v w hv hw
      rw [hj] at hb
      cases hb
      exact hw
    · intro hu
      obtain ⟨v, hv⟩ := exists_get?_of_locals_eq hl.symm hu
      exact ⟨v, u, hv, hu, h x v u hv hu⟩

theorem Below.locals_eq {e f : Env V} (h : e.Below f) : e.locals = f.locals := (below_iff.1 h).1

theorem Below.get? {e f : Env V} (h : e.Below f) {x : Local} {v w : V} (hv : e.get? x = some v)
    (hw : f.get? x = some w) : LatticeValue.Below v w := (below_iff.1 h).2 x v w hv hw

/-- A join of several states succeeds only over one universe, and is then a fold. -/
theorem joinAll_cons {e g : Env V} {rest : List (Env V)} :
    joinAll (e :: rest) = .ok g ↔
      (∀ f ∈ rest, e.locals = f.locals) ∧ rest.foldlM joinSame e = .ok g := by
  simp only [joinAll]
  split
  · rename_i f hf
    have hne := List.find?_some hf
    have hmem := List.mem_of_find?_eq_some hf
    simp only [sameLocals, Bool.not_eq_true', beq_eq_false_iff_ne, ne_eq] at hne
    simp only [reduceCtorEq, false_iff, not_and]
    intro hall
    exact absurd (hall f hmem) hne
  · rename_i hf
    simp only [List.find?_eq_none, sameLocals, Bool.not_eq_true', Bool.not_eq_false, beq_iff_eq] at hf
    exact ⟨fun h => ⟨hf, h⟩, fun h => h.2⟩

theorem foldlM_joinSame_cons {e f g : Env V} {rest : List (Env V)} :
    (f :: rest).foldlM joinSame e = .ok g ↔
      ∃ j, e.joinSame f = .ok j ∧ rest.foldlM joinSame j = .ok g := by
  rw [List.foldlM_cons, bind_eq_ok]

variable [LawfulJoin V]

theorem below_refl (e : Env V) : e.Below e := by
  refine below_iff.2 ⟨rfl, fun x v w hv hw => ?_⟩
  rw [hv] at hw
  cases hw
  exact LawfulJoin.refl v

theorem below_trans {e f g : Env V} (hef : e.Below f) (hfg : f.Below g) : e.Below g := by
  refine below_iff.2 ⟨hef.locals_eq.trans hfg.locals_eq, fun x v w hv hw => ?_⟩
  obtain ⟨u, hu⟩ := exists_get?_of_locals_eq hef.locals_eq hv
  exact LawfulJoin.trans (hef.get? hv hu) (hfg.get? hu hw)

theorem below_antisymm {e f : Env V} (hef : e.Below f) (hfe : f.Below e) : e = f := by
  refine ext_get? fun x => ?_
  cases hv : e.get? x with
  | none =>
    cases hw : f.get? x with
    | none => rfl
    | some w =>
      obtain ⟨v, hv'⟩ := exists_get?_of_locals_eq hfe.locals_eq hw
      rw [hv] at hv'
      cases hv'
  | some v =>
    obtain ⟨w, hw⟩ := exists_get?_of_locals_eq hef.locals_eq hv
    rw [hw, LawfulJoin.antisymm (hef.get? hv hw) (hfe.get? hw hv)]

theorem below_joinSame_left {e f g : Env V} (hl : e.locals = f.locals) (h : e.joinSame f = .ok g) :
    e.Below g := by
  refine below_iff.2 ⟨(locals_joinSame hl h).symm, fun x v u hv hu => ?_⟩
  obtain ⟨v', w, hv', -, hj⟩ := (get?_joinSame hl h).1 hu
  rw [hv] at hv'
  cases hv'
  exact LawfulJoin.left hj

theorem below_joinSame_right {e f g : Env V} (hl : e.locals = f.locals) (h : e.joinSame f = .ok g) :
    f.Below g := by
  refine below_iff.2 ⟨hl.symm.trans (locals_joinSame hl h).symm, fun x w u hw hu => ?_⟩
  obtain ⟨v, w', -, hw', hj⟩ := (get?_joinSame hl h).1 hu
  rw [hw] at hw'
  cases hw'
  exact LawfulJoin.right hj

theorem joinSame_least {e f g u : Env V} (hl : e.locals = f.locals) (h : e.joinSame f = .ok g)
    (heu : e.Below u) (hfu : f.Below u) : g.Below u := by
  refine below_iff.2 ⟨(locals_joinSame hl h).trans heu.locals_eq, fun x z w hz hw => ?_⟩
  obtain ⟨v, v', hv, hv', hj⟩ := (get?_joinSame hl h).1 hz
  exact LawfulJoin.least hj (heu.get? hv hw) (hfu.get? hv' hw)

/-- The fold is above its start and above every state folded in. -/
theorem below_foldlM_joinSame {e g : Env V} {rest : List (Env V)} (hl : ∀ f ∈ rest, e.locals = f.locals)
    (h : rest.foldlM joinSame e = .ok g) : e.Below g ∧ ∀ f ∈ rest, f.Below g := by
  induction rest generalizing e with
  | nil =>
    simp only [List.foldlM_nil, pure_eq_ok] at h
    subst h
    exact ⟨below_refl e, by simp⟩
  | cons f rest ih =>
    obtain ⟨j, hj, hr⟩ := foldlM_joinSame_cons.1 h
    have hlf := hl f (by simp)
    have hlj : ∀ f ∈ rest, j.locals = f.locals := fun f' hf' =>
      (locals_joinSame hlf hj).trans (hl f' (by simp [hf']))
    obtain ⟨hjg, hrest⟩ := ih hlj hr
    refine ⟨below_trans (below_joinSame_left hlf hj) hjg, fun f' hf' => ?_⟩
    rcases List.mem_cons.1 hf' with rfl | hf'
    · exact below_trans (below_joinSame_right hlf hj) hjg
    · exact hrest f' hf'

theorem foldlM_joinSame_least {e g u : Env V} {rest : List (Env V)}
    (hl : ∀ f ∈ rest, e.locals = f.locals) (h : rest.foldlM joinSame e = .ok g) (he : e.Below u)
    (hu : ∀ f ∈ rest, f.Below u) : g.Below u := by
  induction rest generalizing e with
  | nil =>
    simp only [List.foldlM_nil, pure_eq_ok] at h
    exact h ▸ he
  | cons f rest ih =>
    obtain ⟨j, hj, hr⟩ := foldlM_joinSame_cons.1 h
    have hlf := hl f (by simp)
    refine ih (fun f' hf' => (locals_joinSame hlf hj).trans (hl f' (by simp [hf']))) hr ?_
      fun f' hf' => hu f' (by simp [hf'])
    exact joinSame_least hlf hj he (hu f (by simp))

/-- A join of states is above each of them. -/
theorem below_joinAll {es : List (Env V)} {e g : Env V} (h : joinAll es = .ok g) (he : e ∈ es) :
    e.Below g := by
  cases es with
  | nil => simp at he
  | cons f rest =>
    obtain ⟨hl, hf⟩ := joinAll_cons.1 h
    obtain ⟨hfg, hrest⟩ := below_foldlM_joinSame hl hf
    rcases List.mem_cons.1 he with rfl | he
    · exact hfg
    · exact hrest e he

/-- A join of states is below everything that is above each of them. -/
theorem joinAll_least {es : List (Env V)} {g u : Env V} (h : joinAll es = .ok g)
    (hu : ∀ e ∈ es, e.Below u) : g.Below u := by
  cases es with
  | nil => simp [joinAll] at h
  | cons f rest =>
    obtain ⟨hl, hf⟩ := joinAll_cons.1 h
    exact foldlM_joinSame_least hl hf (hu f (by simp)) fun e he => hu e (by simp [he])

theorem joinAll_mono {es fs : List (Env V)} {g u : Env V} (hb : List.Forall₂ Below es fs)
    (h : joinAll es = .ok g) (hu : joinAll fs = .ok u) : g.Below u := by
  refine joinAll_least h fun e he => ?_
  obtain ⟨f, hf, hef⟩ : ∃ f ∈ fs, e.Below f := by
    clear h hu
    induction hb with
    | nil => simp at he
    | cons hab _ ih =>
      rcases List.mem_cons.1 he with rfl | he
      · exact ⟨_, by simp, hab⟩
      · obtain ⟨f, hf, hef⟩ := ih he
        exact ⟨f, by simp [hf], hef⟩
  exact below_trans hef (below_joinAll hu hf)

end Env

end FlowHistory
