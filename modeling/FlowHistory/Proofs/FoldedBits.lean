import FlowHistory.Proofs.BitConstants
import FlowHistory.Proofs.FoldSoundness
import FlowHistory.Proofs.Refinement

/-!
# Constant bits refine constant folding

A folded value is read as the pattern that knows all bits, none, or has not been reached. Where computed
words fit their locals, a fold that has a result comes from operands that are known. Their patterns are
then known as well, and the pattern of the expression is that of the folded word.
-/
namespace FlowHistory

open LatticeValue (Below)

namespace ConstValue

/-- The pattern of width `w` that tells as much as the value. -/
def pattern (w : Nat) : ConstValue → BitPattern
  | .bottom => .bottom w
  | .top => .top w
  | .int v => .constant v.toInt w
  | .long v => .constant v.toInt w

variable {u v : ConstValue} {a c : Word} {w : Nat}

theorem admits_of_word? (h : v.word? = some a) : v.Admits a := by
  cases v with
  | bottom | top => cases h
  | int _ | long _ =>
    cases h
    rfl

/-- A known value admits no other word than its own. -/
theorem eq_of_word? (h : v.word? = some a) (hc : v.Admits c) : c = a := by
  cases v with
  | bottom | top => cases h
  | int _ | long _ =>
    cases h
    exact hc

theorem width_of_word? (h : v.word? = some a) : a.width = 32 ∨ a.width = 64 := by
  cases v with
  | bottom | top => cases h
  | int _ =>
    cases h
    exact .inl rfl
  | long _ =>
    cases h
    exact .inr rfl

theorem pattern_of_word? (h : v.word? = some a) : v.pattern a.width = .ofBitVec a.value := by
  cases v with
  | bottom | top => cases h
  | int x | long x =>
    cases h
    simp [pattern, BitPattern.constant]

theorem width_pattern (v : ConstValue) (w : Nat) : (v.pattern w).width = w := by
  cases v with
  | bottom | top => exact BitPattern.width_filled _ _
  | int _ | long _ => exact BitPattern.width_constant _ _

theorem pattern_zero (t : LocalType) (w : Nat) : (zero t).pattern w = .constant 0 w := by
  cases t <;> rfl

theorem bottom_le_pattern (v : ConstValue) (w : Nat) : (BitPattern.bottom w).Le (v.pattern w) := by
  have h := BitPattern.bottom_le (v.pattern w)
  rwa [width_pattern] at h

theorem pattern_mono (h : Below u v) : (u.pattern w).Le (v.pattern w) := by
  rcases below_iff.1 h with rfl | rfl | rfl
  · exact bottom_le_pattern v w
  · have htop := BitPattern.le_top (u.pattern w)
    rwa [width_pattern] at htop
  · exact BitPattern.le_refl _

theorem word?_union (h : (u.union v).word? = some a) : u.word? = some a ∨ v.word? = some a := by
  cases u with
  | bottom => exact .inr (by simpa [union] using h)
  | top =>
    cases v with
    | bottom => cases h
    | _ => simp [union, word?] at h
  | int x | long x =>
    cases v with
    | bottom => exact .inl h
    | _ =>
      simp only [union] at h
      split at h
      · exact .inl h
      · cases h

end ConstValue

namespace ConstantFolding

variable {e : Env ConstValue} {u v : ConstValue} {a b c : Word} {op : BinaryOp} {w : Nat}

theorem word?_foldBinary_zero (hop : op = .div ∨ op = .rem) (hv : v.word? = some ⟨w, 0⟩) :
    (foldBinary op u v).word? = none := by
  have hwords : ∀ {k : Nat} (lift : BitVec k → ConstValue) (x : BitVec k),
      foldWords lift op x 0#k = .top := by
    intro k lift x
    rcases hop with rfl | rfl <;> simp [foldWords, BinaryOp.isRelational, BinaryOp.isThreeWay, arithmetic?]
  have hzero : v = .int 0 ∨ v = .long 0 := by
    cases v with
    | bottom | top => cases hv
    | int _ =>
      cases hv
      exact .inl rfl
    | long _ =>
      cases hv
      exact .inr rfl
  rcases hzero with rfl | rfl
  all_goals
    cases u with
    | bottom | top => rfl
    | int _ | long _ => simp [foldBinary, hwords, ConstValue.word?]

/-- The fold of known values is the word that is computed from theirs. -/
theorem binary?_of_foldBinary (hu : u.word? = some a) (hv : v.word? = some b)
    (hw : op.width? a.width b.width = some w) (h : (foldBinary op u v).word? = some c) :
    a.binary? op b = some c ∧ c.width = w := by
  have hzero : op = .div ∨ op = .rem → b.value ≠ 0 := by
    intro hop hb
    have hb : v.word? = some ⟨b.width, 0⟩ := by rw [hv, ← hb]
    rw [word?_foldBinary_zero hop hb] at h
    cases h
  obtain ⟨z, hz⟩ := Word.exists_binary? a.value b.value hw hzero
  have hadmits := admits_foldBinary (ConstValue.admits_of_word? hu) (ConstValue.admits_of_word? hv) hz
  obtain rfl := ConstValue.eq_of_word? h hadmits
  exact ⟨hz, rfl⟩

/-- The value is that of an integral local, and a known one has the width of the local. -/
def Typed (x : Local) (v : ConstValue) : Prop :=
  x.type.isIntegral = true ∧ ∀ a, v.word? = some a → a.width = x.type.bitWidth

/-- The operand has a known word. -/
def Knows (e : Env ConstValue) (x : Operand) (a : Word) : Prop :=
  ∃ v, operand e x = .ok v ∧ v.word? = some a

/-- The word that an expression computes from known operands. -/
inductive Computes (e : Env ConstValue) : Expr → Word → Prop
  | operand {x : Operand} {a : Word} : Knows e x a → Computes e (.operand x) a
  | neg {x : Operand} {a : Word} : Knows e x a → Computes e (.neg x) a.neg
  | binary {op : BinaryOp} {lhs rhs : Operand} {a b c : Word} : Knows e lhs a → Knows e rhs b →
    a.binary? op b = some c → Computes e (.binary op lhs rhs) c
  | cast {t : LocalType} {x : Operand} {a c : Word} : Knows e x a → a.cast? t = some c →
    Computes e (.cast t x) c

theorem Knows.width?_eq {x : Operand} (he : e.All Typed) (h : Knows e x a) : x.width? = some a.width := by
  obtain ⟨v, hv, ha⟩ := h
  rcases operand_known hv ha with ⟨y, rfl, hy⟩ | ⟨k, rfl, rfl⟩ | ⟨k, rfl, rfl⟩
  · obtain ⟨hint, hwidth⟩ := he y v hy
    rw [Operand.width?, if_pos hint, hwidth a ha]
  · rfl
  · rfl

/-- Where widths fit, a known value is the word that is computed from known operands. -/
theorem computes_of_evaluate (he : e.All Typed) {value : Expr} (hv : evaluate e value = .ok v)
    (hc : v.word? = some c) (hw : value.width? = some w) : Computes e value c ∧ c.width = w := by
  cases value with
  | operand x =>
    have hx : Knows e x c := ⟨v, hv, hc⟩
    exact ⟨.operand hx, Option.some.inj ((hx.width?_eq he).symm.trans hw)⟩
  | neg x =>
    obtain ⟨u, hu, hv⟩ := bind_eq_ok.1 hv
    rw [← pure_eq_ok.1 hv] at hc
    obtain ⟨a, ha⟩ := exists_word?_of_negate hc
    have hx : Knows e x a := ⟨u, hu, ha⟩
    obtain rfl := ConstValue.eq_of_word? hc (admits_negate (ConstValue.admits_of_word? ha))
    exact ⟨.neg hx, Option.some.inj ((hx.width?_eq he).symm.trans hw)⟩
  | binary op lhs rhs =>
    obtain ⟨ul, hul, hv⟩ := bind_eq_ok.1 hv
    obtain ⟨ur, hur, hv⟩ := bind_eq_ok.1 hv
    rw [← pure_eq_ok.1 hv] at hc
    obtain ⟨a, b, ha, hb⟩ := exists_word?_of_foldBinary hc
    have hl : Knows e lhs a := ⟨ul, hul, ha⟩
    have hr : Knows e rhs b := ⟨ur, hur, hb⟩
    rw [Expr.width?, hl.width?_eq he, hr.width?_eq he] at hw
    obtain ⟨hbin, hwidth⟩ := binary?_of_foldBinary ha hb hw hc
    exact ⟨.binary hl hr hbin, hwidth⟩
  | cast t x =>
    obtain ⟨u, hu, hv⟩ := bind_eq_ok.1 hv
    rw [← pure_eq_ok.1 hv] at hc
    obtain ⟨ht, a, ha⟩ := exists_word?_of_cast hc
    have hx : Knows e x a := ⟨u, hu, ha⟩
    obtain ⟨z, hz⟩ := Word.exists_cast? ht a
    obtain rfl := ConstValue.eq_of_word? hc (admits_cast (ConstValue.admits_of_word? ha) hz)
    rw [Expr.width?, if_pos ht, hx.width?_eq he] at hw
    exact ⟨.cast hx hz, Option.some.inj hw⟩
  | _ => cases hw

variable {g : Flowgraph}

/-- A known value that is assigned in a program whose computed words fit is computed from known operands
and has the width of the local. -/
theorem computes_of_assign (hwidths : g.ComputesConsistently) (he : e.All Typed) {id : Nat} {x : Local}
    {value : Expr} (hs : ⟨id, .assign (.var x) value⟩ ∈ g.sites) (hx : x.type.isIntegral = true)
    (hv : evaluate e value = .ok v) (hc : v.word? = some c) :
    Computes e value c ∧ c.width = x.type.bitWidth := by
  have hlocals : ∀ y ∈ e.locals, y.type.isIntegral = true := by
    intro y hy
    obtain ⟨u, hu⟩ := Env.mem_locals_iff.1 hy
    exact (he y u hu).1
  have hint := isIntegral_of_evaluate hlocals hv hc
  have hw : value.width? = some x.type.bitWidth := by
    rcases hwidths _ hs hint hx with hw | hfree
    · exact hw
    · cases value with
      | operand _ | neg _ | binary _ _ _ | cast _ _ => simp [Expr.isOpaque, Expr.isLength] at hfree
      | _ => cases hint
  exact computes_of_evaluate he hv hc hw

theorem transfer_typed (hwidths : g.ComputesConsistently) {s : Site} (hs : s ∈ g.sites)
    {e e' : Env ConstValue} (he : e.All Typed) (h : transfer s e = .ok e') : e'.All Typed := by
  obtain ⟨id, i⟩ := s
  cases i with
  | assign target value =>
    cases target with
    | var x =>
      rw [transfer_assign] at h
      rcases Env.assign_eq_ok h with ⟨-, v, hv, rfl⟩ | ⟨-, rfl⟩
      · apply Env.all_write_of_all he
        rintro old ⟨hint, -⟩
        exact ⟨hint, fun c hc => (computes_of_assign hwidths he hs hint hv hc).2⟩
      · exact he
    | _ =>
      cases h
      exact he
  | bind x origin =>
    cases h
    apply Env.all_write_of_all he
    rintro old ⟨hint, -⟩
    exact ⟨hint, fun a ha => by cases ha⟩
  | _ =>
    cases h
    exact he

/-- At every moment of a run, known values have the widths of their locals. -/
theorem keeps_typed (hwidths : g.ComputesConsistently) : analysis.Keeps g Typed where
  bottom hx := ⟨hx, fun a ha => by cases ha⟩
  fresh {x} hx := by
    refine ⟨hx, fun a ha => ?_⟩
    obtain ⟨name, type⟩ := x
    cases type with
    | float | double | reference => cases hx
    | _ =>
      cases ha
      rfl
  join {x v w u} hv hw hj := by
    cases hj
    refine ⟨hv.1, fun a ha => ?_⟩
    rcases ConstValue.word?_union ha with ha | ha
    · exact hv.2 a ha
    · exact hw.2 a ha
  transfer hs he h := transfer_typed hwidths hs he h

end ConstantFolding

namespace ConstantBits

open ConstantFolding (Typed Knows Computes)

/-- What is read from a folded value of a local. -/
def reading (x : Local) (v : ConstValue) : BitPattern := v.pattern x.type.bitWidth

variable {e e' : Env BitPattern} {f f' : Env ConstValue} {c : Word} {g : Flowgraph}

/-- Where folding knows the word of an operand, so do the bits. -/
theorem operand_of_knows (he : e.All fun _ => BitPattern.Reached) (hf : f.All Typed)
    (h : e.Below (f.mapValues reading)) {x : Operand} {a : Word} (hx : Knows f x a) :
    operand e x = .ok (.ofBitVec a.value) := by
  obtain ⟨v, hv, ha⟩ := hx
  rcases ConstantFolding.operand_known hv ha with ⟨y, rfl, hy⟩ | ⟨k, rfl, rfl⟩ | ⟨k, rfl, rfl⟩
  · have hread : (f.mapValues reading).get? y = some (reading y v) := by
      rw [Env.get?_mapValues, hy]
      rfl
    obtain ⟨p, hp⟩ := Env.exists_get?_of_locals_eq h.locals_eq.symm hread
    have hpattern : reading y v = .ofBitVec a.value := by
      rw [reading, ← (hf y v hy).2 a ha]
      exact ConstValue.pattern_of_word? ha
    have hle := BitPattern.below_iff.1 (h.get? hp hread)
    rw [hpattern] at hle
    rw [operand, hp, ← BitPattern.eq_ofBitVec_of_le hle (he y p hp)]
    rfl
  · rfl
  · rfl

/-- The pattern of an expression is that of the word computed from known operands. -/
theorem evaluate_of_computes (hops : ∀ {x : Operand} {a : Word}, Knows f x a →
    operand e x = .ok (.ofBitVec a.value)) {value : Expr} (h : Computes f value c) (w : Nat) :
    evaluate e w value = .ok (.ofBitVec c.value) := by
  have hwidth : ∀ {x : Operand} {a : Word}, Knows f x a → a.width = 32 ∨ a.width = 64 :=
    fun ⟨_, _, ha⟩ => ConstValue.width_of_word? ha
  cases h with
  | operand hx => exact hops hx
  | neg hx =>
    rw [evaluate, hops hx]
    exact congrArg Except.ok (BitPattern.neg_ofBitVec _)
  | binary hl hr hc =>
    rw [evaluate, hops hl, hops hr]
    exact congrArg Except.ok (BitPattern.binary_ofBitVec (hwidth hl) (hwidth hr) hc)
  | cast hx hc =>
    rw [evaluate, hops hx]
    exact congrArg Except.ok (BitPattern.cast_ofBitVec hc)

theorem le_reading_top {x : Local} {p : BitPattern} (hp : p.width = x.type.bitWidth) :
    p.Le (reading x .top) := by
  have h := BitPattern.le_top p
  rwa [hp] at h

/-- What is assigned is below what is read from the folded value. -/
theorem assigned_le (hwidths : g.ComputesConsistently) (he : e.All fun _ => BitPattern.Reached)
    (hf : f.All fun _ v => v ≠ .bottom) (htyped : f.All Typed) (h : e.Below (f.mapValues reading)) {id : Nat}
    {x : Local} {value : Expr} (hs : ⟨id, .assign (.var x) value⟩ ∈ g.sites)
    (hx : x.type.isIntegral = true) {p : BitPattern} (hp : assigned x value e = .ok p) {v : ConstValue}
    (hv : ConstantFolding.evaluate f value = .ok v) : p.Le (reading x v) := by
  obtain ⟨r, hr, hp⟩ := bind_eq_ok.1 hp
  have hpw : p.width = x.type.bitWidth := by
    rw [← pure_eq_ok.1 hp]
    exact BitPattern.width_resize _ _ _
  have hne := ConstantFolding.evaluate_ne_bottom hf hv
  cases hc : v.word? with
  | none =>
    cases v with
    | bottom => exact absurd rfl hne
    | top => exact le_reading_top hpw
    | int _ | long _ => cases hc
  | some c =>
    obtain ⟨hcomp, hwidth⟩ := ConstantFolding.computes_of_assign hwidths htyped hs hx hv hc
    have hr' := evaluate_of_computes (operand_of_knows he htyped h) hcomp x.type.bitWidth
    rw [hr, Except.ok.injEq] at hr'
    have hself : r.zeroExtend x.type.bitWidth = r := by
      rw [hr', ← hwidth]
      have hres := BitPattern.resize_self (p := .ofBitVec c.value) .zero
      rwa [BitPattern.width_ofBitVec] at hres
    rw [← pure_eq_ok.1 hp, hself, hr', reading, ← hwidth, ConstValue.pattern_of_word? hc]
    exact BitPattern.le_refl _

theorem transfer_below (hwidths : g.ComputesConsistently) {s : Site} (hs : s ∈ g.sites)
    (he : e.All fun _ => BitPattern.Reached) (hf : f.All fun _ v => v ≠ .bottom) (htyped : f.All Typed)
    (h : e.Below (f.mapValues reading)) (hfine : transfer s e = .ok e')
    (hcoarse : ConstantFolding.transfer s f = .ok f') : e'.Below (f'.mapValues reading) := by
  obtain ⟨id, i⟩ := s
  have hlocals : e.locals = f.locals := h.locals_eq.trans (Env.locals_mapValues f _)
  cases i with
  | assign target value =>
    cases target with
    | var x =>
      have hmem : e.contains x = true ↔ f.contains x = true := by
        rw [← Env.mem_locals, ← Env.mem_locals, hlocals]
      rw [transfer_assign] at hfine
      rw [ConstantFolding.transfer_assign] at hcoarse
      rcases Env.assign_eq_ok hfine with ⟨hx, p, hp, rfl⟩ | ⟨hx, rfl⟩
      · rcases Env.assign_eq_ok hcoarse with ⟨hx', v, hv, rfl⟩ | ⟨hx', -⟩
        · obtain ⟨u, hu⟩ := Env.mem_locals_iff.1 (Env.mem_locals.2 hx')
          rw [Env.mapValues_write]
          exact Env.below_write h (BitPattern.below_iff.2
            (assigned_le hwidths he hf htyped h hs (htyped x u hu).1 hp hv))
        · rw [hmem.1 hx] at hx'
          cases hx'
      · rcases Env.assign_eq_ok hcoarse with ⟨hx', -⟩ | ⟨-, rfl⟩
        · rw [hmem.2 hx'] at hx
          cases hx
        · exact h
    | _ =>
      cases hfine
      cases hcoarse
      exact h
  | bind x origin =>
    cases hfine
    cases hcoarse
    rw [Env.mapValues_write]
    exact Env.below_write h (BitPattern.below_iff.2 (le_reading_top (BitPattern.width_filled _ _)))
  | lookupSwitch _ | tableSwitch _ => cases hfine
  | _ =>
    cases hfine
    cases hcoarse
    exact h

/-- In a program whose computed words fit, the bits know all that folding knows. -/
theorem refines (hwidths : g.ComputesConsistently) :
    analysis.Refines lawful ConstantFolding.analysis ConstantFolding.lawful g Typed reading where
  direction_eq := rfl
  tracks_eq := rfl
  keeps := ConstantFolding.keeps_typed hwidths
  mono h := BitPattern.below_iff.2 (ConstValue.pattern_mono h)
  bottom := BitPattern.below_iff.2 (ConstValue.bottom_le_pattern _ _)
  fresh {x} hx := by
    have hzero : BitPattern.zero x.type.bitWidth = reading x (.zero x.type) := by
      rw [reading, ConstValue.pattern_zero]
      exact BitPattern.zero_eq_constant _
    apply BitPattern.below_iff.2
    exact hzero ▸ BitPattern.le_refl _
  transfer hs he hf htyped h := transfer_below hwidths hs he.above hf.above htyped h

/-- In a program whose computed words fit, wherever constant folding ends with a known value for a local
at the end of a block, constant bits end with the pattern of that value, whatever the orders of the two
runs. -/
theorem folded_constants_known (hg : g.Built) (hwidths : g.ComputesConsistently) {q q' : Worklist}
    (hq : q.Fresh) (hq' : q'.Fresh) {h : History ConstValue}
    (hfold : ConstantFolding.analysis.runFrom g q = .ok h) {h' : History BitPattern}
    (hbits : analysis.runFrom g q' = .ok h') :
    ∃ last last', h.last? = some last ∧ h'.last? = some last' ∧ ∀ b, g.Leads g.entry b →
      ∃ s s', last.states[b]? = some s ∧ last'.states[b]? = some s' ∧
        ∀ x ∈ g.locals, x.type.isIntegral = true → ∃ v p, s.output.get? x = some v ∧
          s'.output.get? x = some p ∧ (∀ k, v = .int k → p = .constant k.toInt x.type.bitWidth) ∧
          ∀ k, v = .long k → p = .constant k.toInt x.type.bitWidth := by
  have hp := Problem.create_forward (a := analysis) hg rfl
  have hp' := Problem.create_forward (a := ConstantFolding.analysis) hg rfl
  obtain ⟨last', last, hlast', hlast, hsol', hsol, hbelow⟩ :=
    (refines hwidths).final_below hg hp hq' hq hbits hfold
  refine ⟨last, last', hlast, hlast', fun b hb => ?_⟩
  have hsound := Problem.sound_of_create hg hp
  have hreach' : Problem.Reachable ⟨analysis, g, g.entry⟩ b := (Problem.reachable_forward_iff rfl).2 hb
  have hreach : Problem.Reachable ⟨ConstantFolding.analysis, g, g.entry⟩ b :=
    (Problem.reachable_forward_iff rfl).2 hb
  obtain ⟨s', hs'⟩ := hsol'.exists_state (hsound.reachable_lt hreach')
  obtain ⟨s, hs⟩ := hsol.exists_state (hsound.reachable_lt hreach')
  refine ⟨s, s', hs, hs', fun x hx hint => ?_⟩
  obtain ⟨v, hv, -⟩ := ConstantFolding.lawful.exists_value hg hp' hsol hreach hs hx hint
  obtain ⟨p, hp, hreached⟩ := lawful.exists_value hg hp hsol' hreach' hs' hx hint
  obtain ⟨-, hle⟩ := hbelow b s' s hreach' hs' hs
  have hread : (s.output.mapValues reading).get? x = some (reading x v) := by
    rw [Env.get?_mapValues, hv]
    rfl
  have hle := BitPattern.below_iff.1 (hle.get? hp hread)
  have hknown : ∀ k : Int, reading x v = .constant k x.type.bitWidth →
      p = .constant k x.type.bitWidth := by
    intro k hk
    rw [hk] at hle
    exact BitPattern.eq_ofBitVec_of_le hle hreached
  exact ⟨v, p, hv, hp, fun k hk => hknown _ (hk ▸ rfl), fun k hk => hknown _ (hk ▸ rfl)⟩

/-- `y = 3` -/
def setThree : Instruction := .assign (.var ⟨"y", .int⟩) (.operand (.literal (.int 3)))

/-- `x = y * y` -/
def square : Instruction :=
  .assign (.var ⟨"x", .int⟩) (.binary .mul (.read ⟨"y", .int⟩) (.read ⟨"y", .int⟩))

/-- A program that sets a local and then squares it in a loop. -/
def squaring : Flowgraph where
  graph := ⟨[⟨0, [setThree], false⟩, ⟨1, [square], false⟩, ⟨2, [.ret none], false⟩],
    [(0, 1), (1, 1), (1, 2)]⟩
  entry := 0
  exit := some 2
  locals := .ofList (setThree.locals ++ square.locals)

theorem squaring_built : squaring.Built := by
  have hblocks := ((Draft.Made.empty.addBlock [setThree]).addBlock [square]).addBlock [.ret none]
  have hfirst := @Draft.Made.addEdge _ _ 0 1 hblocks rfl
  have hloop := @Draft.Made.addEdge _ _ 1 1 hfirst rfl
  have hlast := @Draft.Made.addEdge _ _ 1 2 hloop rfl
  exact ⟨_, hlast, rfl⟩

theorem computesConsistently_squaring : squaring.ComputesConsistently := by
  have hsites : squaring.sites = [⟨0, setThree⟩, ⟨1, square⟩, ⟨2, .ret none⟩] := rfl
  simp only [Flowgraph.ComputesConsistently, hsites, List.forall_mem_cons]
  exact ⟨fun _ _ => .inl rfl, fun _ _ => .inl rfl, fun _ => trivial, by simp⟩

/-- Both analyses, in different orders, find the square in the loop. -/
theorem folded_constants_known_squaring :
    ∃ h h' last last' s s', ConstantFolding.analysis.run squaring ⟨.naive, none⟩ = .ok h ∧
      analysis.run squaring ⟨.random, some 7⟩ = .ok h' ∧ h.last? = some last ∧ h'.last? = some last' ∧
      last.states[1]? = some s ∧ last'.states[1]? = some s' ∧
      s.output.get? ⟨"x", .int⟩ = some (.int 9) ∧ s'.output.get? ⟨"x", .int⟩ = some (.constant 9 32) := by
  obtain ⟨h, hfold, hnine⟩ : ∃ h, ConstantFolding.analysis.run squaring ⟨.naive, none⟩ = .ok h ∧
      (h.last?.bind fun last => last.states[1]?.bind fun s => s.output.get? ⟨"x", .int⟩) = some (.int 9) :=
    ⟨_, rfl, rfl⟩
  obtain ⟨h', hbits⟩ : ∃ h', analysis.run squaring ⟨.random, some 7⟩ = .ok h' := ⟨_, rfl⟩
  have hfresh := Config.worklist_fresh ⟨.naive, none⟩
  have hfresh' := Config.worklist_fresh ⟨.random, some 7⟩
  obtain ⟨last, last', hlast, hlast', hstates⟩ :=
    folded_constants_known squaring_built computesConsistently_squaring hfresh hfresh' hfold hbits
  have hloop : squaring.Leads squaring.entry 1 := ⟨[0, 1], .cons (by decide) (.single 1)⟩
  obtain ⟨s, s', hs, hs', hvalues⟩ := hstates 1 hloop
  obtain ⟨v, p, hv, hp, hint, -⟩ := hvalues ⟨"x", .int⟩ (by decide) rfl
  rw [hlast, Option.bind_some, hs, Option.bind_some, hv, Option.some.injEq] at hnine
  refine ⟨h, h', last, last', s, s', hfold, hbits, hlast, hlast', hs, hs', hnine ▸ hv, ?_⟩
  rw [hp, hint 9 hnine]
  rfl

end ConstantBits

end FlowHistory
