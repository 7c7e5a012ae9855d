import FlowHistory.Proofs.Simulation

/-!
# Folded constants are the words of every execution

A folded value is unknown or is the word that the execution computes. That each transfer keeps this is
a matter of the operators: words of one width fold as they are computed, and the fold of a narrow word
with a wide one, which takes both as wide, agrees with the computation where there is one.
-/
namespace FlowHistory

/-- Nothing is known of the word, or the word is the constant. -/
def ConstValue.Admits : ConstValue → Word → Prop
  | .bottom, _ => False
  | .top, _ => True
  | .int v, a => a = ⟨32, v⟩
  | .long v, a => a = ⟨64, v⟩

theorem ConstValue.Admits.ne_bottom {v : ConstValue} {a : Word} (h : v.Admits a) : v ≠ .bottom := by
  rintro rfl
  exact h

/-- The word of a known value. -/
def ConstValue.word? : ConstValue → Option Word
  | .int v => some ⟨32, v⟩
  | .long v => some ⟨64, v⟩
  | .bottom | .top => none

/-- The low bits that count for the distance of a wide shift are those of the narrow word. -/
theorem toNat_signExtend_mod (y : BitVec 32) : (y.signExtend 64).toNat % 64 = y.toNat % 64 := by
  rw [BitVec.toNat_signExtend, BitVec.toNat_setWidth]
  split <;> omega

namespace ConstantFolding

variable {op : BinaryOp} {a b c : Word}

/-- The fold of two words of one width is what is computed from them. -/
theorem admits_foldWords {w : Nat} (lift : BitVec w → ConstValue) (hlift : ∀ v, (lift v).Admits ⟨w, v⟩)
    {x y : BitVec w} (h : Word.binary? op ⟨w, x⟩ ⟨w, y⟩ = some c) :
    (foldWords lift op x y).Admits c := by
  by_cases hop : (op.isRelational || op.isThreeWay) = true
  · rw [Word.binary?_comparison hop, Option.some.injEq] at h
    rw [foldWords, if_pos hop, ← h]
    rfl
  · rw [foldWords, if_neg hop]
    cases op with
    | add | sub | mul | and | or | xor =>
      simp only [Word.binary?, Word.alike?_of_width_eq, Option.map_some, Option.some.injEq] at h
      rw [← h]
      exact hlift _
    | div | rem =>
      simp only [Word.binary?, Word.alike?_of_width_eq, Option.map_eq_some_iff,
        Option.ite_none_left_eq_some, Option.some.injEq] at h
      obtain ⟨z, ⟨hy, rfl⟩, rfl⟩ := h
      simp only [arithmetic?, if_neg hy]
      exact hlift _
    | shl | shr | ushr =>
      simp only [Word.binary?] at h
      rw [Word.shifted?_eq_some h]
      exact hlift _
    | _ => exact absurd rfl hop

/-- Of a narrow and a wide word only comparisons are computed. -/
theorem admits_foldWords_narrow {x : BitVec 32} {y : BitVec 64}
    (h : Word.binary? op ⟨32, x⟩ ⟨64, y⟩ = some c) :
    (foldWords .long op (x.signExtend 64) y).Admits c := by
  by_cases hop : (op.isRelational || op.isThreeWay) = true
  · rw [Word.binary?_comparison hop, Option.some.injEq] at h
    rw [foldWords, if_pos hop, BitVec.toInt_signExtend_of_le (by omega), ← h]
    rfl
  · cases op with
    | cmp | cmpl | cmpg | eq | ne | lt | le | gt | ge => exact absurd rfl hop
    | _ => simp [Word.binary?, Word.alike?, Word.shifted?] at h

/-- Of a wide and a narrow word, shifts are computed as well. -/
theorem admits_foldWords_wide {x : BitVec 64} {y : BitVec 32}
    (h : Word.binary? op ⟨64, x⟩ ⟨32, y⟩ = some c) :
    (foldWords .long op x (y.signExtend 64)).Admits c := by
  by_cases hop : (op.isRelational || op.isThreeWay) = true
  · rw [Word.binary?_comparison hop, Option.some.injEq] at h
    rw [foldWords, if_pos hop, BitVec.toInt_signExtend_of_le (by omega), ← h]
    rfl
  · rw [foldWords, if_neg hop]
    cases op with
    | shl | shr | ushr =>
      simp only [Word.binary?] at h
      rw [Word.shifted?_eq_some h]
      simp only [arithmetic?, toNat_signExtend_mod]
      rfl
    | cmp | cmpl | cmpg | eq | ne | lt | le | gt | ge => exact absurd rfl hop
    | _ => simp [Word.binary?, Word.alike?] at h

theorem admits_foldBinary {v w : ConstValue} (hv : v.Admits a) (hw : w.Admits b)
    (h : a.binary? op b = some c) : (foldBinary op v w).Admits c := by
  cases v with
  | bottom => exact hv.elim
  | top =>
    cases w with
    | bottom => exact hw.elim
    | _ => trivial
  | int x =>
    cases w with
    | bottom => exact hw.elim
    | top => trivial
    | int y =>
      cases hv
      cases hw
      exact admits_foldWords .int (fun _ => rfl) h
    | long y =>
      cases hv
      cases hw
      exact admits_foldWords_narrow h
  | long x =>
    cases w with
    | bottom => exact hw.elim
    | top => trivial
    | int y =>
      cases hv
      cases hw
      exact admits_foldWords_wide h
    | long y =>
      cases hv
      cases hw
      exact admits_foldWords .long (fun _ => rfl) h

theorem admits_negate {v : ConstValue} (hv : v.Admits a) : (negate v).Admits a.neg := by
  cases v with
  | bottom => exact hv
  | top => trivial
  | int x | long x =>
    cases hv
    rfl

/-- A narrow word is widened before it is converted, which leaves its low bits as they are. -/
theorem admits_cast {t : LocalType} {v : ConstValue} (hv : v.Admits a) (h : a.cast? t = some c) :
    (cast t v).Admits c := by
  cases v with
  | bottom => exact hv.elim
  | top => trivial
  | int x =>
    have hlow : ∀ k, k ≤ 32 → (x.signExtend 64).setWidth k = x.setWidth k := by
      intro k hk
      refine BitVec.eq_of_getLsbD_eq fun i hi => ?_
      rw [BitVec.getLsbD_setWidth, BitVec.getLsbD_setWidth, BitVec.getLsbD_signExtend]
      simp [show i < 64 by omega, show i < 32 by omega]
    cases hv
    cases t with
    | float | double | reference => cases h
    | long => cases h; rfl
    | _ =>
      cases h
      simp only [cast, castWord, hlow _ (Nat.le_refl 32), hlow 8 (by omega), hlow 16 (by omega)]
      rfl
  | long x =>
    cases hv
    cases t with
    | float | double | reference => cases h
    | long =>
      cases h
      simp [cast, castWord, ConstValue.Admits]
    | _ => cases h; rfl

/-- The value of every tracked local is unknown or its word. -/
def Follows (e : Env ConstValue) (σ : Store) : Prop :=
  e.All fun x v => v.Admits ⟨x.type.bitWidth, σ x⟩

variable {e e' : Env ConstValue} {σ τ : Store}

theorem Follows.operand (he : Follows e σ) {x : Operand} {v : ConstValue}
    (hv : ConstantFolding.operand e x = .ok v) (ha : x.word? σ = some a) : v.Admits a := by
  cases x with
  | read x =>
    cases hv
    simp only [Operand.word?] at ha
    split at ha
    · cases ha
      cases hv : e.get? x with
      | none => trivial
      | some v => exact he x v hv
    · cases ha
  | literal c =>
    cases c with
    | int v => cases hv; cases ha; rfl
    | long v => cases hv; cases ha; rfl
    | _ => cases ha

theorem Follows.evaluate (he : Follows e σ) {value : Expr} {v : ConstValue}
    (hv : ConstantFolding.evaluate e value = .ok v) (ha : value.word? σ = some a) : v.Admits a := by
  cases value with
  | operand x => exact he.operand hv ha
  | binary op lhs rhs =>
    obtain ⟨vl, hvl, hv⟩ := bind_eq_ok.1 hv
    obtain ⟨vr, hvr, hv⟩ := bind_eq_ok.1 hv
    obtain ⟨l, hl, ha⟩ := Option.bind_eq_some_iff.1 ha
    obtain ⟨r, hr, ha⟩ := Option.bind_eq_some_iff.1 ha
    rw [← pure_eq_ok.1 hv]
    exact admits_foldBinary (he.operand hvl hl) (he.operand hvr hr) ha
  | neg x =>
    obtain ⟨vx, hvx, hv⟩ := bind_eq_ok.1 hv
    obtain ⟨w, hw, rfl⟩ := Option.map_eq_some_iff.1 ha
    rw [← pure_eq_ok.1 hv]
    exact admits_negate (he.operand hvx hw)
  | cast t x =>
    obtain ⟨vx, hvx, hv⟩ := bind_eq_ok.1 hv
    obtain ⟨w, hw, ha⟩ := Option.bind_eq_some_iff.1 ha
    rw [← pure_eq_ok.1 hv]
    exact admits_cast (he.operand hvx hw) ha
  | _ => cases ha

theorem Follows.ne_bottom (he : Follows e σ) : e.All fun _ v => v ≠ .bottom :=
  fun x v hv => (he x v hv).ne_bottom

/-! A value is known only if it is computed from known ones. -/

theorem exists_word?_of_foldBinary {u v : ConstValue} (h : (foldBinary op u v).word? = some c) :
    ∃ a b, u.word? = some a ∧ v.word? = some b := by
  cases u with
  | bottom => cases h
  | top => cases v <;> cases h
  | int _ | long _ =>
    cases v with
    | bottom | top => cases h
    | int _ | long _ => exact ⟨_, _, rfl, rfl⟩

theorem exists_word?_of_negate {v : ConstValue} (h : (negate v).word? = some c) :
    ∃ a, v.word? = some a := by
  cases v with
  | bottom | top => cases h
  | int _ | long _ => exact ⟨_, rfl⟩

theorem exists_word?_of_cast {t : LocalType} {v : ConstValue} (h : (cast t v).word? = some c) :
    t.isIntegral = true ∧ ∃ a, v.word? = some a := by
  cases v with
  | bottom | top => cases h
  | int _ | long _ =>
    refine ⟨?_, _, rfl⟩
    cases t with
    | float | double | reference => cases h
    | _ => rfl

theorem operand_known {x : Operand} {v : ConstValue} (hv : operand e x = .ok v) (ha : v.word? = some a) :
    (∃ y, x = .read y ∧ e.get? y = some v) ∨ (∃ k, x = .literal (.int k) ∧ a = ⟨32, k⟩) ∨
      ∃ k, x = .literal (.long k) ∧ a = ⟨64, k⟩ := by
  cases x with
  | read y =>
    cases hv
    cases hy : e.get? y with
    | none =>
      rw [hy] at ha
      cases ha
    | some u => exact .inl ⟨y, rfl, hy⟩
  | literal k =>
    cases k with
    | int k =>
      cases hv
      cases ha
      exact .inr (.inl ⟨k, rfl, rfl⟩)
    | long k =>
      cases hv
      cases ha
      exact .inr (.inr ⟨k, rfl, rfl⟩)
    | float _ | double _ =>
      cases hv
      cases ha
    | _ => cases hv

theorem isIntegral_of_operand (hint : ∀ x ∈ e.locals, x.type.isIntegral = true) {x : Operand}
    {v : ConstValue} (hv : operand e x = .ok v) (ha : v.word? = some a) : x.isIntegral = true := by
  rcases operand_known hv ha with ⟨y, rfl, hy⟩ | ⟨k, rfl, -⟩ | ⟨k, rfl, -⟩
  · simp [Operand.isIntegral, Operand.width?, hint y (Env.mem_locals_iff.2 ⟨v, hy⟩)]
  · rfl
  · rfl

/-- Only what is computed from words alone is ever known. -/
theorem isIntegral_of_evaluate (hint : ∀ x ∈ e.locals, x.type.isIntegral = true) {value : Expr}
    {v : ConstValue} (hv : ConstantFolding.evaluate e value = .ok v) (hc : v.word? = some c) :
    value.isIntegral = true := by
  cases value with
  | operand x => exact isIntegral_of_operand hint hv hc
  | neg x =>
    obtain ⟨u, hu, hv⟩ := bind_eq_ok.1 hv
    rw [← pure_eq_ok.1 hv] at hc
    obtain ⟨a, ha⟩ := exists_word?_of_negate hc
    exact isIntegral_of_operand hint hu ha
  | binary op lhs rhs =>
    obtain ⟨ul, hul, hv⟩ := bind_eq_ok.1 hv
    obtain ⟨ur, hur, hv⟩ := bind_eq_ok.1 hv
    rw [← pure_eq_ok.1 hv] at hc
    obtain ⟨a, b, ha, hb⟩ := exists_word?_of_foldBinary hc
    rw [Expr.isIntegral, isIntegral_of_operand hint hul ha, isIntegral_of_operand hint hur hb]
    rfl
  | cast t x =>
    obtain ⟨u, hu, hv⟩ := bind_eq_ok.1 hv
    rw [← pure_eq_ok.1 hv] at hc
    obtain ⟨ht, a, ha⟩ := exists_word?_of_cast hc
    rw [Expr.isIntegral, ht, isIntegral_of_operand hint hu ha]
    rfl
  | _ =>
    rw [← pure_eq_ok.1 hv] at hc
    cases hc

theorem Follows.evaluate_eq_top (he : Follows e σ) (hint : ∀ x ∈ e.locals, x.type.isIntegral = true)
    {value : Expr} {v : ConstValue} (hvalue : value.isIntegral = false)
    (hv : ConstantFolding.evaluate e value = .ok v) : v = .top := by
  cases v with
  | bottom => exact absurd rfl (evaluate_ne_bottom he.ne_bottom hv)
  | top => rfl
  | int _ | long _ =>
    have hint := isIntegral_of_evaluate hint hv rfl
    rw [hvalue] at hint
    cases hint

theorem Follows.put (he : Follows e σ) {x : Local} {v : ConstValue} {b : BitVec x.type.bitWidth}
    (hv : v.Admits ⟨x.type.bitWidth, b⟩) : Follows (e.write x v) (σ.put x b) :=
  Env.all_write_put (D := fun x (v : ConstValue) b => v.Admits ⟨x.type.bitWidth, b⟩) he hv

theorem Follows.assign (he : Follows e σ) {x : Local} {value : Expr} {b : BitVec x.type.bitWidth}
    (hv : ∀ v, ConstantFolding.evaluate e value = .ok v → v.Admits ⟨x.type.bitWidth, b⟩)
    (h : e.assign x (ConstantFolding.evaluate · value) = .ok e') : Follows e' (σ.put x b) :=
  Env.all_assign_put (D := fun x (v : ConstValue) b => v.Admits ⟨x.type.bitWidth, b⟩) he hv h

theorem transfer_assign (id : Nat) (x : Local) (value : Expr) (e : Env ConstValue) :
    transfer ⟨id, .assign (.var x) value⟩ e = e.assign x (ConstantFolding.evaluate · value) := rfl

/-- An instruction that defines no integral local changes nothing of what is tracked. -/
theorem Follows.skip (he : Follows e σ) (hint : ∀ x ∈ e.locals, x.type.isIntegral = true) {s : Site}
    (hskip : ∀ x, s.instruction.defined? = some x → x.type.isIntegral = false)
    (h : ConstantFolding.transfer s e = .ok e') : Follows e' σ := by
  obtain ⟨id, i⟩ := s
  cases i with
  | assign target value =>
    cases target with
    | var x =>
      rw [transfer_assign] at h
      rcases Env.assign_eq_ok h with ⟨hx, -⟩ | ⟨-, rfl⟩
      · have hx' := hint x (Env.mem_locals.2 hx)
        rw [hskip x rfl] at hx'
        cases hx'
      · exact he
    | _ => cases h; exact he
  | bind x origin =>
    cases h
    exact Env.all_write he trivial
  | _ => cases h; exact he

/-- The transfer of an instruction follows its execution. -/
theorem Follows.transfer (he : Follows e σ) (hint : ∀ x ∈ e.locals, x.type.isIntegral = true) {s : Site}
    (h : ConstantFolding.transfer s e = .ok e') (hexec : s.instruction.Executes σ τ) : Follows e' τ := by
  obtain ⟨id, i⟩ := s
  -- a received word is admitted, since nothing is known of it
  have hreceive : ∀ {x : Local} {value : Expr} (b : BitVec x.type.bitWidth), value.isIntegral = false →
      e.assign x (ConstantFolding.evaluate · value) = .ok e' → Follows e' (σ.put x b) := by
    intro x value b hvalue hassign
    refine he.assign (fun v hv => ?_) hassign
    rw [he.evaluate_eq_top hint hvalue hv]
    trivial
  cases hexec with
  | receive b hvalue => exact hreceive b hvalue h
  | step hstep =>
    cases hstep with
    | compute _ hb => exact he.assign (fun v hv => he.evaluate hv hb) h
    | @receive _ x value b _ hvalue =>
      refine hreceive b ?_ h
      cases value with
      | operand _ | binary _ _ _ | neg _ | cast _ _ => simp [Expr.isOpaque, Expr.isLength] at hvalue
      | _ => rfl
    | bind b =>
      cases h
      exact he.put trivial
    | skip hskip => exact he.skip hint hskip h

theorem Follows.of_below (he : Follows e σ) (h : e.Below e') : Follows e' σ := by
  intro x w hw
  obtain ⟨v, hv⟩ := Env.exists_get?_of_locals_eq h.locals_eq.symm hw
  have hadmits := he x v hv
  rcases ConstValue.below_iff.1 (h.get? hv hw) with rfl | rfl | rfl
  · exact hadmits.elim
  · trivial
  · exact hadmits

/-- At the start every tracked local is known to be 0. -/
theorem follows_freshEnv (g : Flowgraph) (hσ : σ.IsZero) : Follows (analysis.freshEnv g) σ := by
  refine Env.all_ofFn fun x hx => ?_
  have hint : x.type.isIntegral = true := (LocalSet.mem_filter.1 hx).2
  rw [hσ x hint]
  obtain ⟨name, type⟩ := x
  cases type with
  | float | double | reference => cases hint
  | _ => rfl

variable {g : Flowgraph}

/-- Being unknown or the word of the store is kept along every execution. -/
theorem simulates (g : Flowgraph) :
    analysis.Simulates g Store.IsZero Instruction.Executes Follows where
  fresh hσ := follows_freshEnv g hσ
  up he h := he.of_below h
  transfer {s e e' σ τ} _ hlocals he h hexec := by
    refine he.transfer (fun x hx => ?_) h hexec
    rw [hlocals] at hx
    exact (LocalSet.mem_filter.1 hx).2

/-- In a program whose computed words fit, only a division or remainder by zero has no successor; and
along every path that is executed from the entry, the result of a completed run for the block where the
path ends has for each integral local either nothing known or exactly its word. -/
theorem final_states_admit (hg : g.Built) (hwidths : g.ComputesConsistently) {q : Worklist} (hq : q.Fresh)
    {h : History ConstValue} (hrun : analysis.runFrom g q = .ok h) :
    (∀ s ∈ g.sites, ∀ σ, (∃ τ, s.instruction.Executes σ τ) ↔
      ¬ (s.instruction.isComputed = true ∧ s.instruction.DividesByZero σ)) ∧
    ∃ last, h.last? = some last ∧ ∀ b σ, g.Executed Store.IsZero Instruction.Executes b σ →
      ∃ s, last.states[b]? = some s ∧ ∀ x ∈ g.locals, x.type.isIntegral = true →
        ∃ v, s.output.get? x = some v ∧ v.Admits ⟨x.type.bitWidth, σ x⟩ := by
  refine ⟨fun s hs σ => Instruction.executes_iff (hwidths s hs), ?_⟩
  obtain ⟨p, hp, -⟩ := bind_eq_ok.1 hrun
  obtain ⟨last, hlast, -, hsol, -⟩ := lawful.solution_of_run hg hp hq hrun
  refine ⟨last, hlast, fun b σ hexec => ?_⟩
  obtain ⟨hreach, s, hs, hfollows⟩ := (simulates g).follows lawful hg hp rfl hsol hexec
  refine ⟨s, hs, fun x hx hint => ?_⟩
  obtain ⟨v, hv, -⟩ := lawful.exists_value hg hp hsol hreach hs hx hint
  exact ⟨v, hv, hfollows x v hv⟩

theorem computesConsistently_doubling : doubling.ComputesConsistently := by
  simp only [Flowgraph.ComputesConsistently, sites_doubling, List.forall_mem_cons]
  exact ⟨fun _ _ => .inl rfl, fun _ _ => .inl rfl, fun _ => trivial, by simp⟩

/-- Before the loop, nothing is known of the local or it is 4. -/
theorem final_states_admit_doubling :
    ∃ h last s v, analysis.run doubling ⟨.random, some 7⟩ = .ok h ∧ h.last? = some last ∧
      last.states[0]? = some s ∧ s.output.get? ⟨"x", .int⟩ = some v ∧ v.Admits ⟨32, 4#32⟩ := by
  obtain ⟨h, hrun⟩ := AnalysisKind.exists_run_doubling .constantFolding ⟨.random, some 7⟩
  have hfresh := Config.worklist_fresh ⟨.random, some 7⟩
  obtain ⟨-, last, hlast, hadmit⟩ :=
    final_states_admit doubling_built computesConsistently_doubling hfresh hrun
  have hfour : setFour.Steps (fun _ => 0) (Store.put (fun _ => 0) ⟨"x", .int⟩ 4) :=
    .compute (by rfl) (by rfl)
  obtain ⟨s, hs, hvalues⟩ := hadmit 0 _ (.enter (fun _ _ => rfl) rfl (.cons (.step hfour) .nil))
  obtain ⟨v, hv, hadmits⟩ := hvalues ⟨"x", .int⟩ (by decide) rfl
  exact ⟨h, last, s, v, hrun, hlast, hs, hv, hadmits⟩

end ConstantFolding

end FlowHistory
