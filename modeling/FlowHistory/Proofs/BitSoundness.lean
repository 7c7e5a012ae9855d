import FlowHistory.Proofs.Simulation

/-!
# Constant bits describe every execution

Each transfer of the analysis follows the execution of its instruction: if the patterns before it
describe the store, those after it describe the next store. So describing the store is a simulation, and
the final states, which solve the equations along the flow, describe the store at the end of every path.
-/
namespace FlowHistory

namespace BitPattern

variable {p q : BitPattern}

theorem mask_eq_mod {w : Nat} (hw : w = 32 ∨ w = 64) (n : Nat) : n &&& (w - 1) = n % w := by
  rcases hw with rfl | rfl
  · exact Nat.and_two_pow_sub_one_eq_mod n 5
  · exact Nat.and_two_pow_sub_one_eq_mod n 6

/-- A shift is sound if it is for each known distance. -/
theorem Describes.shift {op : BinaryOp} {w v : Nat} {x : BitVec w} {y : BitVec v} {f : Nat → BitVec w}
    (hw : w = 32 ∨ w = 64) (hv : v = 32 ∨ v = 64) (hp : p.Describes x) (hq : q.Describes y)
    (hf : ∀ n, (shiftBy op p n).Describes (f n)) :
    (BitPattern.shift op p q).Describes (f (y.toNat % w)) := by
  simp only [BitPattern.shift]
  split
  · have hpos : 0 < p.width ∧ 0 < q.width := by
      rw [hp.width_eq, hq.width_eq]
      omega
    rw [unknown_eq_top _ hp.reached hq.reached hpos.1 hpos.2, hp.width_eq]
    exact describes_top _
  · rename_i raw hraw
    rw [hp.width_eq, mask_eq_mod hw, ← hq.toNat_eq hraw]
    exact hf _

variable {a b c : Word}

theorem Describes.related {op : BinaryOp} (hp : p.Describes a.value) (hq : q.Describes b.value)
    (h : op.isRelational = true) : (BitPattern.compare op p q).Describes (Word.related op a b).value := by
  rw [Word.related_eq h]
  exact hp.compare op hq

theorem Describes.ordered {op : BinaryOp} (hp : p.Describes a.value) (hq : q.Describes b.value)
    (h : op.isRelational = false) : (BitPattern.compare op p q).Describes (a.ordered b).value := by
  rw [Word.ordered_eq h]
  exact hp.compare op hq

/-- An operation on two words of one width, followed by patterns. -/
theorem Describes.alike {r : BitPattern} {f : ∀ {w : Nat}, BitVec w → BitVec w → Option (BitVec w)}
    (hp : p.Describes a.value) (hq : q.Describes b.value) (h : a.alike? b f = some c)
    (hr : ∀ {x y z : BitVec a.width}, p.Describes x → q.Describes y → f x y = some z → r.Describes z) :
    r.Describes c.value := by
  obtain ⟨w, x, y, z, rfl, rfl, hz, rfl⟩ := Word.alike?_eq_some h
  exact hr hp hq hz

/-- The result of an operation on patterns describes what the operation computes from the words that
its operands describe. -/
theorem Describes.binary {op : BinaryOp} (hwa : a.width = 32 ∨ a.width = 64)
    (hwb : b.width = 32 ∨ b.width = 64) (hp : p.Describes a.value) (hq : q.Describes b.value)
    (h : a.binary? op b = some c) : (BitPattern.binary op p q).Describes c.value := by
  have hpos : 0 < a.width := by omega
  cases op with
  | add =>
    simp only [Word.binary?] at h
    refine hp.alike hq h fun hx hy hz => ?_
    cases hz
    exact hx.add hy
  | sub =>
    simp only [Word.binary?] at h
    refine hp.alike hq h fun hx hy hz => ?_
    cases hz
    exact hx.sub hy
  | mul =>
    simp only [Word.binary?] at h
    refine hp.alike hq h fun hx hy hz => ?_
    cases hz
    exact hx.mul hy
  | div =>
    simp only [Word.binary?] at h
    refine hp.alike hq h fun hx hy hz => ?_
    obtain ⟨-, hz⟩ := Option.ite_none_left_eq_some.1 hz
    cases hz
    exact hx.div hpos hy
  | rem =>
    simp only [Word.binary?] at h
    refine hp.alike hq h fun hx hy hz => ?_
    obtain ⟨-, hz⟩ := Option.ite_none_left_eq_some.1 hz
    cases hz
    exact hx.rem hpos hy
  | and =>
    simp only [Word.binary?] at h
    refine hp.alike hq h fun hx hy hz => ?_
    cases hz
    exact hx.bitwise admits_and (fun i _ => BitVec.getLsbD_and) hy
  | or =>
    simp only [Word.binary?] at h
    refine hp.alike hq h fun hx hy hz => ?_
    cases hz
    exact hx.bitwise admits_or (fun i _ => BitVec.getLsbD_or) hy
  | xor =>
    simp only [Word.binary?] at h
    refine hp.alike hq h fun hx hy hz => ?_
    cases hz
    exact hx.bitwise admits_xor (fun i _ => BitVec.getLsbD_xor) hy
  | shl =>
    simp only [Word.binary?] at h
    rw [Word.shifted?_eq_some h]
    have hknown : ∀ n, (shiftBy .shl p n).Describes (a.value <<< n) := hp.shiftLeft
    exact hp.shift hwa hwb hq hknown
  | shr =>
    simp only [Word.binary?] at h
    rw [Word.shifted?_eq_some h]
    have hknown : ∀ n, (shiftBy .shr p n).Describes (a.value.sshiftRight n) := hp.sshiftRight
    exact hp.shift hwa hwb hq hknown
  | ushr =>
    simp only [Word.binary?] at h
    rw [Word.shifted?_eq_some h]
    have hknown : ∀ n, (shiftBy .ushr p n).Describes (a.value >>> n) := hp.ushiftRight
    exact hp.shift hwa hwb hq hknown
  | cmp | cmpl | cmpg =>
    cases h
    exact hp.ordered hq (by rfl)
  | eq | ne | lt | le | gt | ge =>
    cases h
    exact hp.related hq (by rfl)

theorem Describes.cast {t : LocalType} (hp : p.Describes a.value) (h : a.cast? t = some c) :
    (p.cast t).Describes c.value := by
  cases t with
  | long => cases h; exact hp.signExtend 64
  | int | boolean => cases h; exact hp.zeroExtend 32
  | byte => cases h; exact (hp.zeroExtend 8).signExtend 32
  | short => cases h; exact (hp.zeroExtend 16).signExtend 32
  | char => cases h; exact (hp.zeroExtend 16).zeroExtend 32
  | float | double | reference => cases h

end BitPattern

namespace ConstantBits

/-- The pattern of every tracked local describes its word. -/
def Follows (e : Env BitPattern) (σ : Store) : Prop := e.All fun x p => p.Describes (σ x)

variable {e e' : Env BitPattern} {σ τ : Store}

theorem Follows.operand (he : Follows e σ) {x : Operand} {p : BitPattern} {a : Word}
    (hp : ConstantBits.operand e x = .ok p) (ha : x.word? σ = some a) : p.Describes a.value := by
  cases x with
  | read x =>
    cases hp
    simp only [Operand.word?] at ha
    split at ha
    · cases ha
      cases hv : e.get? x with
      | none => exact BitPattern.describes_top (σ x)
      | some v => exact he x v hv
    · cases ha
  | literal c =>
    cases c with
    | int v => cases hp; cases ha; exact BitPattern.describes_ofBitVec v
    | long v => cases hp; cases ha; exact BitPattern.describes_ofBitVec v
    | _ => cases ha

/-- The pattern of an expression describes the word that it computes. -/
theorem Follows.evaluate (he : Follows e σ) {width : Nat} {value : Expr} {p : BitPattern} {a : Word}
    (hp : ConstantBits.evaluate e width value = .ok p) (ha : value.word? σ = some a) :
    p.Describes a.value := by
  cases value with
  | operand x => exact he.operand hp ha
  | binary op lhs rhs =>
    obtain ⟨pl, hpl, hp⟩ := bind_eq_ok.1 hp
    obtain ⟨pr, hpr, hp⟩ := bind_eq_ok.1 hp
    obtain ⟨l, hl, ha⟩ := Option.bind_eq_some_iff.1 ha
    obtain ⟨r, hr, ha⟩ := Option.bind_eq_some_iff.1 ha
    rw [← pure_eq_ok.1 hp]
    exact (he.operand hpl hl).binary (Operand.width_of_word? hl) (Operand.width_of_word? hr)
      (he.operand hpr hr) ha
  | neg x =>
    obtain ⟨px, hpx, hp⟩ := bind_eq_ok.1 hp
    obtain ⟨w, hw, rfl⟩ := Option.map_eq_some_iff.1 ha
    rw [← pure_eq_ok.1 hp]
    exact (he.operand hpx hw).neg
  | cast t x =>
    obtain ⟨px, hpx, hp⟩ := bind_eq_ok.1 hp
    obtain ⟨w, hw, ha⟩ := Option.bind_eq_some_iff.1 ha
    rw [← pure_eq_ok.1 hp]
    exact (he.operand hpx hw).cast ha
  | _ => cases ha

theorem Follows.put (he : Follows e σ) {x : Local} {p : BitPattern} {v : BitVec x.type.bitWidth}
    (hp : p.Describes v) : Follows (e.write x p) (σ.put x v) :=
  Env.all_write_put (D := fun _ (p : BitPattern) v => p.Describes v) he hp

theorem Follows.assign (he : Follows e σ) {x : Local} {value : Expr} {v : BitVec x.type.bitWidth}
    (hv : ∀ p, ConstantBits.evaluate e x.type.bitWidth value = .ok p → p.Describes v)
    (h : e.assign x (assigned x value) = .ok e') : Follows e' (σ.put x v) := by
  refine Env.all_assign_put (D := fun _ (p : BitPattern) v => p.Describes v) he (fun q hq => ?_) h
  obtain ⟨p, hp, hq⟩ := bind_eq_ok.1 hq
  rw [← pure_eq_ok.1 hq]
  simpa using (hv p hp).zeroExtend x.type.bitWidth

/-- What comes from outside is only known by its width. -/
theorem evaluate_outside {width : Nat} {value : Expr} {p : BitPattern}
    (hvalue : value.isOpaque = true ∨ (value.isLength = true ∧ width = 32))
    (hp : evaluate e width value = .ok p) : p = .top width := by
  cases value with
  | operand x | binary op lhs rhs | neg x | cast t x => simp [Expr.isOpaque, Expr.isLength] at hvalue
  | length x =>
    obtain rfl : width = 32 := by simpa [Expr.isOpaque, Expr.isLength] using hvalue
    exact (pure_eq_ok.1 hp).symm
  | _ => exact (pure_eq_ok.1 hp).symm

/-- An instruction that defines no integral local changes nothing of what is tracked. -/
theorem Follows.skip (he : Follows e σ) (hint : ∀ x ∈ e.locals, x.type.isIntegral = true) {s : Site}
    (hskip : ∀ x, s.instruction.defined? = some x → x.type.isIntegral = false)
    (h : ConstantBits.transfer s e = .ok e') : Follows e' σ := by
  obtain ⟨id, i⟩ := s
  cases i with
  | assign target value =>
    cases target with
    | var x =>
      rw [transfer_assign] at h
      rcases Env.assign_eq_ok h with ⟨hx, -⟩ | ⟨-, rfl⟩
      · have hx' := hint x (Env.mem_locals.2 hx)
        rw [hskip x rfl] at hx'
        cases hx'
      · exact he
    | _ => cases h; exact he
  | bind x origin =>
    cases h
    exact Env.all_write he (BitPattern.describes_top (σ x))
  | lookupSwitch _ | tableSwitch _ => cases h
  | _ => cases h; exact he

/-- The transfer of an instruction follows its execution. -/
theorem Follows.transfer (he : Follows e σ) (hint : ∀ x ∈ e.locals, x.type.isIntegral = true) {s : Site}
    (h : ConstantBits.transfer s e = .ok e') (hstep : s.instruction.Steps σ τ) : Follows e' τ := by
  obtain ⟨id, i⟩ := s
  cases hstep with
  | compute _ hv =>
    rw [transfer_assign] at h
    exact he.assign (fun p hp => he.evaluate hp hv) h
  | receive v _ hvalue =>
    rw [transfer_assign] at h
    refine he.assign (fun p hp => ?_) h
    rw [evaluate_outside hvalue hp]
    exact BitPattern.describes_top v
  | bind v =>
    cases h
    exact he.put (BitPattern.describes_top v)
  | skip hskip => exact he.skip hint hskip h

variable {p : Problem BitPattern}

theorem Follows.of_below (he : Follows e σ) (h : e.Below e') : Follows e' σ := by
  intro x q hq
  obtain ⟨v, hv⟩ := Env.exists_get?_of_locals_eq h.locals_eq.symm hq
  exact (he x v hv).of_le (BitPattern.below_iff.1 (h.get? hv hq))

/-- At the start every tracked bit is known to be 0. -/
theorem follows_freshEnv (g : Flowgraph) (hσ : σ.IsZero) : Follows (analysis.freshEnv g) σ := by
  refine Env.all_ofFn fun x hx => ?_
  rw [hσ x (LocalSet.mem_filter.1 hx).2]
  exact BitPattern.describes_zero _

variable {g : Flowgraph} {X : List (BlockState BitPattern)} {b : Nat}

/-- The tracked locals of a state along the flow are the integral ones of the program. -/
theorem mem_locals_iff (hg : g.Built) (hp : Problem.create analysis g = .ok p) (hX : p.Solution X)
    (hb : p.Reachable b) {s : BlockState BitPattern} (hs : X[b]? = some s) {x : Local} :
    (x ∈ s.input.locals ↔ x ∈ g.locals ∧ x.type.isIntegral = true) ∧
    (x ∈ s.output.locals ↔ x ∈ g.locals ∧ x.type.isIntegral = true) := by
  have hsound := Problem.sound_of_create hg hp
  obtain ⟨ha, rfl, -⟩ := Problem.boundary_of_create hp
  obtain ⟨hin, hout⟩ := hX.reached hsound (ha ▸ lawful) hb hs
  rw [hin.locals_eq, hout.locals_eq, ha]
  exact ⟨LocalSet.mem_filter, LocalSet.mem_filter⟩

/-- Describing the store is kept along every execution. -/
theorem simulates (g : Flowgraph) :
    analysis.Simulates g Store.IsZero Instruction.Steps Follows where
  fresh hσ := follows_freshEnv g hσ
  up he h := he.of_below h
  transfer {s e e' σ τ} _ hlocals he h hstep := by
    refine he.transfer (fun x hx => ?_) h hstep
    rw [hlocals] at hx
    exact (LocalSet.mem_filter.1 hx).2

/-- The result that a solution holds for the last block of an executed path describes the store there. -/
theorem follows_of_arrives (hg : g.Built) (hp : Problem.create analysis g = .ok p) (hX : p.Solution X)
    (h : g.Arrives b σ) : p.Reachable b ∧ ∃ s, X[b]? = some s ∧ Follows s.output σ :=
  (simulates g).follows lawful hg hp rfl hX h

/-- In a program whose widths fit, only a division or remainder by zero has no successor; and along
every path that is executed from the entry, the result of a completed run for the block where the path
ends describes the word of each integral local: every bit that the pattern knows is the bit of the
word. -/
theorem final_states_describe (hg : g.Built) (hwidths : g.WidthConsistent) {q : Worklist} (hq : q.Fresh)
    {h : History BitPattern} (hrun : analysis.runFrom g q = .ok h) :
    (∀ s ∈ g.sites, ∀ σ, (∃ τ, s.instruction.Steps σ τ) ↔ ¬ s.instruction.DividesByZero σ) ∧
    ∃ last, h.last? = some last ∧ ∀ b σ, g.Arrives b σ →
      ∃ s, last.states[b]? = some s ∧ ∀ x ∈ g.locals, x.type.isIntegral = true →
        ∃ bits, s.output.get? x = some bits ∧ bits.Describes (σ x) := by
  refine ⟨fun s hs σ => Instruction.steps_iff (hwidths s hs), ?_⟩
  obtain ⟨p, hp, -⟩ := bind_eq_ok.1 hrun
  obtain ⟨last, hlast, -, hsol, -⟩ := lawful.solution_of_run hg hp hq hrun
  refine ⟨last, hlast, fun b σ harrives => ?_⟩
  obtain ⟨hreach, s, hs, hfollows⟩ := follows_of_arrives hg hp hsol harrives
  refine ⟨s, hs, fun x hx hint => ?_⟩
  have hcontains := Env.mem_locals.1 ((mem_locals_iff hg hp hsol hreach hs).2.2 ⟨hx, hint⟩)
  obtain ⟨bits, hbits⟩ := Option.isSome_iff_exists.1 hcontains
  exact ⟨bits, hbits, hfollows x bits hbits⟩

theorem widthConsistent_doubling : doubling.WidthConsistent := by
  simp only [Flowgraph.WidthConsistent, sites_doubling, List.forall_mem_cons]
  exact ⟨fun _ => .inl rfl, fun _ => .inl rfl, trivial, by simp⟩

/-- The loop is entered with 4 and first left with 8. -/
theorem arrives_doubling :
    doubling.Arrives 1 ((Store.put (fun _ => 0) ⟨"x", .int⟩ 4).put ⟨"x", .int⟩ 8) := by
  have hfour : setFour.Steps (fun _ => 0) (Store.put (fun _ => 0) ⟨"x", .int⟩ 4) :=
    .compute (by rfl) (by rfl)
  have height : double.Steps (Store.put (fun _ => 0) ⟨"x", .int⟩ 4)
      ((Store.put (fun _ => 0) ⟨"x", .int⟩ 4).put ⟨"x", .int⟩ 8) := .compute (by rfl) (by rfl)
  exact .follow (.enter (fun _ _ => rfl) rfl (.cons hfour .nil)) (by decide) rfl (.cons height .nil)

theorem final_states_describe_doubling :
    ∃ h last s bits, analysis.run doubling ⟨.random, some 7⟩ = .ok h ∧ h.last? = some last ∧
      last.states[1]? = some s ∧ s.output.get? ⟨"x", .int⟩ = some bits ∧ bits.Describes 8#32 := by
  obtain ⟨h, hrun⟩ := AnalysisKind.exists_run_doubling .constantBits ⟨.random, some 7⟩
  have hfresh := Config.worklist_fresh ⟨.random, some 7⟩
  obtain ⟨-, last, hlast, hdescribe⟩ :=
    final_states_describe doubling_built widthConsistent_doubling hfresh hrun
  obtain ⟨s, hs, hbits⟩ := hdescribe 1 _ arrives_doubling
  obtain ⟨bits, hx, hd⟩ := hbits ⟨"x", .int⟩ (by decide) rfl
  rw [Store.put_same] at hd
  exact ⟨h, last, s, bits, hrun, hlast, hs, hx, hd⟩

end ConstantBits

end FlowHistory
