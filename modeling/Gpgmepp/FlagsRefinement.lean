import Gpgmepp.FlagsAlgebra

/-! The abstract model of `Flags<Enum, N>`: a set of `N` flags is an `N`-bit vector, with the
operations of `BitVec N`. The abstraction keeps bits `0..N-1` of `mFlags`. Every expression a
client writes against the class computes the abstract result in those bits, and when its
enumerators and raw values fit in `N` bits, its value is the abstract result itself. -/
namespace FlagsRefinement

open CIntegers FlagsClass FlagsAlgebra

variable {d : DataModel} {U : IntType} {N : ℕ}

def toBits (f : Flags d U N) : BitVec N := f.mFlags.setWidth N

/-- An expression a client writes against the class. Each binary operator and compound
assignment is one `combine`, with a `Flags` or an enumerator on either side. -/
inductive FlagsExpr (U : IntType)
  | empty
  | ofEnum (e : Enum U)
  | ofList (l : List (Enum U))
  | fromUnderlyingType (x : BitVec U.width)
  | combine (op : BitOp) (a b : FlagsExpr U)
  | combineEnum (op : BitOp) (a : FlagsExpr U) (e : Enum U)
  | enumCombine (op : BitOp) (e : Enum U) (a : FlagsExpr U)
  | compl (a : FlagsExpr U)
  | set (a : FlagsExpr U) (e : Enum U) (value : Bool)
  | reset (a : FlagsExpr U) (e : Enum U)
  | resetAll (a : FlagsExpr U)

namespace FlagsExpr

/-- The value the code computes; `none` when `~` throws. -/
def eval (d : DataModel) (N : ℕ) : FlagsExpr U → Option (Flags d U N)
  | empty => some Flags.empty
  | ofEnum e => some (Flags.ofEnum e)
  | ofList l => some (Flags.ofList l)
  | fromUnderlyingType x => some (Flags.fromUnderlyingType x)
  | combine op a b =>
    (a.eval d N).bind fun x => (b.eval d N).map fun y => Flags.combine op x.mFlags y.mFlags
  | combineEnum op a e =>
    (a.eval d N).map fun x => Flags.combine op x.mFlags (Flags.toUnderlying e)
  | enumCombine op e a =>
    (a.eval d N).map fun x => Flags.combine op (Flags.toUnderlying e) x.mFlags
  | compl a => (a.eval d N).bind Flags.compl
  | set a e value => (a.eval d N).bind fun x => x.set e value
  | reset a e => (a.eval d N).bind fun x => x.reset e
  | resetAll a => (a.eval d N).map Flags.resetAll

def denote (N : ℕ) : FlagsExpr U → BitVec N
  | empty => 0
  | ofEnum e => e.val.setWidth N
  | ofList l => l.foldl (fun m e => m ||| e.val.setWidth N) 0
  | fromUnderlyingType x => x.setWidth N
  | combine op a b => op.eval (a.denote N) (b.denote N)
  | combineEnum op a e => op.eval (a.denote N) (e.val.setWidth N)
  | enumCombine op e a => op.eval (e.val.setWidth N) (a.denote N)
  | compl a => ~~~a.denote N
  | set a e value =>
    if value then a.denote N ||| e.val.setWidth N else a.denote N &&& ~~~e.val.setWidth N
  | reset a e => a.denote N &&& ~~~e.val.setWidth N
  | resetAll _ => 0

def leavesFit (N : ℕ) : FlagsExpr U → Bool
  | empty => true
  | ofEnum e => decide (Fits N e.val)
  | ofList l => l.all fun e => decide (Fits N e.val)
  | fromUnderlyingType x => decide (Fits N x)
  | combine _ a b => a.leavesFit N && b.leavesFit N
  | combineEnum _ a e | enumCombine _ e a | set a e _ | reset a e =>
    a.leavesFit N && decide (Fits N e.val)
  | compl a | resetAll a => a.leavesFit N

end FlagsExpr

@[simp] theorem setWidth_eval (op : BitOp) {w : ℕ} (x y : BitVec w) :
    (op.eval x y).setWidth N = op.eval (x.setWidth N) (y.setWidth N) := by
  cases op <;> simp [BitOp.eval]

@[simp] theorem toBits_combine (op : BitOp) (x y : BitVec U.width) :
    toBits (Flags.combine op x y : Flags d U N) = op.eval (x.setWidth N) (y.setWidth N) := by
  simp [toBits]

theorem toBits_ofList (l : List (Enum U)) :
    toBits (Flags.ofList l : Flags d U N) = l.foldl (fun m e => m ||| e.val.setWidth N) 0 := by
  rw [toBits, Flags.mFlags_ofList, ← List.foldl_hom (BitVec.setWidth N) (fun m e => m ||| e.val)
    (fun m e => m ||| e.val.setWidth N) l 0 fun _ _ => BitVec.setWidth_or.symm]
  simp

theorem toBits_compl (hN : N ≤ U.width) (hW : U.width ≤ d.ulongWidth) (f : Flags d U N) :
    f.compl.map toBits = some (~~~toBits f) := by
  rw [Flags.compl_eq (hN.trans hW)]
  simp [toBits, hN]

theorem toBits_reset (hN : N ≤ U.width) (hW : U.width ≤ d.ulongWidth) (f : Flags d U N)
    (e : Enum U) : (f.reset e).map toBits = some (toBits f &&& ~~~e.val.setWidth N) := by
  simp [Flags.reset, Flags.compl_eq (hN.trans hW), Flags.andAssign, toBits, BitOp.eval,
    Flags.ofEnum, Flags.toUnderlying, hN]

theorem toBits_set (hN : N ≤ U.width) (hW : U.width ≤ d.ulongWidth) (f : Flags d U N)
    (e : Enum U) (value : Bool) :
    (f.set e value).map toBits = some
      (if value then toBits f ||| e.val.setWidth N else toBits f &&& ~~~e.val.setWidth N) := by
  cases value
  · exact toBits_reset hN hW f e
  · simp [Flags.set, Flags.orAssignEnum, toBits, BitOp.eval, Flags.toUnderlying]

theorem setWidth_toBits {f : Flags d U N} (h : Fits N f.mFlags) :
    (toBits f).setWidth U.width = f.mFlags := by
  ext i
  by_cases hi : (i : ℕ) < N
  · simp [toBits, hi]
  · simp [toBits, hi, fits_iff.mp h i (Nat.le_of_not_lt hi)]

theorem toBits_inj {a b : Flags d U N} (ha : Fits N a.mFlags)
    (hb : Fits N b.mFlags) : toBits a = toBits b ↔ a.mFlags = b.mFlags :=
  ⟨fun h => by rw [← setWidth_toBits ha, ← setWidth_toBits hb, h],
    fun h => congrArg (BitVec.setWidth N) h⟩

theorem eval_refines (hN : N ≤ U.width) (hW : U.width ≤ d.ulongWidth) :
    ∀ a : FlagsExpr U, (a.eval d N).map toBits = some (a.denote N)
  | .empty => by simp [FlagsExpr.eval, FlagsExpr.denote, toBits, Flags.empty]
  | .ofEnum e => by simp [FlagsExpr.eval, FlagsExpr.denote, toBits, Flags.ofEnum, Flags.toUnderlying]
  | .ofList l => by simp [FlagsExpr.eval, FlagsExpr.denote, toBits_ofList]
  | .fromUnderlyingType x => by simp [FlagsExpr.eval, FlagsExpr.denote, toBits, Flags.fromUnderlyingType]
  | .combine op a b => by
    obtain ⟨x, hx, hxa⟩ := Option.map_eq_some'.mp (eval_refines hN hW a)
    obtain ⟨y, hy, hyb⟩ := Option.map_eq_some'.mp (eval_refines hN hW b)
    simp [FlagsExpr.eval, FlagsExpr.denote, hx, hy, ← hxa, ← hyb, toBits]
  | .combineEnum op a e => by
    obtain ⟨x, hx, hxa⟩ := Option.map_eq_some'.mp (eval_refines hN hW a)
    simp [FlagsExpr.eval, FlagsExpr.denote, hx, ← hxa, toBits, Flags.toUnderlying]
  | .enumCombine op e a => by
    obtain ⟨x, hx, hxa⟩ := Option.map_eq_some'.mp (eval_refines hN hW a)
    simp [FlagsExpr.eval, FlagsExpr.denote, hx, ← hxa, toBits, Flags.toUnderlying]
  | .compl a => by
    obtain ⟨x, hx, hxa⟩ := Option.map_eq_some'.mp (eval_refines hN hW a)
    simp only [FlagsExpr.eval, FlagsExpr.denote, hx, Option.some_bind, toBits_compl hN hW, hxa]
  | .set a e value => by
    obtain ⟨x, hx, hxa⟩ := Option.map_eq_some'.mp (eval_refines hN hW a)
    simp only [FlagsExpr.eval, FlagsExpr.denote, hx, Option.some_bind, toBits_set hN hW, hxa]
  | .reset a e => by
    obtain ⟨x, hx, hxa⟩ := Option.map_eq_some'.mp (eval_refines hN hW a)
    simp only [FlagsExpr.eval, FlagsExpr.denote, hx, Option.some_bind, toBits_reset hN hW, hxa]
  | .resetAll a => by
    obtain ⟨x, hx, -⟩ := Option.map_eq_some'.mp (eval_refines hN hW a)
    simp [FlagsExpr.eval, FlagsExpr.denote, hx, toBits, Flags.resetAll]

theorem reachable_eval (a : FlagsExpr U) {f : Flags d U N} (hl : a.leavesFit N = true)
    (h : a.eval d N = some f) : Reachable f := by
  induction a generalizing f <;>
    simp only [FlagsExpr.leavesFit, FlagsExpr.eval, Bool.and_eq_true, decide_eq_true_eq,
      List.all_eq_true, Option.some.injEq, Option.bind_eq_some, Option.map_eq_some'] at hl h
  case empty => exact h ▸ .empty
  case ofEnum => exact h ▸ .ofEnum hl
  case ofList => exact h ▸ .ofList hl
  case fromUnderlyingType => exact h ▸ .fromUnderlyingType hl
  case combine iha ihb =>
    obtain ⟨x, hx, y, hy, rfl⟩ := h
    exact .combine (iha hl.1 hx) (ihb hl.2 hy)
  case combineEnum ih =>
    obtain ⟨x, hx, rfl⟩ := h
    exact .combineEnum (ih hl.1 hx) hl.2
  case enumCombine ih =>
    obtain ⟨x, hx, rfl⟩ := h
    exact .enumCombine hl.2 (ih hl.1 hx)
  case compl ih =>
    obtain ⟨x, hx, hf⟩ := h
    exact .compl (ih hl hx) hf
  case set ih =>
    obtain ⟨x, hx, hf⟩ := h
    exact .set (ih hl.1 hx) hl.2 hf
  case reset ih =>
    obtain ⟨x, hx, hf⟩ := h
    exact .reset (ih hl.1 hx) hl.2 hf
  case resetAll ih =>
    obtain ⟨x, hx, rfl⟩ := h
    exact .resetAll (ih hl hx)

/-- The class refines `N`-bit vectors: every client expression computes the abstract value in
its low `N` bits, and when its leaves fit, its value is `Reachable` and is the abstract value
itself, widened to `U`. -/
theorem flags_refine_bitvectors (hN : N ≤ U.width) (hW : U.width ≤ d.ulongWidth)
    (a : FlagsExpr U) :
    (a.eval d N).map toBits = some (a.denote N) ∧
    (a.leavesFit N = true →
      ∃ f, a.eval d N = some f ∧ Reachable f ∧ f.mFlags = (a.denote N).setWidth U.width) := by
  refine ⟨eval_refines hN hW a, fun hl => ?_⟩
  obtain ⟨f, hf, hfa⟩ := Option.map_eq_some'.mp (eval_refines hN hW a)
  have hr := reachable_eval a hl hf
  exact ⟨f, hf, hr, by rw [← hfa, setWidth_toBits (reachable_fits hr)]⟩

theorem flags_refine_bitvectors_lp64 :
    let a : FlagsExpr unsignedInt :=
      .compl (.reset (.ofList [⟨1#32⟩, ⟨2#32⟩]) ⟨2#32⟩)
    3 ≤ unsignedInt.width ∧ unsignedInt.width ≤ lp64.ulongWidth ∧ a.leavesFit 3 = true ∧
      ∃ f, a.eval lp64 3 = some f ∧ Reachable f ∧ f.mFlags = (a.denote 3).setWidth 32 :=
  ⟨by decide, by decide, by decide,
    (flags_refine_bitvectors (by decide) (by decide) _).2 (by decide)⟩

theorem test_iff_subset {a : Flags d U N} (ha : Fits N a.mFlags) (e : Enum U) :
    a.test e = true ↔ Fits N e.val ∧ toBits a &&& e.val.setWidth N = e.val.setWidth N := by
  rw [Flags.test_iff, and_eq_right_iff, and_eq_right_iff, fits_iff]
  constructor
  · intro h
    refine ⟨fun i hi => ?_, fun i hi => ?_⟩
    · by_contra he
      simpa [fits_iff.mp ha i hi] using h i (Bool.eq_true_of_not_eq_false he)
    · simp only [toBits, BitVec.getLsbD_setWidth, Bool.and_eq_true, decide_eq_true_eq] at hi ⊢
      exact ⟨hi.1, h i hi.2⟩
  · intro ⟨hfit, h⟩ i hi
    by_cases hiN : i < N
    · simpa [hiN, toBits] using h i (by simp [hiN, hi])
    · simp [hfit i (Nat.le_of_not_lt hiN)] at hi

/-- On values that fit, `test`, `operator bool` and `==` are the `N`-bit subset test, the
non-zero test and equality. -/
theorem flags_observe_bitvectors {a b : Flags d U N} (ha : Fits N a.mFlags)
    (hb : Fits N b.mFlags) (e : Enum U) :
    (a.test e = true ↔ Fits N e.val ∧ toBits a &&& e.val.setWidth N = e.val.setWidth N) ∧
    (a.toBool = true ↔ toBits a ≠ 0) ∧
    ((a == b) = true ↔ toBits a = toBits b) := by
  refine ⟨test_iff_subset ha e, ?_, (Flags.beq_iff a b).trans (toBits_inj ha hb).symm⟩
  rw [Flags.toBool_iff, Ne, Ne, not_iff_not]
  exact ⟨fun h => by simp [toBits, h], fun h => by rw [← setWidth_toBits ha, h]; simp⟩

theorem flags_observe_bitvectors_lp64 :
    Fits 3 (5#32) ∧ Fits 3 (4#32) ∧
      ((Flags.fromUnderlyingType 5#32 : Flags lp64 unsignedInt 3).toBool = true ↔
        toBits (Flags.fromUnderlyingType 5#32 : Flags lp64 unsignedInt 3) ≠ 0) :=
  ⟨by decide, by decide, (flags_observe_bitvectors (b := Flags.fromUnderlyingType 4#32)
    (by decide) (by decide) ⟨4#32⟩).2.1⟩

theorem mFlags_or (a b : Flags d U N) : (a ||| b).mFlags = a.mFlags ||| b.mFlags :=
  Flags.mFlags_combine .or _ _

theorem mFlags_and (a b : Flags d U N) : (a &&& b).mFlags = a.mFlags &&& b.mFlags :=
  Flags.mFlags_combine .and _ _

theorem mFlags_xor (a b : Flags d U N) : (a ^^^ b).mFlags = a.mFlags ^^^ b.mFlags :=
  Flags.mFlags_combine .xor _ _

theorem compl_compl (hN : N ≤ U.width) (hW : U.width ≤ d.ulongWidth) {a : Flags d U N}
    (ha : Fits N a.mFlags) : (a.compl.bind Flags.compl).map (· == a) = some true := by
  obtain ⟨c, hc, hca⟩ := Option.map_eq_some'.mp (toBits_compl hN hW a)
  obtain ⟨c', hc', hcc⟩ := Option.map_eq_some'.mp (toBits_compl hN hW c)
  rw [hc, Option.some_bind, hc', Option.map_some', Option.some_inj, Flags.beq_iff,
    ← toBits_inj (fits_compl hc') ha, hcc, hca, BitVec.not_not]

theorem test_reset (hN : N ≤ d.ulongWidth) (a : Flags d U N) (e : Enum U) :
    (a.reset e).map (·.test e) = some (e.val == 0) := by
  have h0 : a.mFlags &&& ~~~e.val &&& (BitVec.allOnes N).setWidth U.width &&& e.val = 0 := by
    ext i
    by_cases he : e.val.getLsbD i <;> simp [he]
  simp only [Flags.reset, Flags.compl_eq hN, Option.map_some', Option.some_inj]
  rw [Bool.eq_iff_iff, Flags.test_iff, beq_iff_eq, @eq_comm _ e.val 0]
  simpa [Flags.andAssign, BitOp.eval, Flags.ofEnum, Flags.toUnderlying, BitVec.and_assoc] using
    congrArg (· = e.val) h0

/-- The laws the class is meant to satisfy as a Boolean algebra: `|` and `&` commute, `a ^ a`
is empty, `~~a == a` for a value that fits, `test(e)` holds after `set(e)`, and after
`reset(e)` it holds exactly when `e` is `0`. -/
theorem flags_boolean_laws (hN : N ≤ U.width) (hW : U.width ≤ d.ulongWidth) (a b : Flags d U N)
    (e : Enum U) :
    (a ||| b == b ||| a) = true ∧ (a &&& b == b &&& a) = true ∧ (a ^^^ a).toBool = false ∧
    (Fits N a.mFlags → (a.compl.bind Flags.compl).map (· == a) = some true) ∧
    (a.set e).map (·.test e) = some true ∧
    (a.reset e).map (·.test e) = some (e.val == 0) := by
  refine ⟨(Flags.beq_iff _ _).mpr ?_, (Flags.beq_iff _ _).mpr ?_, ?_, compl_compl hN hW,
    ?_, test_reset (hN.trans hW) a e⟩
  · rw [mFlags_or, mFlags_or, BitVec.or_comm]
  · rw [mFlags_and, mFlags_and, BitVec.and_comm]
  · rw [Bool.eq_false_iff, Ne, Flags.toBool_iff, mFlags_xor, BitVec.xor_self]
    exact fun h => h rfl
  · simp only [Flags.set, ite_true, Option.map_some', Option.some_inj, Flags.test_iff]
    ext i
    by_cases he : e.val.getLsbD i <;> simp [Flags.orAssignEnum, BitOp.eval, Flags.toUnderlying, he]

theorem flags_boolean_laws_lp64 :
    3 ≤ unsignedInt.width ∧ unsignedInt.width ≤ lp64.ulongWidth ∧
      ((Flags.fromUnderlyingType 6#32 : Flags lp64 unsignedInt 3).reset ⟨2#32⟩).map
        (·.test ⟨2#32⟩) = some ((2#32 : BitVec 32) == 0) :=
  ⟨by decide, by decide,
    (flags_boolean_laws (by decide) (by decide) _ (Flags.fromUnderlyingType 0#32) _).2.2.2.2.2⟩

/-- With `N` wider than `unsigned long`, `~` always throws `std::overflow_error` from
`to_ulong()`, and so do `reset(e)` and `set(e, false)`, which go through it. -/
theorem compl_throws_past_ulong (h : d.ulongWidth < N) (f : Flags d U N) (e : Enum U) :
    f.compl = none ∧ f.reset e = none ∧ f.set e false = none := by
  have hc : (Flags.ofEnum e : Flags d U N).compl = none := Flags.compl_eq_none h _
  exact ⟨Flags.compl_eq_none h f, by simp [Flags.reset, hc], by simp [Flags.set, hc]⟩

theorem compl_throws_past_ulong_lp64 :
    lp64.ulongWidth < 65 ∧
      (Flags.empty : Flags lp64 unsignedInt 65).compl = none ∧
      (Flags.empty : Flags lp64 unsignedInt 65).reset ⟨1#32⟩ = none ∧
      (Flags.empty : Flags lp64 unsignedInt 65).set ⟨1#32⟩ false = none :=
  ⟨by decide, compl_throws_past_ulong (by decide) _ _⟩

end FlagsRefinement
