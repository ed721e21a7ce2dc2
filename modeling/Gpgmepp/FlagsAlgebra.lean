import Gpgmepp.FlagsClass

/-! What the operators of `Flags<Enum, N>` compute on bit patterns, for every underlying type,
every data model and every `N`. Every binary operator and compound assignment is one `combine`,
so the laws are proved once for it and read back for each member. -/
namespace FlagsAlgebra

open CIntegers FlagsClass

variable {d : DataModel} {U : IntType} {N : ℕ}

def Fits (N : ℕ) {w : ℕ} (x : BitVec w) : Prop := x.toNat < 2 ^ N

instance {w : ℕ} (x : BitVec w) : Decidable (Fits N x) := inferInstanceAs (Decidable (_ < _))

theorem fits_iff {w : ℕ} {x : BitVec w} : Fits N x ↔ ∀ i, N ≤ i → x.getLsbD i = false :=
  ⟨fun h _ hi => Nat.testBit_lt_two_pow (Nat.lt_of_lt_of_le h (Nat.pow_le_pow_right (by decide) hi)),
    fun h => Nat.lt_pow_two_of_testBit _ h⟩

theorem getLsbD_ofList (l : List (Enum U)) (i : ℕ) :
    (Flags.ofList l : Flags d U N).mFlags.getLsbD i = l.any (fun e => e.val.getLsbD i) := by
  rw [Flags.mFlags_ofList]
  suffices ∀ m : BitVec U.width, (l.foldl (fun m e => m ||| e.val) m).getLsbD i =
      (m.getLsbD i || l.any (fun e => e.val.getLsbD i)) by simpa using this 0
  induction l with
  | nil => simp
  | cons e l ih => intro m; simp [ih, Bool.or_assoc]

theorem ofList_singleton (e : Enum U) : (Flags.ofList [e] : Flags d U N) = Flags.ofEnum e := by
  ext1
  simp [Flags.mFlags_ofList, Flags.ofEnum, Flags.toUnderlying]

theorem fits_combine (op : BitOp) {x y : BitVec U.width} (hx : Fits N x) (hy : Fits N y) :
    Fits N (Flags.combine op x y : Flags d U N).mFlags := by
  rw [fits_iff] at *
  intro i hi
  cases op <;> simp [BitOp.eval, hx i hi, hy i hi]

theorem fits_compl {a b : Flags d U N} (h : a.compl = some b) : Fits N b.mFlags := by
  by_cases hN : N ≤ d.ulongWidth
  · rw [Flags.compl_eq hN, Option.some.injEq] at h
    subst h
    exact fits_iff.mpr fun i hi => by simp [Nat.not_lt.mpr hi]
  · rw [Flags.compl_eq_none (Nat.lt_of_not_le hN)] at h
    cases h

theorem fits_and_of_fits_left {x y : BitVec U.width} (hx : Fits N x) :
    Fits N (Flags.combine .and x y : Flags d U N).mFlags := by
  rw [fits_iff] at *
  intro i hi
  simp [BitOp.eval, hx i hi]

/-- The values a client builds through the public API from enumerators and raw values that
fit in `N` bits. Every binary operator and compound assignment is a `combine`. -/
inductive Reachable : Flags d U N → Prop
  | empty : Reachable Flags.empty
  | ofEnum {e : Enum U} : Fits N e.val → Reachable (Flags.ofEnum e)
  | ofList {l : List (Enum U)} : (∀ e ∈ l, Fits N e.val) → Reachable (Flags.ofList l)
  | fromUnderlyingType {x : BitVec U.width} : Fits N x → Reachable (Flags.fromUnderlyingType x)
  | combine {op : BitOp} {a b : Flags d U N} :
      Reachable a → Reachable b → Reachable (Flags.combine op a.mFlags b.mFlags)
  | combineEnum {op : BitOp} {a : Flags d U N} {e : Enum U} :
      Reachable a → Fits N e.val → Reachable (Flags.combine op a.mFlags e.val)
  | enumCombine {op : BitOp} {e : Enum U} {a : Flags d U N} :
      Fits N e.val → Reachable a → Reachable (Flags.combine op e.val a.mFlags)
  | compl {a b : Flags d U N} : Reachable a → a.compl = some b → Reachable b
  | set {a b : Flags d U N} {e : Enum U} {value : Bool} :
      Reachable a → Fits N e.val → a.set e value = some b → Reachable b
  | reset {a b : Flags d U N} {e : Enum U} :
      Reachable a → Fits N e.val → a.reset e = some b → Reachable b
  | resetAll {a : Flags d U N} : Reachable a → Reachable a.resetAll

theorem fits_reset {a b : Flags d U N} {e : Enum U} (ha : Fits N a.mFlags)
    (h : a.reset e = some b) : Fits N b.mFlags := by
  obtain ⟨c, -, rfl⟩ := Option.map_eq_some'.mp h
  exact fits_and_of_fits_left ha

theorem reachable_fits {f : Flags d U N} (h : Reachable f) : Fits N f.mFlags := by
  induction h with
  | empty => simp [Fits, Flags.empty, Nat.two_pow_pos]
  | ofEnum he => exact he
  | ofList hl =>
    refine fits_iff.mpr fun i hi => ?_
    rw [getLsbD_ofList, List.any_eq_false]
    exact fun e he => by simpa using fits_iff.mp (hl e he) i hi
  | fromUnderlyingType hx => exact hx
  | combine _ _ iha ihb => exact fits_combine _ iha ihb
  | combineEnum _ he iha => exact fits_combine _ iha he
  | enumCombine he _ iha => exact fits_combine _ he iha
  | compl _ hb _ => exact fits_compl hb
  | @set a b e value _ he hb iha =>
    cases value
    · exact fits_reset iha hb
    · cases hb
      exact fits_combine _ iha he
  | reset _ _ hb iha => exact fits_reset iha hb
  | resetAll => simp [Fits, Flags.resetAll, Nat.two_pow_pos]

theorem and_eq_right_iff {w : ℕ} {x y : BitVec w} :
    x &&& y = y ↔ ∀ i, y.getLsbD i = true → x.getLsbD i = true := by
  constructor
  · intro h i hy
    simpa [hy] using congrArg (fun v => v.getLsbD i) h
  · intro h
    ext i
    by_cases hy : y.getLsbD i <;> simp [hy, h i]

def lp64 : DataModel := ⟨32, 64, by decide, by decide⟩

def unsignedInt : IntType := ⟨32, false, by decide⟩

/-- Each operator is the bitwise operation on patterns, `~` keeps the low `N` bits of the
complement, every mixed form equals the `Flags`-with-`Flags` form, and values built from
`N`-bit enumerators and raw values stay in `N` bits. -/
theorem flags_faithful_bitvectors (hN : N ≤ U.width) (hW : U.width ≤ d.ulongWidth)
    (a b : Flags d U N) (e e' : Enum U) :
    ((a ||| b).toUnderlyingType = a.toUnderlyingType ||| b.toUnderlyingType ∧
      (a &&& b).toUnderlyingType = a.toUnderlyingType &&& b.toUnderlyingType ∧
      (a ^^^ b).toUnderlyingType = a.toUnderlyingType ^^^ b.toUnderlyingType ∧
      a.compl.map Flags.toUnderlyingType =
        some (~~~a.toUnderlyingType &&& (BitVec.allOnes N).setWidth U.width)) ∧
    (a ||| e = a ||| (Flags.ofEnum e : Flags d U N) ∧
      e ||| a = (Flags.ofEnum e : Flags d U N) ||| a ∧
      a &&& e = a &&& (Flags.ofEnum e : Flags d U N) ∧
      e &&& a = (Flags.ofEnum e : Flags d U N) &&& a ∧
      a ^^^ e = a ^^^ (Flags.ofEnum e : Flags d U N) ∧
      e ^^^ a = (Flags.ofEnum e : Flags d U N) ^^^ a) ∧
    (a.orAssign b = a ||| b ∧ a.orAssignEnum e = a ||| (Flags.ofEnum e : Flags d U N) ∧
      a.andAssign b = a &&& b ∧ a.andAssignEnum e = a &&& (Flags.ofEnum e : Flags d U N) ∧
      a.xorAssign b = a ^^^ b ∧ a.xorAssignEnum e = a ^^^ (Flags.ofEnum e : Flags d U N)) ∧
    ((Flags.enumEnumOr N e e' : Flags d U N) = Flags.ofEnum e ||| Flags.ofEnum e' ∧
      (Flags.enumEnumAnd N e e' : Flags d U N) = Flags.ofEnum e &&& Flags.ofEnum e' ∧
      (Flags.enumEnumXor N e e' : Flags d U N) = Flags.ofEnum e ^^^ Flags.ofEnum e') ∧
    (a.test e = true ↔ ∀ i, e.val.getLsbD i = true → a.toUnderlyingType.getLsbD i = true) ∧
    (a.toBool = true ↔ a.toUnderlyingType ≠ 0) ∧
    ((a == b) = true ↔ a.toUnderlyingType = b.toUnderlyingType) ∧
    (∀ f : Flags d U N, Reachable f → Fits N f.toUnderlyingType) ∧
    (∀ g : Flags d U N, a.compl = some g → Fits N g.toUnderlyingType) := by
  have hsingle : ∀ op : BitOp,
      (Flags.combine op (Flags.ofList [e] : Flags d U N).mFlags (Flags.toUnderlying e') :
        Flags d U N) = Flags.combine op (Flags.ofEnum e : Flags d U N).mFlags e'.val :=
    fun op => by rw [ofList_singleton]; rfl
  refine ⟨⟨?_, ?_, ?_, ?_⟩, ⟨rfl, rfl, rfl, rfl, rfl, rfl⟩, ⟨rfl, rfl, rfl, rfl, rfl, rfl⟩,
    ⟨hsingle .or, hsingle .and, hsingle .xor⟩, (Flags.test_iff a e).trans and_eq_right_iff,
    Flags.toBool_iff a, Flags.beq_iff a b, fun _ => reachable_fits, fun _ => fits_compl⟩
  · exact Flags.mFlags_combine .or _ _
  · exact Flags.mFlags_combine .and _ _
  · exact Flags.mFlags_combine .xor _ _
  · rw [Flags.compl_eq (hN.trans hW)]
    rfl

theorem flags_faithful_bitvectors_lp64 :
    3 ≤ unsignedInt.width ∧ unsignedInt.width ≤ lp64.ulongWidth ∧
      (Flags.fromUnderlyingType 3#32 : Flags lp64 unsignedInt 3).compl.map Flags.toUnderlyingType =
        some (~~~3#32 &&& (BitVec.allOnes 3).setWidth 32) :=
  ⟨by decide, by decide,
    (flags_faithful_bitvectors (by decide) (by decide) _ (Flags.fromUnderlyingType 0#32)
      ⟨0#32⟩ ⟨0#32⟩).1.2.2.2⟩

/-- `reset` goes through the masked complement, so a bit at or above `N` that
`fromUnderlyingType` let in is cleared as well. -/
theorem reset_clears_bits_above_n :
    ((Flags.fromUnderlyingType 8#32 : Flags lp64 unsignedInt 3).reset ⟨1#32⟩).map
        Flags.toUnderlyingType ≠ some (8#32 &&& ~~~1#32) := by
  decide

/-- `set(e, true)` sets the bits of `e` and keeps every other bit; `set(e, false)` and
`reset(e)` clear the bits of `e` and every bit at or above `N`, keeping the rest. -/
theorem set_reset_frame (hN : N ≤ d.ulongWidth) (f : Flags d U N) (e : Enum U) :
    (f.set e true).map Flags.toUnderlyingType = some (f.toUnderlyingType ||| e.val) ∧
    (f.set e false).map Flags.toUnderlyingType =
      some (f.toUnderlyingType &&& ~~~e.val &&& (BitVec.allOnes N).setWidth U.width) ∧
    (f.reset e).map Flags.toUnderlyingType =
      some (f.toUnderlyingType &&& ~~~e.val &&& (BitVec.allOnes N).setWidth U.width) ∧
    (N = U.width →
      (f.reset e).map Flags.toUnderlyingType = some (f.toUnderlyingType &&& ~~~e.val)) := by
  have hreset : (f.reset e).map Flags.toUnderlyingType =
      some (f.toUnderlyingType &&& ~~~e.val &&& (BitVec.allOnes N).setWidth U.width) := by
    simp [Flags.reset, Flags.compl_eq hN, Flags.andAssign, Flags.toUnderlyingType, BitOp.eval,
      Flags.ofEnum, Flags.toUnderlying, BitVec.and_assoc]
  refine ⟨by simp [Flags.set, Flags.orAssignEnum, Flags.toUnderlyingType, BitOp.eval,
    Flags.toUnderlying], hreset, hreset, ?_⟩
  rintro rfl
  rw [hreset]
  congr 1
  ext i
  simp [i.isLt]

theorem set_reset_frame_lp64 :
    3 ≤ lp64.ulongWidth ∧
      ((Flags.fromUnderlyingType 8#32 : Flags lp64 unsignedInt 3).reset ⟨1#32⟩).map
        Flags.toUnderlyingType = some (8#32 &&& ~~~1#32 &&& (BitVec.allOnes 3).setWidth 32) :=
  ⟨by decide, (set_reset_frame (by decide) _ _).2.2.1⟩

/-- The initializer-list constructor is the union of its elements: order and repetition do
not matter, and concatenation is `|`. -/
theorem ofList_union_semantics (l l₁ l₂ : List (Enum U)) :
    (Flags.ofList l : Flags d U N).toUnderlyingType = l.foldl (fun m e => m ||| e.val) 0 ∧
    ((∀ e, e ∈ l₁ ↔ e ∈ l₂) → ((Flags.ofList l₁ : Flags d U N) == Flags.ofList l₂) = true) ∧
    ((Flags.ofList (l₁ ++ l₂) : Flags d U N) == Flags.ofList l₁ ||| Flags.ofList l₂) = true := by
  refine ⟨Flags.mFlags_ofList l, fun h => ?_, ?_⟩
  · rw [Flags.beq_iff]
    ext i
    simp only [getLsbD_ofList]
    exact Bool.eq_iff_iff.mpr (by simp [List.any_eq_true, h])
  · rw [Flags.beq_iff]
    ext i
    show _ = (Flags.combine .or _ _ : Flags d U N).mFlags.getLsbD i
    simp [getLsbD_ofList, BitOp.eval]

end FlagsAlgebra
