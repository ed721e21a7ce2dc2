import Mathlib.Data.Nat.Bitwise

/-! C++ integer types as the bit patterns their arithmetic sees. A type is its width and
signedness; integral promotion, the usual arithmetic conversions and integral conversion
follow [conv.prom], [expr.arith.conv] and [conv.integral], with two's complement. -/
namespace CIntegers

/-- A C++ integer type other than `bool`: only its width and signedness affect arithmetic. -/
structure IntType where
  width : ℕ
  signed : Bool
  width_pos : 0 < width
  deriving DecidableEq

/-- The widths the standard leaves to the implementation: `int` and `unsigned long`. -/
structure DataModel where
  intWidth : ℕ
  ulongWidth : ℕ
  int_pos : 0 < intWidth
  ulong_pos : 0 < ulongWidth

def DataModel.int (d : DataModel) : IntType := ⟨d.intWidth, true, d.int_pos⟩
def DataModel.ulong (d : DataModel) : IntType := ⟨d.ulongWidth, false, d.ulong_pos⟩

/-- Integral promotion. An unsigned type as wide as `int` stays as it is: that is
`unsigned int` by width and signedness. -/
def DataModel.promote (d : DataModel) (t : IntType) : IntType :=
  if t.width < d.intWidth then d.int else t

/-- The usual arithmetic conversions on promoted operands: the wider width, signed when both
operands are or when the signed one is strictly wider. -/
def common (a b : IntType) : IntType where
  width := max a.width b.width
  signed := if a.signed = b.signed then a.signed
    else if a.signed then b.width < a.width else a.width < b.width
  width_pos := Nat.lt_of_lt_of_le a.width_pos (Nat.le_max_left _ _)

def DataModel.arith (d : DataModel) (a b : IntType) : IntType :=
  common (d.promote a) (d.promote b)

/-- Integral conversion: the value congruent modulo `2 ^ width`, so a signed source is
sign-extended and every source is truncated. -/
def convert (s t : IntType) (x : BitVec s.width) : BitVec t.width :=
  if s.signed then x.signExtend t.width else x.setWidth t.width

def DataModel.operand (d : DataModel) (t c : IntType) (x : BitVec t.width) : BitVec c.width :=
  convert (d.promote t) c (convert t (d.promote t) x)

inductive BitOp
  | and
  | or
  | xor
  deriving DecidableEq, Repr

def BitOp.eval {w : ℕ} : BitOp → BitVec w → BitVec w → BitVec w
  | .and, x, y => x &&& y
  | .or, x, y => x ||| y
  | .xor, x, y => x ^^^ y

def BitOp.bool : BitOp → Bool → Bool → Bool
  | .and, a, b => a && b
  | .or, a, b => a || b
  | .xor, a, b => a ^^ b

def DataModel.bitwise (d : DataModel) (op : BitOp) (a b : IntType) (x : BitVec a.width)
    (y : BitVec b.width) : BitVec (d.arith a b).width :=
  op.eval (d.operand a (d.arith a b) x) (d.operand b (d.arith a b) y)

def DataModel.complement (d : DataModel) (t : IntType) (x : BitVec t.width) :
    BitVec (d.promote t).width :=
  ~~~(convert t (d.promote t) x)

def DataModel.equal (d : DataModel) (a b : IntType) (x : BitVec a.width)
    (y : BitVec b.width) : Bool :=
  d.operand a (d.arith a b) x == d.operand b (d.arith a b) y

/-- Bit `i` of the value of `x` in its infinite two's complement expansion. -/
def IntType.bit (t : IntType) (x : BitVec t.width) (i : ℕ) : Bool :=
  if i < t.width then x.getLsbD i else t.signed && x.msb

structure Widens (s t : IntType) : Prop where
  width_le : s.width ≤ t.width
  signed_of_signed : s.signed → t.signed
  lt_of_gains_sign : t.signed → s.signed = false → s.width < t.width

variable {d : DataModel} {s t c : IntType} {i : ℕ}

@[simp] theorem bit_of_lt (x : BitVec t.width) (h : i < t.width) : t.bit x i = x.getLsbD i :=
  if_pos h

theorem getLsbD_convert (x : BitVec s.width) (i : ℕ) :
    (convert s t x).getLsbD i = (decide (i < t.width) && s.bit x i) := by
  by_cases hi : i < s.width
  · rcases s with ⟨w, _ | _, hw⟩ <;> simp [convert, IntType.bit, BitVec.getLsbD_signExtend, hi]
  · have hge := Nat.le_of_not_lt hi
    rcases s with ⟨w, _ | _, hw⟩ <;>
      simp [convert, IntType.bit, BitVec.getLsbD_signExtend, hi, BitVec.getLsbD_ge _ _ hge]

theorem msb_convert (x : BitVec s.width) :
    (convert s t x).msb = s.bit x (t.width - 1) := by
  have := t.width_pos
  rw [BitVec.msb_eq_getLsbD_last, getLsbD_convert]
  simp only [decide_eq_true (Nat.sub_lt this Nat.one_pos), Bool.true_and]

theorem bit_convert (h : Widens s t) (x : BitVec s.width) : t.bit (convert s t x) = s.bit x := by
  funext i
  by_cases hi : i < t.width
  · simp [getLsbD_convert, hi]
  have hs : ¬ i < s.width := fun h' => hi (Nat.lt_of_lt_of_le h' h.width_le)
  simp only [IntType.bit, hi, hs, if_false, msb_convert]
  rcases hsg : s.signed
  · rcases htg : t.signed
    · rfl
    · have := h.lt_of_gains_sign htg hsg
      simp [IntType.bit, show ¬ t.width - 1 < s.width by omega, hsg]
  · have htg := h.signed_of_signed hsg
    by_cases he : t.width - 1 < s.width
    · have : t.width - 1 = s.width - 1 := by have := h.width_le; omega
      simp [IntType.bit, he, htg, this, BitVec.msb_eq_getLsbD_last]
    · simp [IntType.bit, he, htg, hsg]

theorem Widens.refl (t : IntType) : Widens t t :=
  ⟨le_rfl, id, fun _ h => by simp_all⟩

theorem widens_promote (t : IntType) : Widens t (d.promote t) := by
  unfold DataModel.promote
  split
  · exact ⟨by simp [DataModel.int]; omega, fun _ => rfl, fun _ _ => by simpa [DataModel.int]⟩
  · exact Widens.refl t

theorem widens_common_left {a b : IntType} (h : a.signed = b.signed) : Widens a (common a b) :=
  ⟨Nat.le_max_left _ _, fun ha => by simp [common, ← h, ha], fun hc ha => by simp_all [common]⟩

theorem width_le_promote (t : IntType) : t.width ≤ (d.promote t).width :=
  (widens_promote t).width_le

theorem width_le_arith_left (a b : IntType) : a.width ≤ (d.arith a b).width :=
  (width_le_promote a).trans (Nat.le_max_left _ _)

theorem width_le_arith_right (a b : IntType) : b.width ≤ (d.arith a b).width :=
  (width_le_promote b).trans (Nat.le_max_right _ _)

@[simp] theorem getLsbD_operand (x : BitVec t.width) (i : ℕ) :
    (d.operand t c x).getLsbD i = (decide (i < c.width) && t.bit x i) := by
  rw [DataModel.operand, getLsbD_convert, bit_convert (widens_promote t)]

theorem bit_operand (h : Widens (d.promote t) c) (x : BitVec t.width) :
    c.bit (d.operand t c x) = t.bit x := by
  rw [DataModel.operand, bit_convert h, bit_convert (widens_promote t)]

@[simp] theorem getLsbD_eval (op : BitOp) {w : ℕ} (x y : BitVec w) :
    (op.eval x y).getLsbD i = op.bool (x.getLsbD i) (y.getLsbD i) := by
  cases op <;> simp [BitOp.eval, BitOp.bool]

theorem bit_eval (op : BitOp) (x y : BitVec t.width) :
    t.bit (op.eval x y) i = op.bool (t.bit x i) (t.bit y i) := by
  unfold IntType.bit
  split
  · exact getLsbD_eval op x y
  · cases op <;> cases t.signed <;> simp [BitOp.eval, BitOp.bool]

@[simp] theorem getLsbD_bitwise (op : BitOp) (a b : IntType) (x : BitVec a.width)
    (y : BitVec b.width) :
    (d.bitwise op a b x y).getLsbD i =
      (decide (i < (d.arith a b).width) && op.bool (a.bit x i) (b.bit y i)) := by
  cases op <;> simp only [DataModel.bitwise, BitOp.bool, getLsbD_eval, getLsbD_operand] <;>
    cases decide (i < (d.arith a b).width) <;> simp

theorem equal_iff_bit (a b : IntType) (x : BitVec a.width) (y : BitVec b.width) :
    d.equal a b x y = true ↔ ∀ i < (d.arith a b).width, a.bit x i = b.bit y i := by
  simp only [DataModel.equal, beq_iff_eq]
  constructor
  · intro h i hi
    simpa [hi] using congrArg (fun v => v.getLsbD i) h
  · intro h
    ext i
    simp [i.isLt, h i i.isLt]

theorem equal_iff (x y : BitVec t.width) : d.equal t t x y = true ↔ x = y := by
  rw [equal_iff_bit]
  constructor
  · intro h
    ext i
    simpa [i.isLt] using h i (Nat.lt_of_lt_of_le i.isLt (width_le_arith_left t t))
  · rintro rfl _ _
    rfl

theorem bit_bitwise_self (op : BitOp) (x y : BitVec t.width) :
    (d.arith t t).bit (d.bitwise op t t x y) i = op.bool (t.bit x i) (t.bit y i) := by
  have hw : Widens (d.promote t) (d.arith t t) := widens_common_left rfl
  rw [DataModel.bitwise, bit_eval, bit_operand hw, bit_operand hw]

end CIntegers
