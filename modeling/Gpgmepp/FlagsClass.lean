import Gpgmepp.CIntegers

/-! `GpgME::Flags<Enum, N>` from flags.h, member by member, each under the member's name: the
binary operators are `or`, `and` and `xor` (`orEnum` and `enumOr` when an `Enum` stands on one
side), the compound assignments `orAssign` and the like, `operator~` is `compl`, `reset()` is
`resetAll`, `operator bool` is `toBool`, and `GPGMEPP_DEFINE_ENUM_FLAG_OPERATORS` adds
`enumEnumOr`, `enumEnumAnd` and `enumEnumXor`. A member that goes through `~` is `none` where
`to_ulong` throws. A scoped enumeration with a fixed underlying type `U` has exactly the values of
`U`. The data model `d` fixes the widths of `int`, which promotion uses, and of `unsigned long`,
which `std::bitset::to_ulong` returns. -/
namespace FlagsClass

open CIntegers

structure Enum (U : IntType) where
  val : BitVec U.width
  deriving DecidableEq

structure Flags (d : DataModel) (U : IntType) (N : ℕ) where
  mFlags : BitVec U.width

variable {d : DataModel} {U : IntType} {N : ℕ}

namespace Flags

def toUnderlying (flag : Enum U) : BitVec U.width := flag.val

def empty : Flags d U N := ⟨0⟩

def ofEnum (flag : Enum U) : Flags d U N := ⟨toUnderlying flag⟩

def fromUnderlyingType (flags : BitVec U.width) : Flags d U N := ⟨flags⟩

def toUnderlyingType (f : Flags d U N) : BitVec U.width := f.mFlags

/-- Both `Flags(lhs op rhs)` and `mFlags op= rhs`: the built-in operator on the promoted
operands, converted back to `UnderlyingT`. -/
def combine (op : BitOp) (lhs rhs : BitVec U.width) : Flags d U N :=
  ⟨convert (d.arith U U) U (d.bitwise op U U lhs rhs)⟩

def ofList (flags : List (Enum U)) : Flags d U N :=
  flags.foldl (fun f flag => combine .or f.mFlags (toUnderlying flag)) empty

def test (f : Flags d U N) (flag : Enum U) : Bool :=
  d.equal (d.arith U U) U (d.bitwise .and U U f.mFlags (toUnderlying flag)) (toUnderlying flag)

def toBool (f : Flags d U N) : Bool := !d.equal U U f.mFlags 0

def or (lhs rhs : Flags d U N) : Flags d U N := combine .or lhs.mFlags rhs.mFlags
def orEnum (lhs : Flags d U N) (rhs : Enum U) : Flags d U N :=
  combine .or lhs.mFlags (toUnderlying rhs)
def enumOr (lhs : Enum U) (rhs : Flags d U N) : Flags d U N :=
  combine .or (toUnderlying lhs) rhs.mFlags

def and (lhs rhs : Flags d U N) : Flags d U N := combine .and lhs.mFlags rhs.mFlags
def andEnum (lhs : Flags d U N) (rhs : Enum U) : Flags d U N :=
  combine .and lhs.mFlags (toUnderlying rhs)
def enumAnd (lhs : Enum U) (rhs : Flags d U N) : Flags d U N :=
  combine .and (toUnderlying lhs) rhs.mFlags

def xor (lhs rhs : Flags d U N) : Flags d U N := combine .xor lhs.mFlags rhs.mFlags
def xorEnum (lhs : Flags d U N) (rhs : Enum U) : Flags d U N :=
  combine .xor lhs.mFlags (toUnderlying rhs)
def enumXor (lhs : Enum U) (rhs : Flags d U N) : Flags d U N :=
  combine .xor (toUnderlying lhs) rhs.mFlags

instance : OrOp (Flags d U N) := ⟨or⟩
instance : HOr (Flags d U N) (Enum U) (Flags d U N) := ⟨orEnum⟩
instance : HOr (Enum U) (Flags d U N) (Flags d U N) := ⟨enumOr⟩
instance : AndOp (Flags d U N) := ⟨and⟩
instance : HAnd (Flags d U N) (Enum U) (Flags d U N) := ⟨andEnum⟩
instance : HAnd (Enum U) (Flags d U N) (Flags d U N) := ⟨enumAnd⟩
instance : Xor (Flags d U N) := ⟨xor⟩
instance : HXor (Flags d U N) (Enum U) (Flags d U N) := ⟨xorEnum⟩
instance : HXor (Enum U) (Flags d U N) (Flags d U N) := ⟨enumXor⟩

def orAssign (f other : Flags d U N) : Flags d U N := combine .or f.mFlags other.mFlags
def orAssignEnum (f : Flags d U N) (flag : Enum U) : Flags d U N :=
  combine .or f.mFlags (toUnderlying flag)
def andAssign (f other : Flags d U N) : Flags d U N := combine .and f.mFlags other.mFlags
def andAssignEnum (f : Flags d U N) (flag : Enum U) : Flags d U N :=
  combine .and f.mFlags (toUnderlying flag)
def xorAssign (f other : Flags d U N) : Flags d U N := combine .xor f.mFlags other.mFlags
def xorAssignEnum (f : Flags d U N) (flag : Enum U) : Flags d U N :=
  combine .xor f.mFlags (toUnderlying flag)

/-- `std::bitset<N>::to_ulong()`; `none` is the `std::overflow_error` it throws when a set bit
does not fit in `unsigned long`. -/
def toUlong (d : DataModel) (b : BitVec N) : Option (BitVec d.ulongWidth) :=
  if b.toNat < 2 ^ d.ulongWidth then some (BitVec.ofNat _ b.toNat) else none

/-- `operator~`: `Flags(~mFlags & (~std::bitset<_Nb>()).to_ulong())`. -/
def compl (f : Flags d U N) : Option (Flags d U N) :=
  (toUlong d (~~~(0 : BitVec N))).map fun mask =>
    ⟨convert (d.arith (d.promote U) d.ulong) U
      (d.bitwise .and (d.promote U) d.ulong (d.complement U f.mFlags) mask)⟩

def set (f : Flags d U N) (flag : Enum U) (value : Bool := true) : Option (Flags d U N) :=
  if value then some (f.orAssignEnum flag)
  else (ofEnum flag : Flags d U N).compl.map f.andAssign

def reset (f : Flags d U N) (flag : Enum U) : Option (Flags d U N) :=
  (ofEnum flag : Flags d U N).compl.map f.andAssign

def resetAll (_ : Flags d U N) : Flags d U N := ⟨0⟩

def eq (lhs rhs : Flags d U N) : Bool := d.equal U U lhs.mFlags rhs.mFlags

instance : BEq (Flags d U N) := ⟨eq⟩

def ne (lhs rhs : Flags d U N) : Bool := !(lhs == rhs)

def enumEnumOr (N : ℕ) (lhs rhs : Enum U) : Flags d U N := (ofList [lhs]).orEnum rhs
def enumEnumAnd (N : ℕ) (lhs rhs : Enum U) : Flags d U N := (ofList [lhs]).andEnum rhs
def enumEnumXor (N : ℕ) (lhs rhs : Enum U) : Flags d U N := (ofList [lhs]).xorEnum rhs

@[ext] theorem ext {f g : Flags d U N} (h : f.mFlags = g.mFlags) : f = g := by
  cases f; cases g; cases h; rfl

@[simp] theorem mFlags_combine (op : BitOp) (lhs rhs : BitVec U.width) :
    (combine op lhs rhs : Flags d U N).mFlags = op.eval lhs rhs := by
  ext i
  have hi : (i : ℕ) < (d.arith U U).width := Nat.lt_of_lt_of_le i.isLt (width_le_arith_left U U)
  simp [combine, getLsbD_convert, hi]

theorem mFlags_ofList (flags : List (Enum U)) :
    (ofList flags : Flags d U N).mFlags = flags.foldl (fun m flag => m ||| flag.val) 0 := by
  unfold ofList
  rw [← List.foldl_hom Flags.mFlags (fun f flag => combine .or f.mFlags (toUnderlying flag))]
  · rfl
  · intro f flag
    simp [BitOp.eval, toUnderlying]

theorem toUlong_not_zero (h : N ≤ d.ulongWidth) :
    toUlong d (~~~(0 : BitVec N)) = some (BitVec.ofNat _ (2 ^ N - 1)) := by
  have : 2 ^ N - 1 < 2 ^ d.ulongWidth :=
    Nat.lt_of_lt_of_le (Nat.sub_lt (Nat.two_pow_pos N) Nat.one_pos) (Nat.pow_le_pow_right (by decide) h)
  simp [toUlong, this]

theorem bit_mask (h : N ≤ d.ulongWidth) (i : ℕ) :
    d.ulong.bit (BitVec.ofNat d.ulongWidth (2 ^ N - 1)) i = decide (i < N) := by
  simp only [IntType.bit, DataModel.ulong]
  split
  · simp [BitVec.getLsbD_ofNat]; omega
  · simp; omega

theorem compl_eq (h : N ≤ d.ulongWidth) (f : Flags d U N) :
    f.compl = some ⟨~~~f.mFlags &&& (BitVec.allOnes N).setWidth U.width⟩ := by
  simp only [compl, toUlong_not_zero h, Option.map_some', Option.some.injEq]
  ext i
  have hp : (i : ℕ) < (d.promote U).width := Nat.lt_of_lt_of_le i.isLt (width_le_promote U)
  have ha : (i : ℕ) < (d.arith (d.promote U) d.ulong).width :=
    Nat.lt_of_lt_of_le hp (width_le_arith_left _ _)
  simp [getLsbD_convert, ha, hp, BitOp.bool, DataModel.complement, bit_mask h, Bool.and_comm]

theorem compl_eq_none (h : d.ulongWidth < N) (f : Flags d U N) : f.compl = none := by
  have : 2 ^ d.ulongWidth ≤ 2 ^ N - 1 :=
    Nat.le_sub_one_of_lt (Nat.pow_lt_pow_right (by decide) h)
  simp [compl, toUlong, Nat.not_lt.mpr this]

theorem test_iff (f : Flags d U N) (flag : Enum U) :
    f.test flag = true ↔ f.mFlags &&& flag.val = flag.val := by
  simp only [test, equal_iff_bit, bit_bitwise_self, toUnderlying, BitOp.bool]
  constructor
  · intro h
    ext i
    simpa [i.isLt] using h i (Nat.lt_of_lt_of_le i.isLt (width_le_arith_right _ _))
  · intro h i _
    have := bit_eval (t := U) (i := i) .and f.mFlags flag.val
    simp only [BitOp.eval, BitOp.bool] at this
    rw [← this, h]

theorem toBool_iff (f : Flags d U N) : f.toBool = true ↔ f.mFlags ≠ 0 := by
  rw [toBool, Bool.not_eq_true', ← Bool.not_eq_true, equal_iff]

theorem beq_iff (a b : Flags d U N) : (a == b) = true ↔ a.mFlags = b.mFlags :=
  equal_iff _ _

end Flags

end FlagsClass
