import Mathlib.Order.Defs.Unbundled
import Mathlib.Data.List.Basic

/-! `_gpgmepp_strcmp` and the comparison functors `GPGMEPP_MAKE_STRCMP(Name, expr)` generates,
from global.h. A `const char *` is the null pointer or a NUL-free byte string, and `strcmp` is
the sign of the comparison of unsigned bytes, a proper prefix coming first. -/
namespace Strcmp

/-- The bytes of a C string before its terminating NUL. -/
@[ext] structure CString where
  bytes : List UInt8
  nul_free : (0 : UInt8) ∉ bytes
  deriving DecidableEq

def strcmp : List UInt8 → List UInt8 → ℤ
  | [], [] => 0
  | [], _ :: _ => -1
  | _ :: _, [] => 1
  | a :: as, b :: bs => if a < b then -1 else if b < a then 1 else strcmp as bs

/-- `s1 ? s2 ? std::strcmp(s1, s2) : 1 : s2 ? -1 : 0`. -/
def gpgmeppStrcmp : Option CString → Option CString → ℤ
  | some s1, some s2 => strcmp s1.bytes s2.bytes
  | some _, none => 1
  | none, some _ => -1
  | none, none => 0

inductive StrArg
  | cstr (p : Option CString)
  | str (s : List UInt8)

def cStr (s : List UInt8) : Option CString :=
  some ⟨s.takeWhile (· ≠ 0), fun h => by simpa using List.mem_takeWhile_imp h⟩

inductive Arg (T : Type)
  | str (k : StrArg)
  | obj (t : T)

variable {T : Type}

def callCStr (Op : ℤ → ℤ → Bool) (lhs rhs : Option CString) : Bool :=
  Op (gpgmeppStrcmp lhs rhs) 0

def callStr (Op : ℤ → ℤ → Bool) : StrArg → StrArg → Bool
  | .cstr lhs, .cstr rhs => callCStr Op lhs rhs
  | .str lhs, .str rhs => callCStr Op (cStr lhs) (cStr rhs)
  | .cstr lhs, .str rhs => callCStr Op lhs (cStr rhs)
  | .str lhs, .cstr rhs => callCStr Op (cStr lhs) rhs

/-- `Name<Op>::operator()`, all nine overloads: an object goes through `(obj expr)`. -/
def gpgmeppMakeStrcmp (Op : ℤ → ℤ → Bool) (expr : T → StrArg) : Arg T → Arg T → Bool
  | .str lhs, .str rhs => callStr Op lhs rhs
  | .obj lhs, .obj rhs => callStr Op (expr lhs) (expr rhs)
  | .obj lhs, .str rhs => callStr Op (expr lhs) rhs
  | .str lhs, .obj rhs => callStr Op lhs (expr rhs)

def StrArg.toCStr : StrArg → Option CString
  | .cstr p => p
  | .str s => cStr s

def Arg.toCStr (expr : T → StrArg) : Arg T → Option CString
  | .str k => k.toCStr
  | .obj t => (expr t).toCStr

theorem byte_trichotomy (x y : UInt8) : x < y ∨ x = y ∨ y < x := by
  rcases Nat.lt_trichotomy x.toNat y.toNat with h | h | h
  · exact .inl h
  · exact .inr (.inl (UInt8.toNat.inj h))
  · exact .inr (.inr h)

theorem strcmp_swap : ∀ a b : List UInt8, strcmp b a = -strcmp a b
  | [], [] => rfl
  | [], _ :: _ => rfl
  | _ :: _, [] => rfl
  | x :: a, y :: b => by
    rcases byte_trichotomy x y with h | rfl | h
    · simp [strcmp, h, UInt8.lt_asymm h]
    · simp [strcmp, strcmp_swap a b]
    · simp [strcmp, h, UInt8.lt_asymm h]

theorem strcmp_eq_zero_iff : ∀ a b : List UInt8, strcmp a b = 0 ↔ a = b
  | [], [] => by simp [strcmp]
  | [], _ :: _ => by simp [strcmp]
  | _ :: _, [] => by simp [strcmp]
  | x :: a, y :: b => by
    rcases byte_trichotomy x y with h | rfl | h
    · simp [strcmp, h, UInt8.ne_of_lt h]
    · simp [strcmp, strcmp_eq_zero_iff a b]
    · simp [strcmp, h, UInt8.lt_asymm h, (UInt8.ne_of_lt h).symm]

theorem strcmp_cons_neg {x y : UInt8} {a b : List UInt8} :
    strcmp (x :: a) (y :: b) < 0 ↔ x < y ∨ (x = y ∧ strcmp a b < 0) := by
  rcases byte_trichotomy x y with h | rfl | h
  · simp [strcmp, h]
  · simp [strcmp]
  · simp [strcmp, h, UInt8.lt_asymm h, (UInt8.ne_of_lt h).symm]

theorem strcmp_neg_trans : ∀ a b c : List UInt8, strcmp a b < 0 → strcmp b c < 0 → strcmp a c < 0
  | a, [], _, h, _ => by cases a <;> simp [strcmp] at h
  | _, _ :: _, [], _, h => by simp [strcmp] at h
  | [], _ :: _, _ :: _, _, _ => by simp [strcmp]
  | x :: a, y :: b, z :: c, h₁, h₂ => by
    rw [strcmp_cons_neg] at *
    rcases h₁ with h₁ | ⟨rfl, h₁⟩ <;> rcases h₂ with h₂ | ⟨rfl, h₂⟩
    · exact .inl (UInt8.lt_trans h₁ h₂)
    · exact .inl h₁
    · exact .inl h₂
    · exact .inr ⟨rfl, strcmp_neg_trans a b c h₁ h₂⟩

theorem gpgmeppStrcmp_swap (a b : Option CString) : gpgmeppStrcmp b a = -gpgmeppStrcmp a b := by
  cases a <;> cases b <;> first | rfl | exact strcmp_swap _ _

theorem gpgmeppStrcmp_eq_zero_iff (a b : Option CString) : gpgmeppStrcmp a b = 0 ↔ a = b := by
  cases a <;> cases b <;> simp [gpgmeppStrcmp, strcmp_eq_zero_iff, CString.ext_iff]

theorem gpgmeppStrcmp_neg_trans {a b c : Option CString} (h₁ : gpgmeppStrcmp a b < 0)
    (h₂ : gpgmeppStrcmp b c < 0) : gpgmeppStrcmp a c < 0 := by
  cases a <;> cases b <;> cases c <;> simp_all [gpgmeppStrcmp]
  exact strcmp_neg_trans _ _ _ h₁ h₂

theorem callStr_eq (Op : ℤ → ℤ → Bool) (lhs rhs : StrArg) :
    callStr Op lhs rhs = Op (gpgmeppStrcmp lhs.toCStr rhs.toCStr) 0 := by
  cases lhs <;> cases rhs <;> rfl

theorem gpgmeppMakeStrcmp_eq (Op : ℤ → ℤ → Bool) (expr : T → StrArg) (lhs rhs : Arg T) :
    gpgmeppMakeStrcmp Op expr lhs rhs =
      Op (gpgmeppStrcmp (lhs.toCStr expr) (rhs.toCStr expr)) 0 := by
  cases lhs <;> cases rhs <;> exact callStr_eq _ _ _

def less (expr : T → StrArg) (lhs rhs : Arg T) : Prop :=
  gpgmeppMakeStrcmp (fun x y => decide (x < y)) expr lhs rhs = true

theorem less_iff (expr : T → StrArg) (lhs rhs : Arg T) :
    less expr lhs rhs ↔ gpgmeppStrcmp (lhs.toCStr expr) (rhs.toCStr expr) < 0 := by
  simp [less, gpgmeppMakeStrcmp_eq]

theorem incomparable_iff (expr : T → StrArg) (lhs rhs : Arg T) :
    ¬less expr lhs rhs ∧ ¬less expr rhs lhs ↔ lhs.toCStr expr = rhs.toCStr expr := by
  rw [less_iff, less_iff, gpgmeppStrcmp_swap (lhs.toCStr expr), ← gpgmeppStrcmp_eq_zero_iff]
  omega

theorem less_isStrictWeakOrder (expr : T → StrArg) : IsStrictWeakOrder (Arg T) (less expr) where
  irrefl a h := by
    rw [less_iff, (gpgmeppStrcmp_eq_zero_iff _ _).mpr rfl] at h
    exact Int.lt_irrefl 0 h
  trans a b c h₁ h₂ := (less_iff expr a c).mpr <|
    gpgmeppStrcmp_neg_trans ((less_iff expr a b).mp h₁) ((less_iff expr b c).mp h₂)
  incomp_trans a b c h₁ h₂ := (incomparable_iff expr a c).mpr <|
    ((incomparable_iff expr a b).mp h₁).trans ((incomparable_iff expr b c).mp h₂)

/-- `_gpgmepp_strcmp` orders nullable strings totally with null first; every overload of a
generated functor compares the C strings of its arguments; and `Name<std::less>` is a strict
weak order on all argument kinds together. -/
theorem gpgmepp_strcmp_strict_order (Op : ℤ → ℤ → Bool) (expr : T → StrArg) :
    (∀ a b : Option CString, (gpgmeppStrcmp a b).sign = -(gpgmeppStrcmp b a).sign) ∧
    (∀ a b : Option CString, gpgmeppStrcmp a b = 0 ↔ a = b) ∧
    (∀ a b c : Option CString,
      gpgmeppStrcmp a b < 0 → gpgmeppStrcmp b c < 0 → gpgmeppStrcmp a c < 0) ∧
    (∀ s : CString, gpgmeppStrcmp none (some s) < 0) ∧
    (∀ lhs rhs : Arg T, gpgmeppMakeStrcmp Op expr lhs rhs =
      Op (gpgmeppStrcmp (lhs.toCStr expr) (rhs.toCStr expr)) 0) ∧
    IsStrictWeakOrder (Arg T) (less expr) :=
  ⟨fun a b => by rw [gpgmeppStrcmp_swap a b, Int.sign_neg, Int.neg_neg], gpgmeppStrcmp_eq_zero_iff,
    fun _ _ _ => gpgmeppStrcmp_neg_trans, fun _ => by simp [gpgmeppStrcmp], gpgmeppMakeStrcmp_eq Op expr,
    less_isStrictWeakOrder expr⟩

end Strcmp
