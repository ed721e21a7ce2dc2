import Mathlib.Data.List.Basic

/-! `_gpgmepp::split_into_string_views` from util.cpp, with the `std::strchr` and `std::strlen`
it calls. The input is the null pointer or the bytes readable from `s` on; a view is an offset
from `s` and a length. A library call returns its result and the addresses it read, in order; a
read past the last readable byte is undefined behaviour, so the result is `none` and the address
stays in the list of reads. The `while` loop is run with a bound on its calls of `strchr`, which
the top level sets past the readable bytes. In the lemmas, a C string in memory is its NUL-free
bytes `s`, the NUL, and the bytes `m` after it. -/
namespace CStringScan

/-- `strchr` from address `p`, where `bytes` are the bytes stored from `p` on: the address of
the first `c`, or the null pointer when the terminating NUL comes first. The NUL is part of the
string, so `c = 0` finds it. -/
def strchrFrom (c : UInt8) : List UInt8 → ℕ → Option (Option ℕ) × List ℕ
  | [], p => (none, [p])
  | b :: bs, p =>
    if b = c then (some (some p), [p])
    else if b = 0 then (some none, [p])
    else ((strchrFrom c bs (p + 1)).1, p :: (strchrFrom c bs (p + 1)).2)

def strchr (mem : List UInt8) (s : ℕ) (c : UInt8) : Option (Option ℕ) × List ℕ :=
  strchrFrom c (mem.drop s) s

def strlenFrom : List UInt8 → ℕ → Option ℕ × List ℕ
  | [], p => (none, [p])
  | b :: bs, p =>
    if b = 0 then (some 0, [p])
    else ((strlenFrom bs (p + 1)).1.map (· + 1), p :: (strlenFrom bs (p + 1)).2)

def strlen (mem : List UInt8) (s : ℕ) : Option ℕ × List ℕ := strlenFrom (mem.drop s) s

variable {c : UInt8} {a l : List UInt8} {p : ℕ}

theorem strchrFrom_append (hc : c ∉ a) (h0 : (0 : UInt8) ∉ a) (l : List UInt8) (p : ℕ) :
    strchrFrom c (a ++ l) p =
      ((strchrFrom c l (p + a.length)).1,
        List.range' p a.length ++ (strchrFrom c l (p + a.length)).2) := by
  induction a generalizing p with
  | nil => simp
  | cons b a ih =>
    have hbc : b ≠ c := fun h => hc (h ▸ List.mem_cons_self b a)
    have hb0 : b ≠ 0 := fun h => h0 (h ▸ List.mem_cons_self b a)
    simp only [List.mem_cons, not_or] at hc h0
    simp [strchrFrom, hbc, hb0, ih hc.2 h0.2 (p + 1), List.range'_succ, Nat.add_assoc,
      Nat.add_comm 1]

@[simp] theorem strchrFrom_hit (l : List UInt8) (p : ℕ) :
    strchrFrom c (c :: l) p = (some (some p), [p]) := by
  simp [strchrFrom]

theorem strchrFrom_nul (hc : c ≠ 0) (l : List UInt8) (p : ℕ) :
    strchrFrom c (0 :: l) p = (some none, [p]) := by
  simp [strchrFrom, Ne.symm hc]

theorem strlenFrom_append (h0 : (0 : UInt8) ∉ a) (l : List UInt8) (p : ℕ) :
    strlenFrom (a ++ 0 :: l) p = (some a.length, List.range' p (a.length + 1)) := by
  induction a generalizing p with
  | nil => simp [strlenFrom]
  | cons b a ih =>
    have hb0 : b ≠ 0 := fun h => h0 (h ▸ List.mem_cons_self b a)
    simp only [List.mem_cons, not_or] at h0
    simp [strlenFrom, hb0, ih h0.2 (p + 1), List.range'_succ]

theorem eq_append_cons_of_mem {α : Type} [DecidableEq α] {x : α} :
    ∀ {t : List α}, x ∈ t → ∃ a b, t = a ++ x :: b ∧ x ∉ a
  | y :: t, h =>
    if hy : y = x then ⟨[], t, by simp [hy], by simp⟩
    else
      have ⟨a, b, hab, hx⟩ := eq_append_cons_of_mem ((List.mem_cons.mp h).resolve_left (Ne.symm hy))
      ⟨y :: a, b, by simp [hab], by simp [Ne.symm hy, hx]⟩

end CStringScan

namespace SplitIntoStringViews

open CStringScan

structure StringView where
  offset : ℕ
  size : ℕ
  deriving DecidableEq, Repr

def StringView.content (v : StringView) (s : List UInt8) : List UInt8 :=
  (s.drop v.offset).take v.size

/-- `while (const char *segment_end = std::strchr(s, delimiter)) { ... }` and the `strlen`
after it, from scan pointer `s`; `fuel` bounds the calls of `strchr`. -/
def splitLoop (mem : List UInt8) (delimiter : UInt8) :
    ℕ → ℕ → List StringView → Option (List StringView) × List ℕ
  | 0, _, _ => (none, [])
  | fuel + 1, s, result =>
    match strchr mem s delimiter with
    | (none, r) => (none, r)
    | (some (some segmentEnd), r) =>
      let next := splitLoop mem delimiter fuel (segmentEnd + 1)
        (if segmentEnd - s ≠ 0 then result ++ [⟨s, segmentEnd - s⟩] else result)
      (next.1, r ++ next.2)
    | (some none, r) =>
      match strlen mem s with
      | (none, r') => (none, r ++ r')
      | (some segmentSize, r') =>
        (some (if segmentSize ≠ 0 then result ++ [⟨s, segmentSize⟩] else result), r ++ r')

def splitIntoStringViews (s : Option (List UInt8)) (delimiter : UInt8) :
    Option (List StringView) × List ℕ :=
  match s with
  | none => (some [], [])
  | some mem => splitLoop mem delimiter (mem.length + 1) 0 []

/-- The views of `pieces` laid out from offset `o`, each piece followed by one delimiter
byte: one view per non-empty piece. -/
def pieceViews : ℕ → List (List UInt8) → List StringView
  | _, [] => []
  | o, piece :: pieces =>
    (if piece = [] then [] else [⟨o, piece.length⟩]) ++ pieceViews (o + piece.length + 1) pieces

variable {s m : List UInt8} {d : UInt8}

theorem drop_cstring {p : ℕ} (hp : p ≤ s.length) : (s ++ 0 :: m).drop p = s.drop p ++ 0 :: m :=
  List.drop_append_of_le_length hp

theorem strchr_found (hs : (0 : UInt8) ∉ s) {p : ℕ} (hp : p ≤ s.length) {a b : List UInt8}
    (hab : s.drop p = a ++ d :: b) (ha : d ∉ a) :
    strchr (s ++ 0 :: m) p d = (some (some (p + a.length)), List.range' p (a.length + 1)) := by
  have h0 : (0 : UInt8) ∉ a := fun h => hs (List.mem_of_mem_drop (hab ▸ List.mem_append_left _ h))
  rw [strchr, drop_cstring hp, hab, List.append_assoc, List.cons_append, strchrFrom_append ha h0]
  simp [List.range'_1_concat]

theorem strchr_missing (hs : (0 : UInt8) ∉ s) (hd : d ≠ 0) {p : ℕ} (hp : p ≤ s.length)
    (hnot : d ∉ s.drop p) :
    strchr (s ++ 0 :: m) p d = (some none, List.range' p (s.length - p + 1)) := by
  have h0 : (0 : UInt8) ∉ s.drop p := fun h => hs (List.mem_of_mem_drop h)
  rw [strchr, drop_cstring hp, strchrFrom_append hnot h0, strchrFrom_nul hd]
  simp [List.range'_1_concat]

theorem strlen_cstring (hs : (0 : UInt8) ∉ s) {p : ℕ} (hp : p ≤ s.length) :
    strlen (s ++ 0 :: m) p = (some (s.length - p), List.range' p (s.length - p + 1)) := by
  have h0 : (0 : UInt8) ∉ s.drop p := fun h => hs (List.mem_of_mem_drop h)
  rw [strlen, drop_cstring hp, strlenFrom_append h0]
  simp

theorem splitOn_append_cons {a b : List UInt8} (ha : d ∉ a) :
    (a ++ d :: b).splitOn d = a :: b.splitOn d :=
  List.splitOnP_first (· == d) a (fun x hx hxd => ha (by rwa [← beq_iff_eq.mp hxd])) d
    (beq_self_eq_true d) b

theorem splitOn_of_not_mem {t : List UInt8} (h : d ∉ t) : t.splitOn d = [t] :=
  List.splitOnP_eq_single (· == d) t (fun x hx hxd => h (by rwa [← beq_iff_eq.mp hxd]))

/-- From a scan pointer at a segment boundary, the loop returns the views of the pieces of the
rest of the string, and reads only addresses from the pointer up to the NUL. -/
theorem splitLoop_cstring (hs : (0 : UInt8) ∉ s) (hd : d ≠ 0) :
    ∀ (fuel p : ℕ) (acc : List StringView), p ≤ s.length → s.length - p < fuel →
      (splitLoop (s ++ 0 :: m) d fuel p acc).1 =
        some (acc ++ pieceViews p ((s.drop p).splitOn d)) ∧
      ∀ x ∈ (splitLoop (s ++ 0 :: m) d fuel p acc).2, p ≤ x ∧ x ≤ s.length
  | 0, _, _, _, hf => absurd hf (Nat.not_lt_zero _)
  | fuel + 1, p, acc, hp, hf => by
    by_cases hmem : d ∈ s.drop p
    · obtain ⟨a, b, hab, ha⟩ := CStringScan.eq_append_cons_of_mem hmem
      have hlen := congrArg List.length hab
      simp only [List.length_drop, List.length_append, List.length_cons] at hlen
      have hdrop : s.drop (p + a.length + 1) = b := by
        rw [Nat.add_assoc, ← List.drop_drop, hab]
        simp
      have ih := splitLoop_cstring hs hd fuel (p + a.length + 1)
        (if p + a.length - p ≠ 0 then acc ++ [⟨p, p + a.length - p⟩] else acc) (by omega) (by omega)
      rw [hdrop] at ih
      simp only [splitLoop, strchr_found hs hp hab ha]
      refine ⟨?_, fun x hx => ?_⟩
      · rw [ih.1, hab, splitOn_append_cons ha, pieceViews]
        by_cases h0 : a = [] <;> simp [h0, Nat.add_sub_cancel_left]
      · rcases List.mem_append.mp hx with hx | hx
        · simp only [List.mem_range'_1] at hx
          omega
        · have := ih.2 x hx
          omega
    · simp only [splitLoop, strchr_missing hs hd hp hmem, strlen_cstring hs hp]
      refine ⟨?_, fun x hx => ?_⟩
      · rw [splitOn_of_not_mem hmem]
        by_cases h0 : s.length - p = 0
        · have : s.drop p = [] := List.drop_eq_nil_of_le (by omega)
          simp [h0, this, pieceViews]
        · have : s.drop p ≠ [] := fun h => h0 (by simpa using congrArg List.length h)
          simp [h0, this, pieceViews]
      · simp only [List.mem_append, List.mem_range'_1, or_self] at hx
        omega

theorem splitLoop_fuel_add {mem : List UInt8} :
    ∀ (fuel k p : ℕ) (acc : List StringView) (v : List StringView),
      (splitLoop mem d fuel p acc).1 = some v →
        splitLoop mem d (fuel + k) p acc = splitLoop mem d fuel p acc
  | 0, _, _, _, _, h => by simp [splitLoop] at h
  | fuel + 1, k, p, acc, v, h => by
    rw [Nat.add_right_comm]
    simp only [splitLoop] at h ⊢
    split
    · rfl
    · next r heq =>
      rw [heq] at h
      rw [splitLoop_fuel_add fuel k _ _ v h]
    · rfl

/-- For a delimiter other than NUL the loop ends within `strlen(s) + 1` calls of `strchr`,
that bounded run is the run of the code, and no read goes past the terminating NUL. -/
theorem split_terminates_within_string (hs : (0 : UInt8) ∉ s) (hd : d ≠ 0) :
    (splitLoop (s ++ 0 :: m) d (s.length + 1) 0 []).1.isSome ∧
    splitIntoStringViews (some (s ++ 0 :: m)) d =
      splitLoop (s ++ 0 :: m) d (s.length + 1) 0 [] ∧
    ∀ x ∈ (splitIntoStringViews (some (s ++ 0 :: m)) d).2, x ≤ s.length := by
  have h := splitLoop_cstring (m := m) hs hd (s.length + 1) 0 [] (Nat.zero_le _) (by omega)
  have heq : splitIntoStringViews (some (s ++ 0 :: m)) d =
      splitLoop (s ++ 0 :: m) d (s.length + 1) 0 [] := by
    have hf : (s ++ 0 :: m).length + 1 = (s.length + 1) + (m.length + 1) := by
      simp only [List.length_append, List.length_cons]; omega
    simp only [splitIntoStringViews, hf]
    exact splitLoop_fuel_add _ _ _ _ _ h.1
  refine ⟨by rw [h.1]; rfl, heq, fun x hx => (h.2 x (heq ▸ hx)).2⟩

theorem split_terminates_within_string_abc :
    (0 : UInt8) ∉ [97, 44, 98] ∧ (44 : UInt8) ≠ 0 ∧
      ∀ x ∈ (splitIntoStringViews (some ([97, 44, 98] ++ 0 :: [])) 44).2, x ≤ 3 :=
  ⟨by decide, by decide, (split_terminates_within_string (s := [97, 44, 98]) (m := [])
    (by decide) (by decide)).2.2⟩

/-- With NUL as delimiter `strchr` finds the terminator, and the loop goes on one past it. -/
theorem split_nul_delimiter_reads_past_nul :
    ¬ ∀ x ∈ (splitIntoStringViews (some [97, 0]) 0).2, x ≤ 1 := by
  decide

end SplitIntoStringViews
