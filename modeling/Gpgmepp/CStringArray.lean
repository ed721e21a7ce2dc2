import Mathlib.Data.List.Range

/-! `StringsToCStrings` from util.cpp: a list of strings and, built by the first call of
`c_strs()`, the null-terminated array of their C strings that gpgme takes. A pointer in the array
is `some i` for `m_strings[i].c_str()` and `none` for `nullptr`. -/
namespace CStringArray

structure StringsToCStrings where
  mStrings : List (List UInt8)
  mCstrings : List (Option ℕ)
  deriving DecidableEq

namespace StringsToCStrings

def ofStrings (v : List (List UInt8)) : StringsToCStrings := ⟨v, []⟩

/-- `c_strs()`: when the array is empty, one `c_str()` per string and a `nullptr` are pushed;
the array is returned. -/
def cStrs (t : StringsToCStrings) : List (Option ℕ) × StringsToCStrings :=
  if t.mCstrings = [] then
    let cstrings := (List.range t.mStrings.length).map some ++ [none]
    (cstrings, { t with mCstrings := cstrings })
  else (t.mCstrings, t)

def cStrsRun : ℕ → StringsToCStrings → List (List (Option ℕ)) × StringsToCStrings
  | 0, t => ([], t)
  | k + 1, t => ((cStrs t).1 :: (cStrsRun k (cStrs t).2).1, (cStrsRun k (cStrs t).2).2)

end StringsToCStrings

def argv (n : ℕ) : List (Option ℕ) := (List.range n).map some ++ [none]

theorem getElem?_argv (n i : ℕ) :
    (argv n)[i]? = if i < n then some (some i) else if i = n then some none else none := by
  rw [argv, List.getElem?_append]
  split_ifs with h₁ h₂ h₃ h₃ <;> simp_all [List.getElem?_range]
  omega

open StringsToCStrings

def ArrayOk (t : StringsToCStrings) : Prop := t.mCstrings = [] ∨ t.mCstrings = argv t.mStrings.length

theorem cStrs_step {t : StringsToCStrings} (h : ArrayOk t) :
    (cStrs t).1 = argv t.mStrings.length ∧ (cStrs t).2.mStrings = t.mStrings ∧ ArrayOk (cStrs t).2 := by
  by_cases he : t.mCstrings = []
  · simp [cStrs, he, ArrayOk, argv]
  · rw [cStrs, if_neg he]
    exact ⟨h.resolve_left he, rfl, h⟩

theorem cStrsRun_eq :
    ∀ (k : ℕ) (t : StringsToCStrings), ArrayOk t →
      (cStrsRun k t).1 = List.replicate k (argv t.mStrings.length) ∧
      (cStrsRun k t).2.mStrings = t.mStrings ∧ ArrayOk (cStrsRun k t).2
  | 0, _, h => ⟨rfl, rfl, h⟩
  | k + 1, t, h => by
    obtain ⟨h₁, h₂, h₃⟩ := cStrs_step h
    obtain ⟨ih₁, ih₂, ih₃⟩ := cStrsRun_eq k _ h₃
    rw [h₂] at ih₁ ih₂
    exact ⟨by rw [cStrsRun, ih₁, h₁, List.replicate_succ], ih₂, ih₃⟩

/-- Every call of `c_strs()` on `StringsToCStrings(v)` returns the same array: one pointer to
each string of `v`, in order, then `nullptr`; the strings are never changed. -/
theorem c_strs_null_terminated (v : List (List UInt8)) (k : ℕ) :
    (cStrsRun k (ofStrings v)).1 = List.replicate k (argv v.length) ∧
    (cStrsRun k (ofStrings v)).2.mStrings = v ∧
    ∀ i, (argv v.length)[i]? =
      if i < v.length then some (some i) else if i = v.length then some none else none :=
  let h := cStrsRun_eq k (ofStrings v) (.inl rfl)
  ⟨h.1, h.2.1, getElem?_argv v.length⟩

end CStringArray
