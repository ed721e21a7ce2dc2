import Mathlib.Data.List.Basic

/-! `GpgME::Error` from error.cpp. What the class calls in gpgme and libgpg-error is a parameter,
`GpgErrorLib`, taken as error.cpp sees it. The process-wide `errno` is an explicit argument (or
the result, for `setErrno` and `setSystemError`), and `format_error` writes into a stack buffer
whose earlier contents are an argument too. `asString()` formats into the cached message only
while it is empty; `asStringRun` is a sequence of its calls. -/
namespace ErrorClass

/-- The functions and constants of gpgme and libgpg-error that error.cpp uses. `strerrorR err
size` is what `gpgme_strerror_r(err, buffer, size)` writes from `buffer` on, and
`codeFromSyserror` reads the current `errno`. The cancel codes differ from the success code. -/
structure GpgErrorLib where
  errCode : UInt32 → ℕ
  errSource : UInt32 → ℕ
  errMake : ℕ → ℕ → UInt32
  strerrorR : UInt32 → ℕ → List UInt8
  strsource : UInt32 → List UInt8
  codeToErrno : ℕ → ℤ
  codeFromErrno : ℤ → ℕ
  codeFromSyserror : ℤ → ℕ
  noError : ℕ
  canceled : ℕ
  fullyCanceled : ℕ
  missingErrno : ℕ
  canceled_ne : canceled ≠ noError
  fullyCanceled_ne : fullyCanceled ≠ noError

structure Error where
  mErr : UInt32
  mMessage : List UInt8
  deriving DecidableEq

structure Buffer where
  bytes : List UInt8
  length_eq : bytes.length = 1024

def Buffer.write (b : Buffer) (w : List UInt8) : Buffer :=
  ⟨(w ++ b.bytes.drop w.length).take 1024, by simp [b.length_eq]; omega⟩

def Buffer.set (b : Buffer) (i : ℕ) (x : UInt8) : Buffer :=
  ⟨b.bytes.set i x, by simp [b.length_eq]⟩

def Buffer.cString (b : Buffer) : Option (List UInt8) :=
  if (0 : UInt8) ∈ b.bytes then some (b.bytes.takeWhile (· ≠ 0)) else none

variable (lib : GpgErrorLib)

/-- `format_error(err, str)`: `gpgme_strerror_r` into the uninitialised buffer `junk`, then
`buffer[sizeof buffer - 1] = '\0'` and `str = buffer`. -/
def formatError (junk : Buffer) (err : UInt32) : Option (List UInt8) :=
  ((junk.write (lib.strerrorR err 1024)).set 1023 0).cString

namespace Error

def source (e : Error) : List UInt8 := lib.strsource e.mErr

def asString (junk : Buffer) (e : Error) : Option (List UInt8 × Error) :=
  if e.mMessage = [] then (formatError lib junk e.mErr).map fun m => (m, { e with mMessage := m })
  else some (e.mMessage, e)

def asStdString (junk : Buffer) (e : Error) : Option (List UInt8) := formatError lib junk e.mErr

def code (e : Error) : ℕ := lib.errCode e.mErr

def sourceID (e : Error) : ℕ := lib.errSource e.mErr

def toErrno (e : Error) : ℤ := lib.codeToErrno (e.code lib)

def hasSystemError (errno : ℤ) : Bool := lib.codeFromSyserror errno != lib.missingErrno

def setSystemError (err : ℕ) : ℤ := lib.codeToErrno err

def setErrno (err : ℤ) : ℤ := err

def ofEncoded (err : UInt32) : Error := ⟨err, []⟩

def fromSystemError (errno : ℤ) (src : ℕ) : Error :=
  ofEncoded (lib.errMake src (lib.codeFromSyserror errno))

def fromErrno (err : ℤ) (src : ℕ) : Error := ofEncoded (lib.errMake src (lib.codeFromErrno err))

def fromCode (err src : ℕ) : Error := ofEncoded (lib.errMake src err)

end Error

theorem bytes_set_last (b : Buffer) (x : UInt8) :
    (b.set 1023 x).bytes = b.bytes.take 1023 ++ [x] := by
  simp [Buffer.set, List.set_eq_take_append_cons_drop, b.length_eq, List.drop_eq_nil_of_le]

theorem takeWhile_append_nul (a r : List UInt8) :
    (a ++ 0 :: r).takeWhile (· ≠ 0) = a.takeWhile (· ≠ 0) := by
  induction a with
  | nil => simp
  | cons x a ih =>
    by_cases hx : x = 0
    · simp [hx]
    · simpa [hx] using ih

theorem formatError_eq (junk : Buffer) (err : UInt32) :
    formatError lib junk err =
      some (((lib.strerrorR err 1024 ++ junk.bytes.drop (lib.strerrorR err 1024).length).take
        1023).takeWhile (· ≠ 0)) := by
  rw [formatError, Buffer.cString, bytes_set_last, takeWhile_append_nul, if_pos (by simp),
    Buffer.write, List.take_take]
  rfl

/-- What `gpgme_strerror_r(err, buffer, size)` writes for a description `d`: `d` and its NUL
when they fit; otherwise at most `size` bytes, starting with the first `size - 1` of `d`. -/
def WritesDescription (d w : List UInt8) (size : ℕ) : Prop :=
  (d.length < size ∧ w = d ++ [0]) ∨ (size ≤ d.length + 1 ∧ d.take (size - 1) <+: w ∧ w.length ≤ size)

theorem formatError_description {d : List UInt8} (hd : (0 : UInt8) ∉ d) (junk : Buffer)
    {err : UInt32} (hw : WritesDescription d (lib.strerrorR err 1024) 1024) :
    formatError lib junk err = some (d.take 1023) := by
  have hpos : ∀ x ∈ d, decide (x ≠ 0) = true := fun x hx => decide_eq_true fun h => hd (h ▸ hx)
  have hfree : ∀ t : List UInt8, t <+: d → t.takeWhile (· ≠ 0) = t := fun t ht =>
    List.takeWhile_eq_self_iff.mpr fun x hx => hpos x (ht.subset hx)
  rw [formatError_eq]
  rcases hw with ⟨hlen, hw⟩ | ⟨hlen, ⟨t, ht⟩, -⟩
  · rw [hw, List.append_assoc, List.take_append_eq_append_take, List.take_of_length_le (by omega),
      List.takeWhile_append_of_pos hpos]
    cases 1023 - d.length <;> simp
  · have hlen' : (d.take (1024 - 1)).length = 1023 := by simp; omega
    rw [← ht, List.append_assoc, List.take_append_of_le_length (by omega),
      List.take_of_length_le (by omega), hfree _ (List.take_prefix _ _)]

def CacheOk (d : List UInt8) (e : Error) : Prop := e.mMessage = [] ∨ e.mMessage = d.take 1023

def asStringRun : List Buffer → Error → Option (List (List UInt8) × Error)
  | [], e => some ([], e)
  | junk :: junks, e => (e.asString lib junk).bind fun (m, e') =>
    (asStringRun junks e').map fun (ms, e'') => (m :: ms, e'')

section Cache

variable {lib} {d : List UInt8} {e : Error}

theorem asString_step (hd : (0 : UInt8) ∉ d)
    (hw : WritesDescription d (lib.strerrorR e.mErr 1024) 1024) (he : CacheOk d e)
    (junk : Buffer) :
    ∃ e', e.asString lib junk = some (d.take 1023, e') ∧ e'.mErr = e.mErr ∧ CacheOk d e' := by
  by_cases hm : e.mMessage = []
  · exact ⟨{ e with mMessage := d.take 1023 }, by
      simp [Error.asString, hm, formatError_description lib hd junk hw], rfl, .inr rfl⟩
  · refine ⟨e, ?_, rfl, he⟩
    rw [Error.asString, if_neg hm, he.resolve_left hm]

theorem asStringRun_eq (hd : (0 : UInt8) ∉ d) :
    ∀ (junks : List Buffer) (e : Error), WritesDescription d (lib.strerrorR e.mErr 1024) 1024 →
      CacheOk d e → ∃ e', asStringRun lib junks e =
        some (List.replicate junks.length (d.take 1023), e') ∧ e'.mErr = e.mErr ∧ CacheOk d e'
  | [], e, _, he => ⟨e, rfl, rfl, he⟩
  | junk :: junks, e, hw, he => by
    obtain ⟨e₁, h₁, hmErr, he₁⟩ := asString_step hd hw he junk
    obtain ⟨e₂, h₂, hmErr₂, he₂⟩ := asStringRun_eq hd junks e₁ (hmErr ▸ hw) he₁
    exact ⟨e₂, by simp [asStringRun, h₁, h₂, List.replicate_succ], hmErr₂.trans hmErr, he₂⟩

end Cache

/-- Whatever the stack held and whatever the library wrote, `format_error` reads only inside its
buffer and returns at most 1023 bytes, none of them NUL; when the library writes a description,
`asString()` returns that description cut to 1023 bytes on every call, the same string
`asStdString()` formats afresh, and never changes the encoded error. -/
theorem as_string_memo (junk : Buffer) (err : UInt32) {d : List UInt8} {e : Error}
    (hd : (0 : UInt8) ∉ d) (hw : WritesDescription d (lib.strerrorR e.mErr 1024) 1024)
    (he : CacheOk d e) (junks : List Buffer) :
    (∃ m, formatError lib junk err = some m ∧ m.length ≤ 1023 ∧ (0 : UInt8) ∉ m) ∧
    e.asStdString lib junk = some (d.take 1023) ∧
    ∃ e', asStringRun lib junks e = some (List.replicate junks.length (d.take 1023), e') ∧
      e'.mErr = e.mErr ∧ CacheOk d e' := by
  refine ⟨⟨_, formatError_eq lib junk err, ?_, ?_⟩, formatError_description lib hd junk hw,
    asStringRun_eq hd junks e hw he⟩
  · exact (List.takeWhile_prefix _).length_le.trans (List.length_take_le _ _)
  · exact fun h => by simpa using List.mem_takeWhile_imp h

def okLib : GpgErrorLib where
  errCode x := x.toNat
  errSource _ := 0
  errMake _ code := UInt32.ofNat code
  strerrorR _ size := ([79, 75, 0] : List UInt8).take size
  strsource _ := []
  codeToErrno code := code
  codeFromErrno err := err.toNat
  codeFromSyserror err := err.toNat
  noError := 0
  canceled := 1
  fullyCanceled := 2
  missingErrno := 3
  canceled_ne := by decide
  fullyCanceled_ne := by decide

theorem as_string_memo_ok :
    let junk : Buffer := ⟨List.replicate 1024 170, List.length_replicate _ _⟩
    (0 : UInt8) ∉ [79, 75] ∧ WritesDescription [79, 75] (okLib.strerrorR 0 1024) 1024 ∧
    CacheOk [79, 75] (Error.ofEncoded 0) ∧
    (∃ m, formatError okLib junk 0 = some m ∧ m.length ≤ 1023 ∧ (0 : UInt8) ∉ m) ∧
    (Error.ofEncoded 0).asStdString okLib junk = some ([79, 75].take 1023) ∧
    ∃ e', asStringRun okLib [junk, junk] (Error.ofEncoded 0) =
        some (List.replicate 2 ([79, 75].take 1023), e') ∧
      e'.mErr = (Error.ofEncoded 0).mErr ∧ CacheOk [79, 75] e' :=
  ⟨by decide, .inl ⟨by decide, rfl⟩, .inl rfl,
    as_string_memo okLib _ 0 (by decide) (.inl ⟨by decide, rfl⟩) (.inl rfl) _⟩

end ErrorClass
