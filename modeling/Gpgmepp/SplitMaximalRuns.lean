import Gpgmepp.SplitIntoStringViews

/-! What `split_into_string_views` returns, stated on the string alone: the maximal runs of
bytes other than the delimiter, in increasing order, whose contents are the non-empty pieces
of `splitOn`. -/
namespace SplitMaximalRuns

open SplitIntoStringViews

variable {d : UInt8}

/-- The bytes from `offset` on, `size` of them, are a maximal non-empty run of bytes other
than `d` in `s`. -/
structure IsMaximalRun (s : List UInt8) (d : UInt8) (offset size : ℕ) : Prop where
  size_pos : 0 < size
  end_le : offset + size ≤ s.length
  no_delimiter : ∀ i, offset ≤ i → i < offset + size → s[i]? ≠ some d
  left_bounded : offset = 0 ∨ s[offset - 1]? = some d
  right_bounded : offset + size = s.length ∨ s[offset + size]? = some d

theorem splitOn_induction {motive : List UInt8 → Prop} (none : ∀ t, d ∉ t → motive t)
    (cons : ∀ a b, d ∉ a → motive b → motive (a ++ d :: b)) (t : List UInt8) : motive t := by
  suffices ∀ n t, t.length = n → motive t from this _ t rfl
  intro n
  induction n using Nat.strong_induction_on with
  | _ n ih =>
    intro t h
    by_cases hd : d ∈ t
    · obtain ⟨a, b, rfl, ha⟩ := CStringScan.eq_append_cons_of_mem hd
      exact cons a b ha (ih b.length (by simp [← h]; omega) b rfl)
    · exact none t hd

theorem getElem?_append_cons_of_lt {a b : List UInt8} {i : ℕ} (h : i < a.length) :
    (a ++ d :: b)[i]? = a[i]? :=
  List.getElem?_append_left h

theorem getElem?_append_cons_self {a b : List UInt8} : (a ++ d :: b)[a.length]? = some d := by
  rw [List.getElem?_append_right (le_refl _)]
  simp

theorem getElem?_append_cons_of_gt {a b : List UInt8} {i : ℕ} (h : a.length < i) :
    (a ++ d :: b)[i]? = b[i - (a.length + 1)]? := by
  rw [List.getElem?_append_right (by omega), List.getElem?_cons, if_neg (by omega), Nat.sub_sub]

theorem isMaximalRun_of_not_mem {t : List UInt8} (h : d ∉ t) (o l : ℕ) :
    IsMaximalRun t d o l ↔ o = 0 ∧ l = t.length ∧ t ≠ [] := by
  constructor
  · intro hv
    have ho : o = 0 := hv.left_bounded.resolve_right fun e => h (List.getElem?_mem e)
    have hs : o + l = t.length := hv.right_bounded.resolve_right fun e => h (List.getElem?_mem e)
    have := hv.size_pos
    exact ⟨ho, by omega, fun ht => by simp [ht] at hs; omega⟩
  · rintro ⟨rfl, rfl, hne⟩
    exact ⟨List.length_pos.mpr hne, by simp, fun i _ _ e => h (List.getElem?_mem e), .inl rfl,
      .inl (Nat.zero_add _)⟩

theorem isMaximalRun_append_cons_head {a b : List UInt8} (ha : d ∉ a) {o l : ℕ}
    (hk : o ≤ a.length) : IsMaximalRun (a ++ d :: b) d o l ↔ o = 0 ∧ l = a.length ∧ a ≠ [] := by
  have hnot : ∀ i, a[i]? ≠ some d := fun i e => ha (List.getElem?_mem e)
  constructor
  · intro hv
    have hpos := hv.size_pos
    have hl : o + l ≤ a.length := Nat.not_lt.mp fun hc =>
      hv.no_delimiter a.length hk hc getElem?_append_cons_self
    have ho : o = 0 := by
      by_contra h0
      exact hnot (o - 1) ((getElem?_append_cons_of_lt (by omega)).symm.trans
        (hv.left_bounded.resolve_left h0))
    have hr : o + l = a.length := by
      rcases hv.right_bounded with e | e
      · simp at e
        omega
      · by_contra hne
        exact hnot (o + l) ((getElem?_append_cons_of_lt (by omega)).symm.trans e)
    exact ⟨ho, by omega, fun h => by simp [h] at hr; omega⟩
  · rintro ⟨rfl, rfl, hne⟩
    exact ⟨List.length_pos.mpr hne, by simp, fun i _ h2 e =>
      hnot i ((getElem?_append_cons_of_lt (by simpa using h2)).symm.trans e), .inl rfl,
      .inr (by simpa using getElem?_append_cons_self)⟩

theorem isMaximalRun_append_cons_shift {a b : List UInt8} (k l : ℕ) :
    IsMaximalRun (a ++ d :: b) d (a.length + 1 + k) l ↔ IsMaximalRun b d k l := by
  have hget : ∀ j, (a ++ d :: b)[a.length + 1 + j]? = b[j]? := fun j => by
    rw [getElem?_append_cons_of_gt (by omega), Nat.add_sub_cancel_left]
  have hlen : (a ++ d :: b).length = a.length + 1 + b.length := by simp; omega
  have hleft : (a.length + 1 + k = 0 ∨ (a ++ d :: b)[a.length + 1 + k - 1]? = some d) ↔
      (k = 0 ∨ b[k - 1]? = some d) := by
    rcases k with _ | k
    · simpa using getElem?_append_cons_self
    · simp only [Nat.add_sub_cancel, Nat.add_eq_zero, Nat.add_succ_sub_one, hget]
      simp
  have hright : (a.length + 1 + k + l = (a ++ d :: b).length ∨
      (a ++ d :: b)[a.length + 1 + k + l]? = some d) ↔ (k + l = b.length ∨ b[k + l]? = some d) := by
    rw [hlen, Nat.add_assoc _ k, hget, Nat.add_left_cancel_iff]
  constructor
  · intro h
    refine ⟨h.size_pos, by have := h.end_le; omega, fun i h1 h2 e => ?_, hleft.mp h.left_bounded,
      hright.mp h.right_bounded⟩
    exact h.no_delimiter (a.length + 1 + i) (by omega) (by omega) (by rwa [hget])
  · intro h
    refine ⟨h.size_pos, by have := h.end_le; omega, fun i h1 h2 e => ?_, hleft.mpr h.left_bounded,
      hright.mpr h.right_bounded⟩
    exact h.no_delimiter (i - (a.length + 1)) (by omega) (by omega)
      (by rwa [← hget, show a.length + 1 + (i - (a.length + 1)) = i by omega])

theorem isMaximalRun_append_cons {a b : List UInt8} (ha : d ∉ a) (o l : ℕ) :
    IsMaximalRun (a ++ d :: b) d o l ↔
      (o = 0 ∧ l = a.length ∧ a ≠ []) ∨
      (a.length < o ∧ IsMaximalRun b d (o - (a.length + 1)) l) := by
  by_cases hk : o ≤ a.length
  · rw [isMaximalRun_append_cons_head ha hk]
    simp [Nat.not_lt.mpr hk]
  · obtain ⟨k, rfl⟩ : ∃ k, o = a.length + 1 + k := ⟨o - (a.length + 1), by omega⟩
    have h1 : a.length + 1 + k ≠ 0 := by omega
    have h2 : a.length < a.length + 1 + k := by omega
    rw [isMaximalRun_append_cons_shift, Nat.add_sub_cancel_left]
    simp [h1, h2]

theorem mem_ite_singleton {a : List UInt8} {o : ℕ} {v : StringView} :
    v ∈ (if a = [] then [] else [⟨o, a.length⟩]) ↔ a ≠ [] ∧ v = ⟨o, a.length⟩ := by
  split <;> simp_all

/-- The views of the pieces of `t` are exactly its maximal runs, shifted by `o`. -/
theorem mem_pieceViews_splitOn (t : List UInt8) :
    ∀ (o : ℕ) (v : StringView), v ∈ pieceViews o (t.splitOn d) ↔
      o ≤ v.offset ∧ IsMaximalRun t d (v.offset - o) v.size := by
  induction t using splitOn_induction (d := d) with
  | none t h =>
    intro o v
    rw [splitOn_of_not_mem h, isMaximalRun_of_not_mem h]
    by_cases ht : t = []
    · simp [pieceViews, ht]
    · cases v
      simp [pieceViews, ht]
      omega
  | cons a b ha ih =>
    intro o v
    rw [splitOn_append_cons ha, pieceViews, List.mem_append, mem_ite_singleton, ih,
      isMaximalRun_append_cons ha, Nat.sub_sub, ← Nat.add_assoc]
    obtain ⟨off, size⟩ := v
    simp only [StringView.mk.injEq]
    constructor
    · rintro (⟨ha0, rfl, rfl⟩ | ⟨h1, h2⟩)
      · exact ⟨le_rfl, .inl ⟨Nat.sub_self _, rfl, ha0⟩⟩
      · exact ⟨by omega, .inr ⟨by omega, h2⟩⟩
    · rintro ⟨h1, ⟨h2, h3, h4⟩ | ⟨h2, h3⟩⟩
      · exact .inl ⟨h4, by omega, h3⟩
      · exact .inr ⟨by omega, h3⟩

theorem offset_le_of_mem_pieceViews :
    ∀ {ps : List (List UInt8)} {o : ℕ} {v : StringView}, v ∈ pieceViews o ps → o ≤ v.offset
  | [], _, _, h => by simp [pieceViews] at h
  | p :: ps, o, v, h => by
    rw [pieceViews, List.mem_append] at h
    rcases h with h | h
    · split at h <;> simp_all
    · have := offset_le_of_mem_pieceViews h
      omega

theorem pieceViews_pairwise :
    ∀ (ps : List (List UInt8)) (o : ℕ), (pieceViews o ps).Pairwise (·.offset < ·.offset)
  | [], _ => List.Pairwise.nil
  | p :: ps, o => by
    rw [pieceViews, List.pairwise_append]
    refine ⟨by split <;> simp, pieceViews_pairwise ps _, fun v hv w hw => ?_⟩
    have := offset_le_of_mem_pieceViews hw
    split at hv <;> simp at hv
    subst hv
    simp only
    omega

theorem content_pieceViews_splitOn (t : List UInt8) :
    ∀ pre : List UInt8, (pieceViews pre.length (t.splitOn d)).map (·.content (pre ++ t)) =
      (t.splitOn d).filter (· ≠ []) := by
  induction t using splitOn_induction (d := d) with
  | none t h =>
    intro pre
    rw [splitOn_of_not_mem h]
    by_cases ht : t = [] <;> simp [pieceViews, ht, StringView.content]
  | cons a b ha ih =>
    intro pre
    have hpre := ih (pre ++ a ++ [d])
    simp only [List.length_append, List.length_singleton, List.append_assoc,
      List.singleton_append, ← Nat.add_assoc] at hpre
    rw [splitOn_append_cons ha, pieceViews, List.map_append, hpre]
    by_cases ha0 : a = [] <;> simp [ha0, StringView.content, List.filter_cons]

theorem exists_pieceViews_covering (t : List UInt8) :
    ∀ (o i : ℕ), i < t.length → t[i]? ≠ some d →
      ∃ v ∈ pieceViews o (t.splitOn d), v.offset ≤ o + i ∧ o + i < v.offset + v.size := by
  induction t using splitOn_induction (d := d) with
  | none t h =>
    intro o i hi _
    have ht : t ≠ [] := fun e => by simp [e] at hi
    exact ⟨⟨o, t.length⟩, by simp [splitOn_of_not_mem h, pieceViews, ht], by simp, by simp; omega⟩
  | cons a b ha ih =>
    intro o i hi hne
    rw [splitOn_append_cons ha, pieceViews]
    rcases Nat.lt_trichotomy i a.length with hlt | heq | hgt
    · have ha0 : a ≠ [] := fun e => by simp [e] at hlt
      exact ⟨⟨o, a.length⟩, by simp [ha0], by simp, by simp; omega⟩
    · exact absurd (heq ▸ getElem?_append_cons_self) hne
    · have hb : i - (a.length + 1) < b.length := by simp at hi; omega
      obtain ⟨v, hv, h1, h2⟩ := ih (o + a.length + 1) (i - (a.length + 1)) hb
        (by rwa [← getElem?_append_cons_of_gt hgt])
      exact ⟨v, List.mem_append_right _ hv, by omega, by omega⟩

theorem IsMaximalRun.le_of_covers {s : List UInt8} {o₁ l₁ o₂ l₂ i : ℕ}
    (h₁ : IsMaximalRun s d o₁ l₁) (h₂ : IsMaximalRun s d o₂ l₂)
    (hi₁ : o₁ ≤ i ∧ i < o₁ + l₁) (hi₂ : o₂ ≤ i ∧ i < o₂ + l₂) :
    o₂ ≤ o₁ ∧ o₂ + l₂ ≤ o₁ + l₁ := by
  have := h₂.end_le
  constructor
  · by_contra h
    exact h₁.no_delimiter (o₂ - 1) (by omega) (by omega) (h₂.left_bounded.resolve_left (by omega))
  · by_contra h
    exact h₂.no_delimiter (o₁ + l₁) (by omega) (by omega)
      (h₁.right_bounded.resolve_left (by omega))

theorem IsMaximalRun.eq_of_covers {s : List UInt8} {o₁ l₁ o₂ l₂ i : ℕ}
    (h₁ : IsMaximalRun s d o₁ l₁) (h₂ : IsMaximalRun s d o₂ l₂)
    (hi₁ : o₁ ≤ i ∧ i < o₁ + l₁) (hi₂ : o₂ ≤ i ∧ i < o₂ + l₂) : o₁ = o₂ ∧ l₁ = l₂ := by
  have := h₁.le_of_covers h₂ hi₁ hi₂
  have := h₂.le_of_covers h₁ hi₂ hi₁
  omega

theorem IsMaximalRun.not_mem_content {s : List UInt8} {o l : ℕ} (h : IsMaximalRun s d o l) :
    d ∉ (s.drop o).take l := by
  intro hm
  obtain ⟨j, hj⟩ := List.mem_iff_getElem?.mp hm
  rw [List.getElem?_take] at hj
  split at hj
  · rw [List.getElem?_drop] at hj
    exact h.no_delimiter (o + j) (by omega) (by omega) hj
  · simp at hj

/-- For a delimiter other than NUL the views are the maximal runs of bytes other than it, in
increasing order of offset; their contents are the non-empty pieces of `splitOn`; and every
other byte lies in exactly one view. The null pointer gives no views. -/
theorem split_views_maximal_runs {s m : List UInt8} (hs : (0 : UInt8) ∉ s) (hd : d ≠ 0) :
    (splitIntoStringViews none d).1 = some [] ∧
    ∃ views, (splitIntoStringViews (some (s ++ 0 :: m)) d).1 = some views ∧
      views.Pairwise (·.offset < ·.offset) ∧
      (∀ v, v ∈ views ↔ IsMaximalRun s d v.offset v.size) ∧
      views.map (·.content s) = (s.splitOn d).filter (· ≠ []) ∧
      (∀ v ∈ views, 0 < v.size ∧ d ∉ v.content s) ∧
      ∀ i < s.length, s[i]? ≠ some d →
        ∃! v, v ∈ views ∧ v.offset ≤ i ∧ i < v.offset + v.size := by
  have hrun := split_terminates_within_string (m := m) hs hd
  have hloop := (splitLoop_cstring (m := m) hs hd (s.length + 1) 0 [] (Nat.zero_le _)
    (by omega)).1
  simp only [List.drop_zero, List.nil_append] at hloop
  have hmem : ∀ v, v ∈ pieceViews 0 (s.splitOn d) ↔ IsMaximalRun s d v.offset v.size :=
    fun v => by simpa using mem_pieceViews_splitOn s 0 v
  refine ⟨rfl, pieceViews 0 (s.splitOn d), by rw [hrun.2.1, hloop], pieceViews_pairwise _ 0,
    hmem, by simpa using content_pieceViews_splitOn s [], fun v hv => ?_, fun i hi hne => ?_⟩
  · exact ⟨((hmem v).mp hv).size_pos, ((hmem v).mp hv).not_mem_content⟩
  · obtain ⟨v, hv, h1, h2⟩ := exists_pieceViews_covering s 0 i hi hne
    simp only [Nat.zero_add] at h1 h2
    refine ⟨v, ⟨hv, h1, h2⟩, fun w ⟨hw, h3, h4⟩ => ?_⟩
    obtain ⟨ho, hl⟩ := ((hmem w).mp hw).eq_of_covers ((hmem v).mp hv) ⟨h3, h4⟩ ⟨h1, h2⟩
    cases w
    cases v
    simp_all

theorem split_views_maximal_runs_abc :
    (0 : UInt8) ∉ [97, 44, 44, 98] ∧ (44 : UInt8) ≠ 0 ∧
      ∃ views, (splitIntoStringViews (some ([97, 44, 44, 98] ++ 0 :: [])) 44).1 = some views ∧
        ∀ v, v ∈ views ↔ IsMaximalRun [97, 44, 44, 98] 44 v.offset v.size :=
  have ⟨views, h, _, hm, _⟩ := (split_views_maximal_runs (s := [97, 44, 44, 98]) (m := [])
    (by decide) (by decide)).2
  ⟨by decide, by decide, views, h, hm⟩

example : (splitIntoStringViews (some [97, 98, 99, 44, 44, 100, 101, 102, 0]) 44).1 =
    some [⟨0, 3⟩, ⟨5, 3⟩] := by
  decide

end SplitMaximalRuns
