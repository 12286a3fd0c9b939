import Mathlib

/-! # Page geometry

Ranges of addresses cut into pages of `P` bytes. `gap` is the rest of the last
page, `span` the number of pages a range adds to those already begun before it.
Both depend on an address only through its offset in its page.
-/

namespace VcmallocBench.Paging

variable {P : ℕ}

def gap (P a : ℕ) : ℕ := (a ⌈/⌉ P) * P - a

/-- Pages begun by the `n` bytes from `a` that the bytes before `a` have not begun. -/
def span (P a n : ℕ) : ℕ := (a + n) ⌈/⌉ P - a ⌈/⌉ P

theorem le_ceil_mul (hP : 0 < P) (a : ℕ) : a ≤ (a ⌈/⌉ P) * P := by
  simpa [mul_comm] using le_smul_ceilDiv (b := a) hP

theorem ceil_mul_lt (hP : 0 < P) (a : ℕ) : (a ⌈/⌉ P) * P < a + P := by
  have h := Nat.div_mul_le_self (a + P - 1) P
  rw [Nat.ceilDiv_eq_add_pred_div]
  omega

theorem ceil_le_iff (hP : 0 < P) {a k : ℕ} : a ⌈/⌉ P ≤ k ↔ a ≤ k * P := by
  rw [ceilDiv_le_iff_le_mul hP, mul_comm]

theorem ceil_mono (hP : 0 < P) {a b : ℕ} (h : a ≤ b) : a ⌈/⌉ P ≤ b ⌈/⌉ P :=
  (ceil_le_iff hP).mpr (h.trans (le_ceil_mul hP b))

@[simp] theorem ceil_mul_self (hP : 0 < P) (k : ℕ) : (k * P) ⌈/⌉ P = k := by
  refine le_antisymm ((ceil_le_iff hP).mpr le_rfl) ?_
  exact Nat.le_of_mul_le_mul_right (le_ceil_mul hP (k * P)) hP

theorem ceil_add_mul (hP : 0 < P) (a k : ℕ) : (a + k * P) ⌈/⌉ P = a ⌈/⌉ P + k := by
  rw [Nat.ceilDiv_eq_add_pred_div, Nat.ceilDiv_eq_add_pred_div, ← Nat.add_mul_div_right _ _ hP]
  congr 1
  omega

theorem ceil_pos (hP : 0 < P) {a : ℕ} (h : 0 < a) : 0 < a ⌈/⌉ P := by
  by_contra hn
  have := (ceil_le_iff hP).mp (Nat.le_of_not_lt hn)
  omega

theorem add_gap (hP : 0 < P) (a : ℕ) : a + gap P a = (a ⌈/⌉ P) * P :=
  Nat.add_sub_cancel' (le_ceil_mul hP a)

theorem gap_lt (hP : 0 < P) (a : ℕ) : gap P a < P := by
  have := ceil_mul_lt hP a
  unfold gap; omega

theorem gap_add_mul (hP : 0 < P) (a k : ℕ) : gap P (a + k * P) = gap P a := by
  have h₁ := add_gap hP (a + k * P)
  have h₂ := add_gap hP a
  rw [ceil_add_mul hP, add_mul] at h₁
  omega

theorem gap_mod (hP : 0 < P) (a : ℕ) : gap P (a % P) = gap P a := by
  conv_rhs => rw [← Nat.mod_add_div a P, mul_comm P, gap_add_mul hP]

theorem gap_congr (hP : 0 < P) {a b : ℕ} (h : a % P = b % P) : gap P a = gap P b := by
  rw [← gap_mod hP a, h, gap_mod hP]

theorem gap_of_dvd (hP : 0 < P) {a : ℕ} (h : P ∣ a) : gap P a = 0 := by
  obtain ⟨k, rfl⟩ := h
  rw [gap, mul_comm P, ceil_mul_self hP, Nat.sub_self]

theorem dvd_add_gap (hP : 0 < P) (a : ℕ) : P ∣ a + gap P a := by
  rw [add_gap hP]; exact Nat.dvd_mul_left ..

theorem page_of_gap (hP : 0 < P) {a : ℕ} (h : 0 < gap P a) :
    a / P + 1 = a ⌈/⌉ P ∧ a % P + gap P a = P := by
  have hg := add_gap hP a
  have hl := gap_lt hP a
  have hd := Nat.div_add_mod a P
  have hm := Nat.mod_lt a hP
  have hle : a ⌈/⌉ P ≤ a / P + 1 := by
    rw [ceil_le_iff hP, add_mul, one_mul, mul_comm]; omega
  have hge : a / P + 1 ≤ a ⌈/⌉ P := by
    have : a / P < a ⌈/⌉ P := by
      refine Nat.div_lt_of_lt_mul ?_
      rw [mul_comm]; omega
    omega
  have he : a / P + 1 = a ⌈/⌉ P := le_antisymm hge hle
  refine ⟨he, ?_⟩
  rw [← he, add_mul, one_mul, mul_comm] at hg
  omega

theorem gap_eq_of_mod (hP : 0 < P) {a : ℕ} (h : a % P ≠ 0) : gap P a = P - a % P := by
  have hm := Nat.mod_lt a hP
  have hpos : 0 < gap P a := by
    by_contra hn
    have hd := dvd_add_gap hP a
    rw [Nat.eq_zero_of_not_pos hn, add_zero] at hd
    exact h (Nat.eq_zero_of_dvd_of_lt ((Nat.dvd_mod_iff dvd_rfl).mpr hd) hm)
  have := (page_of_gap hP hpos).2
  omega

theorem div_lt_ceil (hP : 0 < P) {a x : ℕ} (h : x < a) : x / P < a ⌈/⌉ P := by
  refine Nat.div_lt_of_lt_mul ?_
  rw [mul_comm]; exact h.trans_le (le_ceil_mul hP a)

theorem ceil_le_div_succ (hP : 0 < P) {a x : ℕ} (h : a ≤ x) : a ⌈/⌉ P ≤ x / P + 1 := by
  rw [ceil_le_iff hP, add_mul, one_mul]
  have := Nat.div_add_mod x P
  have := Nat.mod_lt x hP
  rw [mul_comm]; omega

theorem span_add_ceil (hP : 0 < P) (a n : ℕ) : a ⌈/⌉ P + span P a n = (a + n) ⌈/⌉ P :=
  Nat.add_sub_cancel' (ceil_mono hP (Nat.le_add_right a n))

theorem span_add_mul (hP : 0 < P) (a n k : ℕ) : span P (a + k * P) n = span P a n := by
  have h : a + k * P + n = a + n + k * P := by omega
  rw [span, span, h, ceil_add_mul hP, ceil_add_mul hP, Nat.add_sub_add_right]

theorem span_mod (hP : 0 < P) (a n : ℕ) : span P (a % P) n = span P a n := by
  conv_rhs => rw [← Nat.mod_add_div a P, mul_comm P, span_add_mul hP]

theorem span_congr (hP : 0 < P) {a b : ℕ} (h : a % P = b % P) (n : ℕ) :
    span P a n = span P b n := by
  rw [← span_mod hP a, h, span_mod hP]

theorem add_gap_eq_span (hP : 0 < P) (a n : ℕ) :
    n + gap P (a + n) = span P a n * P + gap P a := by
  have h₁ := add_gap hP (a + n)
  have h₂ := add_gap hP a
  have h₃ := span_add_ceil hP a n
  rw [← h₃, add_mul] at h₁
  omega

theorem span_grow (hP : 0 < P) (a n m : ℕ) : span P a (n + m * P) = span P a n + m := by
  rw [span, ← add_assoc, ceil_add_mul hP, span, Nat.sub_add_comm (ceil_mono hP (by omega))]

theorem span_of_le_gap (hP : 0 < P) {a n : ℕ} (h : n ≤ gap P a) : span P a n = 0 := by
  have hle : (a + n) ⌈/⌉ P ≤ a ⌈/⌉ P := by
    rw [ceil_le_iff hP, ← add_gap hP]
    exact Nat.add_le_add_left h a
  exact Nat.sub_eq_zero_of_le hle

theorem span_of_gap_le (hP : 0 < P) {a n : ℕ} (h : gap P a ≤ n) :
    span P a n = (n - gap P a) ⌈/⌉ P := by
  have hsum : a + n = n - gap P a + a ⌈/⌉ P * P := by
    rw [← add_gap hP]
    omega
  rw [span, hsum, ceil_add_mul hP, Nat.add_sub_cancel]

theorem span_le_of_le (hP : 0 < P) {a m n : ℕ} (h : m ≤ n) : span P a m ≤ span P a n :=
  Nat.sub_le_sub_right (ceil_mono hP (by omega)) _

theorem span_sub (hP : 0 < P) {a n r : ℕ} (hr : r ≤ n) (h : r + gap P (a + n) < P) :
    span P a (n - r) = span P a n := by
  refine le_antisymm (span_le_of_le hP (Nat.sub_le n r)) (Nat.sub_le_sub_right ?_ _)
  have h₁ := add_gap hP (a + n)
  have h₂ := le_ceil_mul hP (a + (n - r))
  by_contra hlt
  have h₃ := Nat.mul_le_mul_right P (Nat.succ_le_of_lt (not_le.mp hlt))
  rw [Nat.succ_mul] at h₃
  omega

/-- A divisor of the page size divides what is left between two gaps as soon as it divides the
bytes of the range. -/
theorem dvd_pages {s a n k : ℕ} (hP : 0 < P) (hs : s ∣ P) (hn : s ∣ n)
    (hk : gap P (a + n) ≤ k * P + gap P a) : s ∣ k * P + gap P a - gap P (a + n) := by
  have he := add_gap_eq_span hP a n
  rcases le_total (span P a n) k with h | h
  · obtain ⟨m, rfl⟩ := Nat.exists_eq_add_of_le h
    rw [add_mul, show span P a n * P + m * P + gap P a - gap P (a + n) = n + m * P by omega]
    exact dvd_add hn (hs.mul_left m)
  · obtain ⟨m, hm⟩ := Nat.exists_eq_add_of_le h
    rw [hm, add_mul] at he
    rw [show k * P + gap P a - gap P (a + n) = n - m * P by omega]
    exact Nat.dvd_sub hn (hs.mul_left m)

theorem move_pages (hP : 0 < P) {a m n : ℕ} (h : m * P ≤ a + n * P) :
    (a + n * P - m * P) / P + m = a / P + n ∧ (a + n * P - m * P) % P = a % P := by
  have he : a + n * P - m * P + m * P = a + n * P := Nat.sub_add_cancel h
  have hdiv := congrArg (· / P) he
  have hmod := congrArg (· % P) he
  simp only [Nat.add_mul_div_right _ _ hP, Nat.add_mul_mod_self_right] at hdiv hmod
  exact ⟨hdiv, hmod⟩

end VcmallocBench.Paging
