import Mathlib

/-! # Machine words

Unsigned 64-bit arithmetic on natural numbers with the wrap written out, the
signed reading of a word, page masks, and the rounding of a word to a double.
-/

namespace VcmallocBench

/-- The value a 64-bit register holds after a result that may have overflowed. -/
def u64 (n : ℕ) : ℕ := n % 2 ^ 64

def sub64 (a b : ℕ) : ℕ := (a + 2 ^ 64 - b) % 2 ^ 64

def int64 (n : ℕ) : ℤ := if n < 2 ^ 63 then n else (n : ℤ) - 2 ^ 64

def pageMask (p : ℕ) : ℕ := 2 ^ 64 - p

theorem u64_lt (n : ℕ) : u64 n < 2 ^ 64 := Nat.mod_lt _ (by decide)

theorem u64_of_lt {n : ℕ} (h : n < 2 ^ 64) : u64 n = n := Nat.mod_eq_of_lt h

@[simp] theorem u64_u64 (n : ℕ) : u64 (u64 n) = u64 n := u64_of_lt (u64_lt n)

@[simp] theorem u64_add_u64 (a b : ℕ) : u64 (a + u64 b) = u64 (a + b) := by
  simp [u64, Nat.add_mod]

@[simp] theorem u64_u64_add (a b : ℕ) : u64 (u64 a + b) = u64 (a + b) := by
  simp [u64, Nat.add_mod]

theorem sub64_lt (a b : ℕ) : sub64 a b < 2 ^ 64 := Nat.mod_lt _ (by decide)

theorem sub64_of_le {a b : ℕ} (h : b ≤ a) (ha : a < 2 ^ 64) : sub64 a b = a - b := by
  unfold sub64; omega

@[simp] theorem sub64_zero (a : ℕ) : sub64 a 0 = u64 a := by
  unfold sub64 u64; omega

/-- A wrapped difference is the true one as soon as the true one is a word. -/
theorem sub64_u64 {a b : ℕ} (h : b ≤ a) (hd : a - b < 2 ^ 64) :
    sub64 (u64 a) (u64 b) = a - b := by
  unfold sub64 u64; omega

theorem sub64_sub64 {a b c : ℕ} (h : b + c ≤ a) (ha : a < 2 ^ 64) :
    sub64 (sub64 a b) c = a - (b + c) := by
  unfold sub64; omega

theorem sub64_zero_sub {a b : ℕ} (h : a ≤ b) : sub64 0 (u64 (b - a)) = sub64 (u64 a) (u64 b) := by
  unfold sub64 u64; omega

theorem u64_sub {a b : ℕ} (h : b ≤ a) : u64 (a - b) = sub64 (u64 a) (u64 b) := by
  unfold sub64 u64; omega

theorem u64_add_sub64 {r a b : ℕ} (h : b ≤ r + a) (hlt : r + a - b < 2 ^ 64) :
    u64 (r + sub64 (u64 a) (u64 b)) = r + a - b := by
  unfold sub64 u64; omega

theorem and_mask (n k : ℕ) : n &&& (2 ^ k - 1) = n % 2 ^ k := Nat.and_two_pow_sub_one_eq_mod n k

theorem testBit_two_pow_sub_two_pow {k m : ℕ} (h : k ≤ m) (i : ℕ) :
    (2 ^ m - 2 ^ k).testBit i = (decide (k ≤ i) && decide (i < m)) := by
  have he : 2 ^ m - 2 ^ k = (2 ^ (m - k) - 1) * 2 ^ k := by
    rw [Nat.sub_mul, one_mul, ← pow_add, Nat.sub_add_cancel h]
  rw [he, Nat.testBit_mul_two_pow, Nat.testBit_two_pow_sub_one]
  by_cases hk : k ≤ i
  · have hi : (i - k < m - k) ↔ i < m := by omega
    simp [hk, hi]
  · simp [hk]

theorem and_pageMask {n k : ℕ} (hn : n < 2 ^ 64) (hk : k ≤ 64) :
    n &&& pageMask (2 ^ k) = n - n % 2 ^ k := by
  have hd : n - n % 2 ^ k = (n / 2 ^ k) * 2 ^ k := by
    have := Nat.div_add_mod n (2 ^ k)
    rw [mul_comm] at this
    omega
  rw [hd]
  refine Nat.eq_of_testBit_eq fun i => ?_
  rw [Nat.testBit_and, pageMask, testBit_two_pow_sub_two_pow hk, Nat.testBit_mul_two_pow,
    Nat.testBit_div_two_pow]
  by_cases hi : k ≤ i
  · by_cases h64 : i < 64
    · simp [hi, h64]
    · have : n.testBit i = false :=
        Nat.testBit_lt_two_pow (lt_of_lt_of_le hn (Nat.pow_le_pow_right (by decide) (by omega)))
      simp [hi, h64, this]
  · simp [hi]

/-- The double nearest to a word, ties to an even significand. Every such double is an integer. -/
def toDouble (n : ℕ) : ℕ :=
  if n < 2 ^ 53 then n
  else
    let ulp := 2 ^ (n.log2 - 52)
    let q := n / ulp
    let r := n % ulp
    if 2 * r < ulp ∨ 2 * r = ulp ∧ q % 2 = 0 then q * ulp else (q + 1) * ulp

theorem toDouble_of_lt {n : ℕ} (h : n < 2 ^ 53) : toDouble n = n := if_pos h

@[simp] theorem toDouble_zero : toDouble 0 = 0 := toDouble_of_lt (by decide)

theorem ulp_le_div {n : ℕ} (h : 2 ^ 53 ≤ n) :
    2 ^ 52 ≤ n / 2 ^ (n.log2 - 52) ∧ n / 2 ^ (n.log2 - 52) < 2 ^ 53 := by
  have hn : n ≠ 0 := by rintro rfl; exact absurd h (by decide)
  have hl : 53 ≤ n.log2 := (Nat.le_log2 hn).mpr h
  have hlo : 2 ^ 52 * 2 ^ (n.log2 - 52) ≤ n := by
    rw [← pow_add, Nat.add_sub_cancel' (by omega)]; exact Nat.log2_self_le hn
  have hhi : n < 2 ^ 53 * 2 ^ (n.log2 - 52) := by
    rw [← pow_add, show 53 + (n.log2 - 52) = n.log2 + 1 by omega]; exact Nat.lt_log2_self
  exact ⟨(Nat.le_div_iff_mul_le (by positivity)).mpr hlo, (Nat.div_lt_iff_lt_mul (by positivity)).mpr hhi⟩

theorem le_toDouble {n : ℕ} (h : 2 ^ 53 ≤ n) : 2 ^ 53 ≤ toDouble n := by
  have hn : n ≠ 0 := by rintro rfl; exact absurd h (by decide)
  have hl : 53 ≤ n.log2 := (Nat.le_log2 hn).mpr h
  have hu : 2 ≤ 2 ^ (n.log2 - 52) := by
    calc 2 = 2 ^ 1 := rfl
      _ ≤ 2 ^ (n.log2 - 52) := Nat.pow_le_pow_right (by decide) (by omega)
  obtain ⟨hq, -⟩ := ulp_le_div h
  have hm : 2 ^ 52 * 2 ≤ n / 2 ^ (n.log2 - 52) * 2 ^ (n.log2 - 52) := Nat.mul_le_mul hq hu
  have hm' : n / 2 ^ (n.log2 - 52) * 2 ^ (n.log2 - 52) ≤
      (n / 2 ^ (n.log2 - 52) + 1) * 2 ^ (n.log2 - 52) := Nat.mul_le_mul_right _ (Nat.le_succ _)
  rw [toDouble, if_neg (not_lt.mpr h)]
  dsimp only
  split <;> omega

theorem toDouble_pos {n : ℕ} (h : 0 < n) : 0 < toDouble n := by
  rcases lt_or_ge n (2 ^ 53) with hlt | hge
  · rwa [toDouble_of_lt hlt]
  · exact lt_of_lt_of_le (by decide) (le_toDouble hge)

theorem toDouble_exact {n : ℕ} (h : toDouble n < 2 ^ 53) : toDouble n = n := by
  rcases lt_or_ge n (2 ^ 53) with hlt | hge
  · exact toDouble_of_lt hlt
  · exact absurd (le_toDouble hge) (not_le.mpr h)

theorem toDouble_le {n k : ℕ} (h : n < 2 ^ k) : toDouble n ≤ 2 ^ k := by
  rcases lt_or_ge n (2 ^ 53) with hlt | hge
  · rw [toDouble_of_lt hlt]; exact h.le
  · have hn : n ≠ 0 := by rintro rfl; exact absurd hge (by decide)
    obtain ⟨-, hq⟩ := ulp_le_div hge
    have hu : 2 ^ 53 * 2 ^ (n.log2 - 52) ≤ 2 ^ k := by
      rw [← pow_add]
      have hl : n.log2 < k := (Nat.log2_lt hn).mpr h
      have hl' : 53 ≤ n.log2 := (Nat.le_log2 hn).mpr hge
      exact Nat.pow_le_pow_right (by decide) (by omega)
    have h₁ : n / 2 ^ (n.log2 - 52) * 2 ^ (n.log2 - 52) ≤ 2 ^ 53 * 2 ^ (n.log2 - 52) :=
      Nat.mul_le_mul_right _ hq.le
    have h₂ : (n / 2 ^ (n.log2 - 52) + 1) * 2 ^ (n.log2 - 52) ≤ 2 ^ 53 * 2 ^ (n.log2 - 52) :=
      Nat.mul_le_mul_right _ hq
    rw [toDouble, if_neg (not_lt.mpr hge)]
    dsimp only
    split
    · exact h₁.trans hu
    · exact h₂.trans hu

theorem toDouble_le_of_dvd {n m j : ℕ} (h : n ≤ m) (hm : m < 2 ^ (53 + j)) (hd : 2 ^ j ∣ m) :
    toDouble n ≤ m := by
  rcases lt_or_ge n (2 ^ 53) with hlt | hge
  · rwa [toDouble_of_lt hlt]
  have hn : n ≠ 0 := by
    rintro rfl
    exact absurd hge (by decide)
  have hj : n.log2 - 52 ≤ j := by
    have : n.log2 < 53 + j := (Nat.log2_lt hn).mpr (h.trans_lt hm)
    omega
  obtain ⟨b, rfl⟩ := (pow_dvd_pow 2 hj).trans hd
  have hdiv := Nat.div_add_mod n (2 ^ (n.log2 - 52))
  rw [mul_comm] at hdiv
  rw [toDouble, if_neg (not_lt.mpr hge)]
  dsimp only
  split
  · omega
  · rename_i hround
    -- the rest of the division is not zero, so the next double is not beyond the larger one
    have hlt : n / 2 ^ (n.log2 - 52) < b := by
      refine lt_of_mul_lt_mul_left (a := 2 ^ (n.log2 - 52)) ?_ (Nat.zero_le _)
      have := Nat.two_pow_pos (n.log2 - 52)
      rw [mul_comm]
      omega
    rw [mul_comm]
    exact Nat.mul_le_mul_left _ hlt

end VcmallocBench
