import VcmallocBench.Library.Word
import VcmallocBench.Machine.Memory

/-! # The address search

The search first jumps forward by the highest bit of the remaining distance
until it is not below the address, then walks back and forth by halving powers
of two and tests for equality only. In a sorted table it finds every address
that is there.
-/

namespace VcmallocBench

inductive Fault where
  /-- An exception with its text. -/
  | thrown (message : String)
  /-- An access to an unmapped page. -/
  | segv
  /-- An access outside a heap block. -/
  | bounds
  /-- A loop that does not end. -/
  | diverge
  deriving DecidableEq, Repr

namespace Search

/-- `while (msb <= n) msb <<= 1`. After 64 shifts the bit is lost and the loop never ends. -/
def msbLoop (n : ℕ) : ℕ → ℕ → Option ℕ
  | 0, _ => none
  | fuel + 1, msb => if msb ≤ n then msbLoop n fuel (u64 (2 * msb)) else some msb

def MSB (n : ℕ) : Except Fault ℕ :=
  match msbLoop n 64 1 with
  | some msb => .ok (msb / 2)
  | none => .error .diverge

def Distance (value elem : ℕ) : ℤ := int64 (sub64 value elem)

/-- The jumps forward from `index`, until an entry is not below the address. Each of them takes the
highest bit off the remaining distance, so that a word allows at most 64. -/
def jump (read : ℕ → Option ℕ) (max elem : ℕ) : ℕ → ℕ → ℕ → Except Fault (Option (ℕ × ℕ))
  | 0, _, _ => .error .diverge
  | fuel + 1, index, msb =>
    match read index with
    | none => .error .bounds
    | some value =>
      if Distance value elem < 0 then do
        let msb ← MSB (sub64 max index)
        if msb = 0 then return none else jump read max elem fuel (u64 (index + msb)) msb
      else .ok (some (index, msb))

def walk (read : ℕ → Option ℕ) (elem : ℕ) : ℕ → ℕ → ℕ → Except Fault (Option ℕ)
  | 0, _, _ => .error .diverge
  | fuel + 1, index, msb =>
    match read index with
    | none => .error .bounds
    | some value =>
      if Distance value elem = 0 then .ok (some index)
      else if msb = 0 then .ok none
      else walk read elem fuel
        (if Distance value elem < 0 then u64 (index + msb) else sub64 index msb) (msb / 2)

/-- The index of an address in a table of `max` entries; `none` is the result -1. -/
def binarySearch (read : ℕ → Option ℕ) (max elem : ℕ) : Except Fault (Option ℕ) := do
  let max := sub64 max 1
  let msb ← MSB max
  match ← jump read max elem 65 msb msb with
  | none => return none
  | some (index, msb) => walk read elem 66 index msb

theorem Except.ok_bind {ε α β : Type} (a : α) (f : α → Except ε β) :
    (Except.ok a >>= f) = f a := rfl

theorem msbLoop_eq {n L : ℕ} (hL : L < 64) (hlt : n < 2 ^ L) (hle : ∀ k < L, 2 ^ k ≤ n) :
    ∀ d k, k + d = L → msbLoop n (64 - k) (2 ^ k) = some (2 ^ L) := by
  intro d
  induction d with
  | zero =>
    rintro k rfl
    obtain ⟨fuel, hf⟩ := Nat.exists_eq_succ_of_ne_zero (show 64 - k ≠ 0 by omega)
    rw [add_zero] at hlt
    rw [hf, msbLoop, if_neg (not_le.mpr hlt), add_zero]
  | succ d ih =>
    intro k hk
    obtain ⟨fuel, hf⟩ := Nat.exists_eq_succ_of_ne_zero (show 64 - k ≠ 0 by omega)
    have hu : u64 (2 * 2 ^ k) = 2 ^ (k + 1) := by
      rw [← Nat.pow_succ']
      exact u64_of_lt (Nat.pow_lt_pow_right (by decide) (by omega))
    rw [hf, msbLoop, if_pos (hle k (by omega)), hu, show fuel = 64 - (k + 1) by omega]
    exact ih (k + 1) (by omega)

theorem MSB_zero : MSB 0 = .ok 0 := rfl

theorem MSB_eq {n : ℕ} (hpos : 0 < n) (hn : n < 2 ^ 63) : MSB n = .ok (2 ^ n.log2) := by
  have hl : n.log2 < 63 := (Nat.log2_lt hpos.ne').mpr hn
  have h := msbLoop_eq (L := n.log2 + 1) (by omega) Nat.lt_log2_self
    (fun k hk => (Nat.pow_le_pow_right (by decide) (by omega)).trans (Nat.log2_self_le hpos.ne'))
    (n.log2 + 1) 0 (by omega)
  rw [MSB]
  simp only [Nat.sub_zero, pow_zero] at h
  rw [h]
  dsimp only
  rw [pow_succ, Nat.mul_div_cancel _ (by decide)]

theorem Distance_neg_iff {v e : ℕ} (h₁ : v < e + 2 ^ 63)
    (h₂ : e ≤ v + 2 ^ 63) : Distance v e < 0 ↔ v < e := by
  unfold Distance int64 sub64
  split <;> omega

theorem Distance_eq_zero_iff {v e : ℕ} (hv : v < 2 ^ 64) (he : e < 2 ^ 64) :
    Distance v e = 0 ↔ v = e := by
  unfold Distance int64 sub64
  split <;> omega

/-- A table of `n` sorted addresses in which every distance to the one at `t` fits an `INT64`. -/
structure Sorted (read : ℕ → Option ℕ) (a : ℕ → ℕ) (n t : ℕ) : Prop where
  read_eq : ∀ i < n, read i = some (a i)
  mono : ∀ i j, i ≤ j → j < n → a i ≤ a j
  lt_word : ∀ i < n, a i < 2 ^ 64
  near : ∀ i < n, a i < a t + 2 ^ 63 ∧ a t ≤ a i + 2 ^ 63
  target_lt : t < n
  length_lt : n ≤ 2 ^ 63

variable {read : ℕ → Option ℕ} {a : ℕ → ℕ} {n t : ℕ}

namespace Sorted

variable (h : Sorted read a n t)

include h

theorem distance_neg {i : ℕ} (hi : i < n) : Distance (a i) (a t) < 0 ↔ a i < a t :=
  Distance_neg_iff (h.near i hi).1 (h.near i hi).2

theorem distance_zero {i : ℕ} (hi : i < n) : Distance (a i) (a t) = 0 ↔ a i = a t :=
  Distance_eq_zero_iff (h.lt_word i hi) (h.lt_word t h.target_lt)

theorem lt_of_value_lt {i : ℕ} (hi : i < n) (hv : a i < a t) : i < t := by
  by_contra hn
  exact absurd (h.mono t i (Nat.le_of_not_lt hn) hi) (not_le.mpr hv)

theorem lt_of_lt_value {i : ℕ} (hv : a t < a i) : t < i := by
  by_contra hn
  exact absurd (h.mono i t (Nat.le_of_not_lt hn) h.target_lt) (not_le.mpr hv)

/-- The jumps end at or behind the target, by at most the last step taken. -/
theorem jump_spec : ∀ fuel index msb, index < n → msb ≤ index → index - msb ≤ t →
    (msb = 0 ∧ index = 0 ∨ ∃ k, msb = 2 ^ k) → n - 1 - index < 2 ^ fuel →
    ∃ i m, jump read (n - 1) (a t) (fuel + 1) index msb = .ok (some (i, m)) ∧
      i < n ∧ m ≤ i ∧ i - m ≤ t ∧ (a i = a t ∨ t < i) ∧ (m = 0 ∧ i = 0 ∨ ∃ k, m = 2 ^ k) := by
  intro fuel
  induction fuel with
  | zero =>
    intro index msb hi hm ht hk hf
    have hlast : index = n - 1 := by omega
    have hge : ¬ a index < a t := fun hv => by
      have := h.lt_of_value_lt hi hv
      have := h.target_lt
      omega
    refine ⟨index, msb, ?_, hi, hm, ht, ?_, hk⟩
    · rw [jump, h.read_eq index hi]
      dsimp only
      rw [if_neg ((h.distance_neg hi).not.mpr hge)]
    · rcases Nat.lt_or_ge (a t) (a index) with hlt | hle
      · exact Or.inr (h.lt_of_lt_value hlt)
      · exact Or.inl (by omega)
  | succ fuel ih =>
    intro index msb hi hm ht hk hf
    rw [jump, h.read_eq index hi]
    dsimp only
    by_cases hv : a index < a t
    · have hlt := h.lt_of_value_lt hi hv
      have htn := h.target_lt
      have hn := h.length_lt
      have hr : 0 < n - 1 - index := by omega
      have hlog : 2 ^ (n - 1 - index).log2 ≤ n - 1 - index := Nat.log2_self_le hr.ne'
      rw [if_pos ((h.distance_neg hi).mpr hv), sub64_of_le (by omega) (by omega),
        MSB_eq hr (by omega), Except.ok_bind, if_neg (Nat.two_pow_pos _).ne', u64_of_lt (by omega)]
      refine ih (index + 2 ^ (n - 1 - index).log2) _ (by omega) (by omega) (by omega)
        (Or.inr ⟨_, rfl⟩) ?_
      have hup := Nat.lt_log2_self (n := n - 1 - index)
      have hpow : 2 ^ (n - 1 - index).log2 ≤ 2 ^ fuel :=
        Nat.pow_le_pow_right (by decide) (Nat.lt_succ_iff.mp ((Nat.log2_lt hr.ne').mpr hf))
      rw [pow_succ] at hup
      omega
    · rw [if_neg ((h.distance_neg hi).not.mpr hv)]
      refine ⟨index, msb, rfl, hi, hm, ht, ?_, hk⟩
      rcases Nat.lt_or_ge (a t) (a index) with hlt | hle
      · exact Or.inr (h.lt_of_lt_value hlt)
      · exact Or.inl (by omega)

/-- Where the walk stands: `m` is the next step, and the target lies less than `2 * m` ahead of
`index`, or behind it, in a block of the table. -/
def Near (n t index m : ℕ) : Prop :=
  index < n ∧ (m = 0 ∧ index = t ∨ (∃ k, m = 2 ^ k) ∧
    (index ≤ t ∧ t < index + 2 * m ∧ index + 2 * m ≤ n ∨
      t < index ∧ index < t + 2 * m ∧ 2 * m ≤ index))

omit h in
theorem Near.step {index m : ℕ} (hn : Near n t index m) (hne : index ≠ t) :
    Near n t (if index < t then index + m else index - m) (m / 2) := by
  obtain ⟨hi, ⟨-, he⟩ | ⟨⟨k, rfl⟩, hb⟩⟩ := hn
  · exact absurd he hne
  · cases k with
    | zero =>
      simp only [pow_zero, mul_one] at *
      refine ⟨by split <;> omega, Or.inl ⟨rfl, by split <;> omega⟩⟩
    | succ k =>
      have hd : 2 ^ (k + 1) / 2 = 2 ^ k := by rw [pow_succ, Nat.mul_div_cancel _ (by decide)]
      rw [hd, pow_succ] at *
      refine ⟨by split <;> omega, Or.inr ⟨⟨k, rfl⟩, ?_⟩⟩
      split <;> omega

omit h in
/-- The first step back lands on the start of the block that holds the target. -/
theorem Near.start {i k : ℕ} (hi : i < n) (hm : 2 ^ k ≤ i) (hit : i - 2 ^ k ≤ t) (hti : t < i) :
    Near n t (i - 2 ^ k) (2 ^ k / 2) := by
  cases k with
  | zero => exact ⟨by omega, Or.inl ⟨rfl, by rw [pow_zero] at *; omega⟩⟩
  | succ k =>
    have hd : 2 ^ (k + 1) / 2 = 2 ^ k := by rw [pow_succ, Nat.mul_div_cancel _ (by decide)]
    rw [hd]
    rw [pow_succ] at *
    exact ⟨by omega, Or.inr ⟨⟨k, rfl⟩, Or.inl (by omega)⟩⟩

theorem walk_spec : ∀ fuel index m, Near n t index m → m < 2 ^ fuel →
    ∃ i < n, walk read (a t) (fuel + 1) index m = .ok (some i) ∧ a i = a t := by
  intro fuel
  induction fuel with
  | zero =>
    intro index m hn hm
    obtain ⟨hi, hb⟩ := hn
    have he : index = t := by
      rcases hb with ⟨-, he⟩ | ⟨⟨k, rfl⟩, -⟩
      · exact he
      · have := Nat.two_pow_pos k
        omega
    refine ⟨index, hi, ?_, by rw [he]⟩
    rw [walk, h.read_eq index hi]
    dsimp only
    rw [if_pos ((h.distance_zero hi).mpr (by rw [he]))]
  | succ fuel ih =>
    intro index m hn hm
    have hi := hn.1
    by_cases he : a index = a t
    · refine ⟨index, hi, ?_, he⟩
      rw [walk, h.read_eq index hi]
      dsimp only
      rw [if_pos ((h.distance_zero hi).mpr he)]
    · have hne : index ≠ t := fun hc => he (by rw [hc])
      have hm₀ : m ≠ 0 := by
        rcases hn.2 with ⟨-, hc⟩ | ⟨⟨k, rfl⟩, -⟩
        · exact absurd hc hne
        · exact (Nat.two_pow_pos k).ne'
      have hsgn : Distance (a index) (a t) < 0 ↔ index < t := by
        rw [h.distance_neg hi]
        refine ⟨h.lt_of_value_lt hi, fun hlt => ?_⟩
        exact lt_of_le_of_ne (h.mono index t hlt.le h.target_lt) he
      have hnext : (if Distance (a index) (a t) < 0 then u64 (index + m) else sub64 index m) =
          if index < t then index + m else index - m := by
        have hlen := h.length_lt
        have hb := hn.2
        split
        · rename_i hc
          rw [if_pos (hsgn.mp hc), u64_of_lt (by omega)]
        · rename_i hc
          rw [if_neg (hsgn.not.mp hc), sub64_of_le _ (by omega)]
          have := hsgn.not.mp hc
          omega
      rw [walk, h.read_eq index hi]
      dsimp only
      rw [if_neg ((h.distance_zero hi).not.mpr he), if_neg hm₀, hnext]
      exact ih _ _ (hn.step hne) (by omega)

/-- The search finds an address that is in the table. -/
theorem binarySearch_found :
    ∃ i < n, binarySearch read n (a t) = .ok (some i) ∧ a i = a t := by
  have htn := h.target_lt
  have hlen := h.length_lt
  have hmax : sub64 n 1 = n - 1 := sub64_of_le (by omega) (by omega)
  obtain ⟨msb, hmsb, hle, hk⟩ : ∃ msb, MSB (n - 1) = .ok msb ∧ msb ≤ n - 1 ∧
      (msb = 0 ∧ n - 1 = 0 ∨ (∃ k, msb = 2 ^ k)) := by
    rcases Nat.eq_zero_or_pos (n - 1) with h₀ | hpos
    · exact ⟨0, by rw [h₀, MSB_zero], Nat.zero_le _, Or.inl ⟨rfl, h₀⟩⟩
    · exact ⟨_, MSB_eq hpos (by omega), Nat.log2_self_le hpos.ne', Or.inr ⟨_, rfl⟩⟩
  obtain ⟨i, m, hj, hi, hm, hit, hat, hmk⟩ := h.jump_spec 64 msb msb (by omega) le_rfl (by omega)
    (hk.imp (fun hc => ⟨hc.1, hc.1⟩) id) (by omega)
  have hw : ∃ r < n, walk read (a t) 66 i m = .ok (some r) ∧ a r = a t := by
    by_cases he : a i = a t
    · refine ⟨i, hi, ?_, he⟩
      rw [walk, h.read_eq i hi]
      dsimp only
      rw [if_pos ((h.distance_zero hi).mpr he)]
    · have hti : t < i := hat.resolve_left he
      obtain ⟨k, rfl⟩ : ∃ k, m = 2 ^ k := hmk.resolve_left fun hc => by omega
      have hge : ¬ Distance (a i) (a t) < 0 := (h.distance_neg hi).not.mpr fun hv => by
        have := h.lt_of_value_lt hi hv
        omega
      rw [walk, h.read_eq i hi]
      dsimp only
      rw [if_neg ((h.distance_zero hi).not.mpr he), if_neg (Nat.two_pow_pos k).ne', if_neg hge,
        sub64_of_le hm (by omega)]
      exact h.walk_spec 64 _ _ (Near.start hi hm hit hti) (by omega)
  obtain ⟨r, hr, hwr, har⟩ := hw
  refine ⟨r, hr, ?_, har⟩
  rw [binarySearch, hmax, hmsb, Except.ok_bind, hj, Except.ok_bind]
  exact hwr

end Sorted

end Search

end VcmallocBench
