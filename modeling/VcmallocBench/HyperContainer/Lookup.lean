import VcmallocBench.HyperContainer.Search

/-! # Lookups in any table

Which entries the search reads does not depend on the order of the table. It
leaves the table when there is no entry, and when it has stepped back to the
first one and would have to step back further.
-/

namespace VcmallocBench

namespace Search

/-- The distances to an address that the search computes are the true ones. -/
def Fitting (a : ℕ → ℕ) (n elem : ℕ) : Prop := ∀ i < n, a i < elem + 2 ^ 63 ∧ elem ≤ a i + 2 ^ 63

/-- A table of `n` words, read at its own indices only. -/
structure Table (read : ℕ → Option ℕ) (a : ℕ → ℕ) (n : ℕ) : Prop where
  read_eq : ∀ i < n, read i = some (a i)
  read_none : ∀ i, n ≤ i → read i = none
  word : ∀ i < n, a i < 2 ^ 64

def Settles (read : ℕ → Option ℕ) (n elem : ℕ) : Prop :=
  ∃ r, binarySearch read n elem = .ok r ∧ ∀ i, r = some i → read i = some elem

/-- The search begins above the address, steps back to the first entry, and is above it there, with
a step left. -/
def StepsOut (a : ℕ → ℕ) (n elem : ℕ) : Prop :=
  2 < n ∧ 0 < Distance (a 0) elem ∧ 0 < Distance (a (2 ^ (n - 1).log2)) elem

/-- The highest bit of a word that uses it is never found. -/
theorem MSB_diverges {n : ℕ} (h : 2 ^ 63 ≤ n) : MSB n = .error .diverge := by
  have hloop : ∀ d k, k + d = 64 → msbLoop n d (2 ^ k) = none := by
    intro d
    induction d with
    | zero => intros; rfl
    | succ d ih =>
      intro k hk
      have hle : 2 ^ k ≤ n := (Nat.pow_le_pow_right (by decide) (by omega)).trans h
      rw [msbLoop, if_pos hle]
      rcases Nat.lt_or_ge k 63 with hlt | hge
      · rw [← Nat.pow_succ', u64_of_lt (Nat.pow_lt_pow_right (by decide) (by omega))]
        exact ih (k + 1) (by omega)
      · obtain rfl : d = 0 := by omega
        rfl
  rw [MSB, show (1 : ℕ) = 2 ^ 0 from rfl, hloop 64 0 rfl]

theorem two_pow_half (k : ℕ) : 2 ^ k / 2 = 0 ∨ ∃ j, 2 ^ k / 2 = 2 ^ j ∧ 2 ^ k = 2 * 2 ^ j := by
  cases k with
  | zero => exact Or.inl rfl
  | succ k => exact Or.inr ⟨k, by rw [pow_succ, Nat.mul_div_cancel _ (by decide)], Nat.pow_succ'⟩

theorem binarySearch_eq {n : ℕ} (read : ℕ → Option ℕ) (elem : ℕ) (h₀ : 0 < n) (hn : n ≤ 2 ^ 63) :
    ∃ msb, (msb = 0 ∧ n = 1 ∨ msb = 2 ^ (n - 1).log2 ∧ 1 < n) ∧ msb < n ∧
      binarySearch read n elem = (do
        match ← jump read (n - 1) elem 65 msb msb with
        | none => return none
        | some (index, msb) => walk read elem 66 index msb) := by
  have hmax : sub64 n 1 = n - 1 := sub64_of_le (by omega) (by omega)
  rcases Nat.eq_zero_or_pos (n - 1) with hz | hpos
  · refine ⟨0, Or.inl ⟨rfl, by omega⟩, h₀, ?_⟩
    rw [binarySearch, hmax, hz, MSB_zero]
    rfl
  · have hlog : 2 ^ (n - 1).log2 ≤ n - 1 := Nat.log2_self_le hpos.ne'
    refine ⟨2 ^ (n - 1).log2, Or.inr ⟨rfl, by omega⟩, by omega, ?_⟩
    rw [binarySearch, hmax, MSB_eq hpos (by omega)]
    rfl

theorem walk_back {read : ℕ → Option ℕ} {elem v fuel index m : ℕ} (hread : read index = some v)
    (hneg : ¬ Distance v elem < 0) (hz : Distance v elem ≠ 0) (hm : m ≠ 0) :
    walk read elem (fuel + 1) index m = walk read elem fuel (sub64 index m) (m / 2) := by
  rw [walk, hread]
  dsimp only
  rw [if_neg hz, if_neg hm, if_neg hneg]

/-- Stepping out, the search reads far behind the table. -/
theorem stepsOut_reads {read : ℕ → Option ℕ} {a : ℕ → ℕ} {n elem : ℕ}
    (hread : ∀ i < n, read i = some (a i)) (hfar : ∀ i, 2 ^ 63 ≤ i → read i = none)
    (hn : n ≤ 2 ^ 63) (hs : StepsOut a n elem) : binarySearch read n elem = .error .bounds := by
  obtain ⟨hn₂, hfirst, hstart⟩ := hs
  obtain ⟨msb, hmsb, hlt, hb⟩ := binarySearch_eq read elem (by omega) hn
  obtain ⟨rfl, -⟩ := hmsb.resolve_left (by omega)
  have hjump : jump read (n - 1) elem 65 (2 ^ (n - 1).log2) (2 ^ (n - 1).log2) =
      .ok (some (2 ^ (n - 1).log2, 2 ^ (n - 1).log2)) := by
    rw [jump, hread _ hlt]
    dsimp only
    rw [if_neg (by omega)]
  have hne : (n - 1).log2 ≠ 0 := fun hz => by
    have := Nat.lt_log2_self (n := n - 1)
    rw [hz] at this
    omega
  obtain ⟨k, hk⟩ := Nat.exists_eq_succ_of_ne_zero hne
  have hhalf : 2 ^ (k + 1) / 2 = 2 ^ k := by rw [pow_succ, Nat.mul_div_cancel _ (by decide)]
  have hpos := Nat.two_pow_pos k
  have hfirst₀ : ¬ Distance (a 0) elem < 0 := by omega
  have hstart₀ : ¬ Distance (a (2 ^ (n - 1).log2)) elem < 0 := by omega
  rw [hb, hjump, Except.ok_bind]
  dsimp only
  rw [walk_back (hread _ hlt) hstart₀ hstart.ne' (Nat.two_pow_pos _).ne', sub64_of_le le_rfl (by omega),
    Nat.sub_self, hk, hhalf, walk_back (hread 0 (by omega)) hfirst₀ hfirst.ne' hpos.ne']
  rw [hk, Nat.succ_eq_add_one, pow_succ] at hlt
  have hout : 2 ^ 63 ≤ sub64 0 (2 ^ k) := by unfold sub64; omega
  rw [walk, hfar _ hout]

namespace Table

variable {read : ℕ → Option ℕ} {a : ℕ → ℕ} {n elem : ℕ} (h : Table read a n)

include h

theorem distance_zero (he : elem < 2 ^ 64) {i : ℕ} (hi : i < n) :
    Distance (a i) elem = 0 ↔ a i = elem := Distance_eq_zero_iff (h.word i hi) he

/-- The jumps stay in the table. They end where they began, or one jump above an entry that is
below the address. -/
theorem jump_settles (hn : n ≤ 2 ^ 63) :
    ∀ fuel index msb, index < n → n - 1 - index < 2 ^ fuel →
    ∃ r, jump read (n - 1) elem (fuel + 1) index msb = .ok r ∧ ∀ i m, r = some (i, m) →
      i < n ∧ ¬ Distance (a i) elem < 0 ∧ (i = index ∧ m = msb ∨
        (∃ k, m = 2 ^ k) ∧ m ≤ i ∧ Distance (a (i - m)) elem < 0) := by
  intro fuel
  induction fuel with
  | zero =>
    intro index msb hi hf
    rw [jump, h.read_eq index hi]
    dsimp only
    split
    · rw [sub64_of_le (by omega) (by omega), show n - 1 - index = 0 by omega, MSB_zero,
        Except.ok_bind, if_pos rfl]
      exact ⟨none, rfl, by simp⟩
    · rename_i hneg
      refine ⟨_, rfl, fun i m hr => ?_⟩
      obtain ⟨rfl, rfl⟩ := Prod.mk.inj (Option.some.inj hr)
      exact ⟨hi, hneg, Or.inl ⟨rfl, rfl⟩⟩
  | succ fuel ih =>
    intro index msb hi hf
    rw [jump, h.read_eq index hi]
    dsimp only
    split
    · rename_i hneg
      rw [sub64_of_le (by omega) (by omega)]
      rcases Nat.eq_zero_or_pos (n - 1 - index) with h₀ | hpos
      · rw [h₀, MSB_zero, Except.ok_bind, if_pos rfl]
        exact ⟨none, rfl, by simp⟩
      · have hlog : 2 ^ (n - 1 - index).log2 ≤ n - 1 - index := Nat.log2_self_le hpos.ne'
        have hup := Nat.lt_log2_self (n := n - 1 - index)
        have hpow : 2 ^ (n - 1 - index).log2 ≤ 2 ^ fuel :=
          Nat.pow_le_pow_right (by decide) (Nat.lt_succ_iff.mp ((Nat.log2_lt hpos.ne').mpr hf))
        rw [pow_succ] at hup
        rw [MSB_eq hpos (by omega), Except.ok_bind, if_neg (Nat.two_pow_pos _).ne',
          u64_of_lt (by omega)]
        obtain ⟨r, hr, hrm⟩ := ih (index + 2 ^ (n - 1 - index).log2)
          (2 ^ (n - 1 - index).log2) (by omega) (by omega)
        refine ⟨r, hr, fun i m him => ?_⟩
        obtain ⟨h₁, h₂, ⟨rfl, rfl⟩ | h₃⟩ := hrm i m him
        · exact ⟨h₁, h₂, Or.inr ⟨⟨_, rfl⟩, by omega, by rwa [Nat.add_sub_cancel]⟩⟩
        · exact ⟨h₁, h₂, Or.inr h₃⟩
    · rename_i hneg
      refine ⟨_, rfl, fun i m hr => ?_⟩
      obtain ⟨rfl, rfl⟩ := Prod.mk.inj (Option.some.inj hr)
      exact ⟨hi, hneg, Or.inl ⟨rfl, rfl⟩⟩

/-- The walk stays in the table when there is room on the side it turns to. -/
theorem walk_settles (hn : n ≤ 2 ^ 63) (he : elem < 2 ^ 64) :
    ∀ fuel index m, m < 2 ^ fuel → index < n →
    (m = 0 ∨ (∃ k, m = 2 ^ k) ∧ index + 2 * m ≤ n ∧
      (2 * m ≤ index + 1 ∨ Distance (a index) elem ≤ 0)) →
    ∃ r, walk read elem (fuel + 1) index m = .ok r ∧ ∀ i, r = some i → read i = some elem := by
  intro fuel
  induction fuel with
  | zero =>
    intro index m hm hi hroom
    rw [walk, h.read_eq index hi]
    dsimp only
    split
    · rename_i hz
      refine ⟨_, rfl, fun i hi' => ?_⟩
      obtain rfl := Option.some.inj hi'
      rw [h.read_eq _ hi, (h.distance_zero he hi).mp hz]
    · rw [if_pos (by omega)]
      exact ⟨none, rfl, by simp⟩
  | succ fuel ih =>
    intro index m hm hi hroom
    rw [walk, h.read_eq index hi]
    dsimp only
    split
    · rename_i hz
      refine ⟨_, rfl, fun i hi' => ?_⟩
      obtain rfl := Option.some.inj hi'
      rw [h.read_eq _ hi, (h.distance_zero he hi).mp hz]
    · rename_i hz
      split
      · exact ⟨none, rfl, by simp⟩
      · rename_i hm₀
        obtain ⟨⟨k, rfl⟩, hup, hdown⟩ := hroom.resolve_left hm₀
        clear hroom
        have hhalf : 2 ^ k / 2 < 2 ^ fuel := by rw [pow_succ] at hm; omega
        have hpos := Nat.two_pow_pos k
        split
        · rw [u64_of_lt (by omega)]
          refine ih _ _ hhalf (by omega) ((two_pow_half k).imp id ?_)
          rintro ⟨j, hj, hk⟩
          rw [hj]
          exact ⟨⟨j, rfl⟩, by omega, Or.inl (by omega)⟩
        · rename_i hneg
          have hback : 2 * 2 ^ k ≤ index + 1 := hdown.resolve_right (by omega)
          rw [sub64_of_le (by omega) (by omega)]
          refine ih _ _ hhalf (by omega) ((two_pow_half k).imp id ?_)
          rintro ⟨j, hj, hk⟩
          rw [hj]
          exact ⟨⟨j, rfl⟩, by omega, Or.inl (by omega)⟩

theorem walk_found (he : elem < 2 ^ 64) {fuel index m : ℕ} (hi : index < n)
    (hz : Distance (a index) elem = 0) :
    walk read elem (fuel + 1) index m = .ok (some index) ∧ read index = some elem := by
  constructor
  · rw [walk, h.read_eq index hi]
    dsimp only
    rw [if_pos hz]
  · rw [h.read_eq index hi, (h.distance_zero he hi).mp hz]

theorem settles (he : elem < 2 ^ 64) (h₀ : 0 < n) (hn : n ≤ 2 ^ 63) (hs : ¬ StepsOut a n elem) :
    Settles read n elem := by
  obtain ⟨msb, hmsb, hlt, hb⟩ := binarySearch_eq read elem h₀ hn
  obtain ⟨r, hr, hrm⟩ := h.jump_settles hn 64 msb msb hlt (by omega)
  rw [Settles, hb, hr, Except.ok_bind]
  rcases r with _ | ⟨i, m⟩
  · exact ⟨none, rfl, by simp⟩
  obtain ⟨hi, hneg, hcase⟩ := hrm i m rfl
  dsimp only
  by_cases hz : Distance (a i) elem = 0
  · obtain ⟨hw, hri⟩ := h.walk_found he hi hz
    rw [hw]
    refine ⟨_, rfl, fun j hj => ?_⟩
    obtain rfl := Option.some.inj hj
    exact hri
  rcases Nat.eq_zero_or_pos m with hm | hm
  · exact h.walk_settles hn he 65 i m (by omega) hi (Or.inl hm)
  rw [walk_back (h.read_eq i hi) hneg hz hm.ne']
  rcases hcase with ⟨rfl, rfl⟩ | ⟨⟨k, rfl⟩, hmi, hlow⟩
  · -- no jump was made: the step goes to the first entry
    obtain ⟨rfl, hone⟩ := hmsb.resolve_left (by omega)
    rw [sub64_of_le le_rfl (by omega), Nat.sub_self]
    refine h.walk_settles hn he 64 0 _ (by omega) h₀ ((two_pow_half _).imp id ?_)
    rintro ⟨j, hj, hk⟩
    have hjp := Nat.two_pow_pos j
    rw [hj]
    refine ⟨⟨j, rfl⟩, by omega, Or.inr ?_⟩
    by_contra hpos
    exact hs ⟨by omega, by omega, by omega⟩
  · rw [sub64_of_le hmi (by omega)]
    refine h.walk_settles hn he 64 _ _ (by omega) (by omega) ((two_pow_half _).imp id ?_)
    rintro ⟨j, hj, hk⟩
    rw [hj]
    exact ⟨⟨j, rfl⟩, by omega, Or.inr hlow.le⟩

theorem stepsOut_bounds (hn : n ≤ 2 ^ 63) (hs : StepsOut a n elem) :
    binarySearch read n elem = .error .bounds :=
  stepsOut_reads h.read_eq (fun i hi => h.read_none i (hn.trans hi)) hn hs

end Table

section Lookups

variable {read : ℕ → Option ℕ} {a : ℕ → ℕ} {n elem : ℕ}

theorem Table.ascending (hmono : ∀ j < n, ∀ i < j, a i < a j) (i j : ℕ) (hij : i ≤ j)
    (hj : j < n) : a i ≤ a j := by
  rcases Nat.lt_or_eq_of_le hij with hlt | rfl
  · exact (hmono j hj i hlt).le
  · exact le_rfl

/-- In a strictly increasing table the search finds an entry at its index, and nothing for an
address above the first entry that is none. The table of addresses and the references of the
containers are read in the same way. -/
theorem binarySearch_correct (h : Table read a n) (h₀ : 0 < n) (hmem : 8 * n ≤ 2 ^ 64)
    (hmono : ∀ j < n, ∀ i < j, a i < a j) (he : elem < 2 ^ 64) (hfit : Fitting a n elem) :
    (∀ i < n, a i = elem → binarySearch read n elem = .ok (some i)) ∧
      ((∀ i < n, a i ≠ elem) → ¬ elem < a 0 → binarySearch read n elem = .ok none) := by
  constructor
  · rintro i hi rfl
    have hs : Sorted read a n i :=
      ⟨h.read_eq, Table.ascending hmono, h.word, hfit, hi, by omega⟩
    obtain ⟨r, hr, hb, har⟩ := hs.binarySearch_found
    rcases Nat.lt_trichotomy r i with hlt | rfl | hlt
    · exact absurd har (hmono i hi r hlt).ne
    · exact hb
    · exact absurd har (hmono r hr i hlt).ne'
  · intro hno hge
    have hlow : Distance (a 0) elem < 0 :=
      (Distance_neg_iff (hfit 0 h₀).1 (hfit 0 h₀).2).mpr (lt_of_le_of_ne (not_lt.mp hge) (hno 0 h₀))
    obtain ⟨r, hr, hri⟩ := h.settles he h₀ (by omega) fun hs => absurd hs.2.1 (by omega)
    cases r with
    | none => exact hr
    | some i =>
      have hread := hri i rfl
      rcases Nat.lt_or_ge i n with hi | hi
      · rw [h.read_eq i hi] at hread
        exact absurd (Option.some.inj hread) (hno i hi)
      · rw [h.read_none i hi] at hread
        cases hread

section Stale

variable {read' : ℕ → Option ℕ} (hsub : ∀ i v, read i = some v → read' i = some v)

include hsub

theorem jump_mono {max : ℕ} : ∀ fuel index msb r, jump read max elem fuel index msb = .ok r →
    jump read' max elem fuel index msb = .ok r := by
  intro fuel
  induction fuel with
  | zero => exact fun _ _ _ h => h
  | succ fuel ih =>
    intro index msb r h
    cases hv : read index with
    | none =>
      rw [jump, hv] at h
      cases h
    | some v =>
      rw [jump, hv] at h
      rw [jump, hsub _ _ hv]
      dsimp only at h ⊢
      split at h
      · rename_i hneg
        rw [if_pos hneg]
        cases hm : MSB (sub64 max index) with
        | error e =>
          rw [hm] at h
          cases h
        | ok m =>
          rw [hm, Except.ok_bind] at h
          rw [Except.ok_bind]
          split at h
          · rename_i hz
            rwa [if_pos hz]
          · rename_i hz
            rw [if_neg hz]
            exact ih _ _ _ h
      · rename_i hneg
        rwa [if_neg hneg]

theorem walk_mono : ∀ fuel index msb r, walk read elem fuel index msb = .ok r →
    walk read' elem fuel index msb = .ok r := by
  intro fuel
  induction fuel with
  | zero => exact fun _ _ _ h => h
  | succ fuel ih =>
    intro index msb r h
    cases hv : read index with
    | none =>
      rw [walk, hv] at h
      cases h
    | some v =>
      rw [walk, hv] at h
      rw [walk, hsub _ _ hv]
      dsimp only at h ⊢
      split_ifs at h ⊢
      · exact h
      · exact h
      · exact ih _ _ _ h
      · exact ih _ _ _ h

theorem binarySearch_mono {r : Option ℕ} (h : binarySearch read n elem = .ok r) :
    binarySearch read' n elem = .ok r := by
  rw [binarySearch] at h ⊢
  cases hm : MSB (sub64 n 1) with
  | error e =>
    rw [hm] at h
    cases h
  | ok m =>
    rw [hm, Except.ok_bind] at h
    rw [Except.ok_bind]
    cases hj : jump read (sub64 n 1) elem 65 m m with
    | error e =>
      rw [hj] at h
      cases h
    | ok r' =>
      rw [hj, Except.ok_bind] at h
      rw [jump_mono hsub _ _ _ _ hj, Except.ok_bind]
      rcases r' with _ | ⟨index, msb⟩
      · exact h
      · exact walk_mono hsub _ _ _ _ h

end Stale

/-- The search finds no stale entry behind the first `n` ones. -/
theorem binarySearch_live (hread : ∀ i < n, read i = some (a i))
    (hfar : ∀ i, 2 ^ 63 ≤ i → read i = none) (hw : ∀ i < n, a i < 2 ^ 64) (hn : n < 2 ^ 64)
    (he : elem < 2 ^ 64) {i : ℕ} (h : binarySearch read n elem = .ok (some i)) :
    i < n ∧ a i = elem := by
  rcases Nat.eq_zero_or_pos n with rfl | h₀
  · rw [binarySearch, MSB_diverges (by decide)] at h
    cases h
  rcases Nat.lt_or_ge (2 ^ 63) n with hlt | hle
  · rw [binarySearch, sub64_of_le (by omega) hn, MSB_diverges (by omega)] at h
    cases h
  by_cases hs : StepsOut a n elem
  · rw [stepsOut_reads hread hfar hle hs] at h
    cases h
  have htable : Table (fun i => if i < n then read i else none) a n :=
    ⟨fun i hi => (if_pos hi).trans (hread i hi), fun i hi => if_neg (not_lt.mpr hi), hw⟩
  obtain ⟨r, hr, hri⟩ := htable.settles he h₀ hle hs
  have hsub : ∀ i v, (if i < n then read i else none) = some v → read i = some v := by
    intro i v hv
    split at hv
    · exact hv
    · cases hv
  have hri' := hri i (Except.ok.inj ((binarySearch_mono hsub hr).symm.trans h))
  dsimp only at hri'
  split at hri'
  · rename_i hi
    exact ⟨hi, Option.some.inj ((hread i hi).symm.trans hri')⟩
  · cases hri'

theorem Table.ofList {l : List ℕ} (h : ∀ x ∈ l, x < 2 ^ 64) :
    Table (l[·]?) (fun i => l[i]?.getD 0) l.length where
  read_eq i hi := by rw [List.getElem?_eq_getElem hi, Option.getD_some]
  read_none i hi := List.getElem?_eq_none hi
  word i hi := by
    rw [List.getElem?_eq_getElem hi, Option.getD_some]
    exact h _ (List.getElem_mem hi)

theorem binarySearch_correct_three : binarySearch ([16, 32, 48][·]?) 3 32 = .ok (some 1) ∧
    binarySearch ([16, 32, 48][·]?) 3 40 = .ok none :=
  ⟨(binarySearch_correct (Table.ofList (by decide)) (by decide) (by decide) (by decide) (by decide)
      (by unfold Fitting; decide)).1 1 (by decide) rfl,
    (binarySearch_correct (Table.ofList (by decide)) (by decide) (by decide) (by decide) (by decide)
      (by unfold Fitting; decide)).2 (by decide) (by decide)⟩

/-- A search is safe if and only if there is an entry and it does not step out of the table. -/
theorem settles_iff (h : Table read a n) (hn : n < 2 ^ 64) (he : elem < 2 ^ 64) :
    Settles read n elem ↔ 0 < n ∧ n ≤ 2 ^ 63 ∧ ¬ StepsOut a n elem := by
  constructor
  · rintro ⟨r, hr, -⟩
    rcases Nat.eq_zero_or_pos n with rfl | h₀
    · rw [binarySearch, MSB_diverges (by decide)] at hr
      cases hr
    rcases Nat.lt_or_ge (2 ^ 63) n with hlt | hle
    · rw [binarySearch, sub64_of_le (by omega) hn, MSB_diverges (by omega)] at hr
      cases hr
    · refine ⟨h₀, hle, fun hs => ?_⟩
      rw [h.stepsOut_bounds hle hs] at hr
      cases hr
  · rintro ⟨h₀, hle, hs⟩
    exact h.settles he h₀ hle hs

theorem settles_iff_below : ¬ Settles ([16, 32, 48][·]?) 3 8 := fun hs =>
  ((settles_iff (Table.ofList (by decide)) (by decide) (by decide)).mp hs).2.2 (by unfold StepsOut; decide)

/-- A table without entries is searched forever. -/
theorem not_settles_empty : ¬ Settles ([][·]?) 0 8 := by
  rintro ⟨r, hr, -⟩
  have hd : binarySearch ([][·]?) 0 8 = .error .diverge := rfl
  rw [hd] at hr
  cases hr

end Lookups

end Search

end VcmallocBench
