import VcmallocBench.HyperContainer.Alloc

/-! # Growth of the two tables

When the loops that compute a new table size end, and when the block asked for
has room for all entries. Both loops run in 64-bit words, and so do the byte
sizes passed to the heap.
-/

namespace VcmallocBench

/-- The first size not below a number that doubling reaches, as an exact integer. -/
def doubledSize (pfns_max needed : ℕ) : ℕ := pfns_max * 2 ^ Nat.clog 2 (needed ⌈/⌉ pfns_max)

/-- The first size not below a number that steps reach, as an exact integer. -/
def steppedSize (containers_max needed step : ℕ) : ℕ :=
  containers_max + (needed - containers_max) ⌈/⌉ step * step

/-- The entries that the block of the container table has room for. -/
def HyperContainerContext.room (ctx : HyperContainerContext) : ℕ :=
  (ctx.containercontext_storage_.map (·.room)).getD 0

/-- The frame table has room for `sum` frames, or doubling finds a size with that room whose bytes are
a word. -/
def HyperContainerContext.PfnsFit (ctx : HyperContainerContext) (sum : ℕ) : Prop :=
  if sum ≤ ctx.pfns_max_ then sum ≤ ctx.frames.length
  else 0 < ctx.pfns_max_ ∧ sizeofFrame * doubledSize ctx.pfns_max_ sum < 2 ^ 64

/-- The container table has room for `sum` containers, or steps of as many as a page holds find a size
with that room whose bytes are a word. -/
def HyperContainerContext.ContainersFit (os : OS) (ctx : HyperContainerContext) (sum : ℕ) : Prop :=
  if sum ≤ ctx.containers_max_ then sum ≤ ctx.room
  else sizeofContainerContext ≤ os.page_size ∧ sizeofContainerContext *
    steppedSize ctx.containers_max_ sum (os.page_size / sizeofContainerContext) < 2 ^ 64

section Loops

variable (next f : ℕ → ℕ) {needed : ℕ}

theorem whileLoop_ends (hf : ∀ k, f (k + 1) = next (f k)) :
    ∀ fuel i k, i ≤ k → k < i + fuel → (∀ j, j < k → f j < needed) → needed ≤ f k →
      whileLoop (· < needed) next fuel (f i) = some (f k) := by
  intro fuel
  induction fuel with
  | zero =>
    intro i k h₁ h₂
    exact absurd h₂ (by omega)
  | succ fuel ih =>
    intro i k h₁ h₂ hlt hk
    rw [whileLoop]
    rcases Nat.lt_or_eq_of_le h₁ with hi | rfl
    · rw [if_pos (by simpa using hlt i hi), ← hf]
      exact ih (i + 1) k hi (by omega) hlt hk
    · rw [if_neg (by simpa using hk)]

theorem whileLoop_never (hf : ∀ k, f (k + 1) = next (f k)) (hlt : ∀ k, f k < needed) :
    ∀ fuel i, whileLoop (· < needed) next fuel (f i) = none := by
  intro fuel
  induction fuel with
  | zero => intros; rfl
  | succ fuel ih =>
    intro i
    rw [whileLoop, if_pos (by simpa using hlt i), ← hf]
    exact ih (i + 1)

theorem doubled_succ (x k : ℕ) : u64 (x * 2 ^ (k + 1)) = u64 (u64 (x * 2 ^ k) * 2) := by
  rw [pow_succ, ← mul_assoc, u64, u64, u64, Nat.mod_mul_mod]

theorem stepped_succ (x step k : ℕ) :
    u64 (x + (k + 1) * step) = u64 (u64 (x + k * step) + step) := by
  rw [u64_u64_add, add_mul, one_mul, add_assoc]

variable {x y step : ℕ}

theorem le_doubledSize (hx : 0 < x) (needed : ℕ) : needed ≤ doubledSize x needed := by
  have h := le_smul_ceilDiv (b := needed) hx
  rw [smul_eq_mul] at h
  exact h.trans (Nat.mul_le_mul_left x (Nat.le_pow_clog (by decide) _))

theorem lt_of_lt_clog (hx : 0 < x) {j : ℕ} (hj : j < Nat.clog 2 (needed ⌈/⌉ x)) :
    x * 2 ^ j < needed := by
  rw [Nat.lt_clog_iff_pow_lt (by decide)] at hj
  by_contra hge
  exact absurd hj (not_lt.mpr ((ceilDiv_le_iff_le_smul hx).mpr (not_lt.mp hge)))

theorem doubledSize_lt (hx : 0 < x) (hlt : x < needed) : doubledSize x needed < 2 * needed := by
  rw [doubledSize]
  cases hk : Nat.clog 2 (needed ⌈/⌉ x) with
  | zero =>
    rw [pow_zero]
    omega
  | succ k =>
    have : x * 2 ^ k < needed := lt_of_lt_clog hx (by omega)
    rw [pow_succ, ← mul_assoc]
    omega

/-- Without a wrap, the doubling loop ends at the first size that is large enough. -/
theorem doubledMax_eq (hx : 0 < x) (hn : needed < 2 ^ 64) (hsize : doubledSize x needed < 2 ^ 64) :
    doubledMax x needed = some (doubledSize x needed) := by
  have hk : Nat.clog 2 (needed ⌈/⌉ x) < 0 + 2 ^ 64 := by
    have h₁ := Nat.lt_two_pow_self (n := Nat.clog 2 (needed ⌈/⌉ x))
    have h₂ := Nat.mul_le_mul_right (2 ^ Nat.clog 2 (needed ⌈/⌉ x)) hx
    rw [doubledSize] at hsize
    omega
  have hend := whileLoop_ends (fun n => u64 (n * 2)) (fun k => u64 (x * 2 ^ k)) (doubled_succ x)
    (2 ^ 64) 0 _ (Nat.zero_le _) hk (fun j hj => by
      have := lt_of_lt_clog hx hj
      rwa [u64_of_lt (by omega)]) (by
      rw [← doubledSize, u64_of_lt hsize]
      exact le_doubledSize hx needed)
  have hle : x * 2 ^ 0 ≤ doubledSize x needed :=
    Nat.mul_le_mul_left x (Nat.pow_le_pow_right (by decide) (Nat.zero_le _))
  rwa [u64_of_lt (hle.trans_lt hsize), pow_zero, mul_one, ← doubledSize, u64_of_lt hsize] at hend

theorem doubledMax_never (hx : x < 2 ^ 64) (hlt : ∀ k, u64 (x * 2 ^ k) < needed) :
    doubledMax x needed = none := by
  have := whileLoop_never (fun n => u64 (n * 2)) (fun k => u64 (x * 2 ^ k)) (doubled_succ x)
    hlt (2 ^ 64) 0
  rwa [pow_zero, mul_one, u64_of_lt hx] at this

/-- When the bytes of the new size wrap, the block has fewer entries than needed. -/
theorem doubledMax_short (hx : 0 < x) (hlt : x < needed) (hn : needed < 2 ^ 64)
    (hsize : 2 ^ 64 ≤ 8 * doubledSize x needed) (hy : doubledMax x needed = some y) :
    u64 (y * 8) / 8 < needed := by
  rcases Nat.lt_or_ge needed (2 ^ 61) with hsmall | hlarge
  · have hlt' := doubledSize_lt hx hlt
    rw [doubledMax_eq hx hn (by omega), Option.some_inj] at hy
    unfold u64
    omega
  · have := u64_lt (y * 8)
    omega

theorem le_steppedSize (hs : 0 < step) (x needed : ℕ) : needed ≤ steppedSize x needed step := by
  have h := le_smul_ceilDiv (b := needed - x) hs
  rw [smul_eq_mul, mul_comm] at h
  rw [steppedSize]
  omega

theorem lt_of_lt_ceil (hs : 0 < step) {j : ℕ} (hj : j < (needed - x) ⌈/⌉ step) :
    x + j * step < needed := by
  by_contra hge
  refine absurd hj (not_lt.mpr ((ceilDiv_le_iff_le_smul hs).mpr ?_))
  rw [smul_eq_mul, mul_comm]
  omega

theorem steppedSize_lt (hs : 0 < step) (hlt : x < needed) :
    steppedSize x needed step < needed + step := by
  rw [steppedSize]
  cases hk : (needed - x) ⌈/⌉ step with
  | zero => omega
  | succ k =>
    have : x + k * step < needed := lt_of_lt_ceil hs (by omega)
    rw [add_mul, one_mul]
    omega

theorem steppedMax_eq (hs : 0 < step) (hn : needed < 2 ^ 64)
    (hsize : steppedSize x needed step < 2 ^ 64) :
    steppedMax x needed step = some (steppedSize x needed step) := by
  have hk : (needed - x) ⌈/⌉ step < 0 + 2 ^ 64 := by
    have := Nat.le_mul_of_pos_right ((needed - x) ⌈/⌉ step) hs
    rw [steppedSize] at hsize
    omega
  have hend := whileLoop_ends (fun n => u64 (n + step)) (fun k => u64 (x + k * step))
    (stepped_succ x step) (2 ^ 64) 0 _ (Nat.zero_le _) hk (fun j hj => by
      have := lt_of_lt_ceil hs hj
      rwa [u64_of_lt (by omega)]) (by
      rw [← steppedSize, u64_of_lt hsize]
      exact le_steppedSize hs x needed)
  have hle : x ≤ steppedSize x needed step := Nat.le_add_right _ _
  rwa [zero_mul, add_zero, u64_of_lt (hle.trans_lt hsize), ← steppedSize, u64_of_lt hsize] at hend

theorem steppedMax_never (hx : x < 2 ^ 64) (hlt : ∀ k, u64 (x + k * step) < needed) :
    steppedMax x needed step = none := by
  have := whileLoop_never (fun n => u64 (n + step)) (fun k => u64 (x + k * step))
    (stepped_succ x step) hlt (2 ^ 64) 0
  rwa [zero_mul, add_zero, u64_of_lt hx] at this

theorem steppedMax_short (hs : 0 < step) (hstep : 24 * step < 2 ^ 64) (hlt : x < needed)
    (hn : needed < 2 ^ 64) (hsize : 2 ^ 64 ≤ 24 * steppedSize x needed step)
    (hy : steppedMax x needed step = some y) : u64 (y * 24) / 24 < needed := by
  rcases Nat.lt_or_ge ((2 ^ 64 - 1) / 24) needed with hlarge | hsmall
  · have := u64_lt (y * 24)
    omega
  · have hlt' := steppedSize_lt hs hlt
    rw [steppedMax_eq hs hn (by omega), Option.some_inj] at hy
    unfold u64
    omega

end Loops

section Growth

variable {os : OS} {s : State} {add y : ℕ}

def OS.answering (os : OS) (ok : ℕ → Bool) : OS := { os with ok := ok }

theorem Machine.reply_answering (os : OS) (m : Machine) : m.reply (os.answering fun _ => true) = true :=
  rfl

/-- Whatever the heap answers, making room in the frame table ends, and when it returns both the
capacity and the block have room for the frames there are and `add` more. -/
def PfnsRoom (os : OS) (s : State) (add : ℕ) : Prop :=
  ∀ ok : ℕ → Bool, Meets (AssertPfnsStorage (os.answering ok) add) s
    (fun _ t => s.ctx.pfns_num_ + add ≤ t.ctx.pfns_max_ ∧
      s.ctx.pfns_num_ + add ≤ t.ctx.frames.length) fun e _ => e ≠ .diverge

/-- Whatever the heap answers, making room in the container table ends, and when it returns both the
capacity and the block have room for the containers there are and `add` more. -/
def ContainersRoom (os : OS) (s : State) (add : ℕ) : Prop :=
  ∀ ok : ℕ → Bool, Meets (AssertContainerContextStorage (os.answering ok) add) s
    (fun _ t => s.ctx.containers_num_ + add ≤ t.ctx.containers_max_ ∧
      s.ctx.containers_num_ + add ≤ t.ctx.room) fun e _ => e ≠ .diverge

theorem u64_wrapped {n a m : ℕ} (ha : a < 2 ^ 64) (hn : n ≤ m) (hm : m < 2 ^ 64)
    (hw : 2 ^ 64 ≤ n + a) : ¬ m < u64 (n + a) ∧ ¬ n + a ≤ m := by
  unfold u64
  omega

theorem meets_grow_pfns {R : Unit → State → Prop} (hneed : s.ctx.pfns_max_ < s.ctx.pfns_num_ + add)
    (hlt : s.ctx.pfns_num_ + add < 2 ^ 64)
    (hy : doubledMax s.ctx.pfns_max_ (s.ctx.pfns_num_ + add) = some y)
    (h : ∀ t : State, t.ctx.pfns_max_ = y → t.ctx.frames.length = u64 (y * 8) / 8 → R () t) :
    Meets (AssertPfnsStorage os add) s R fun e _ => e ≠ .diverge ∧ s.mach.reply os = false := by
  rw [AssertPfnsStorage, meets_bind, meets_getCtx, u64_of_lt hlt, if_pos hneed, meets_bind,
    meets_fetch hy]
  simp only [HeapReAlloc, meets_bind, meets_osCall, meets_pure, meets_modifyCtx, Machine.heapCall]
  refine meets_ensure (fun hok => ?_) fun hok => ?_
  · refine h _ rfl ?_
    cases hr : s.mach.reply os with
    | true => exact length_resize ..
    | false => simp [hr] at hok
  · cases hr : s.mach.reply os with
    | true => simp [hr] at hok
    | false => simp

theorem pfnsRoom_iff (hadd : add < 2 ^ 64) (hnum : s.ctx.pfns_num_ ≤ s.ctx.pfns_max_)
    (hmax : s.ctx.pfns_max_ < 2 ^ 64) :
    PfnsRoom os s add ↔ s.ctx.PfnsFit (s.ctx.pfns_num_ + add) := by
  rw [HyperContainerContext.PfnsFit, sizeofFrame]
  rcases Nat.lt_or_ge s.ctx.pfns_max_ (s.ctx.pfns_num_ + add) with hneed | hroom
  · rw [if_neg (not_le.mpr hneed)]
    constructor
    · intro hall
      have hmeets := hall fun _ => true
      rcases Nat.lt_or_ge (s.ctx.pfns_num_ + add) (2 ^ 64) with hlt | hge
      · cases hy : doubledMax s.ctx.pfns_max_ (s.ctx.pfns_num_ + add) with
        | none =>
          rw [AssertPfnsStorage, meets_bind, meets_getCtx, u64_of_lt hlt, if_pos hneed, meets_bind,
            meets_fetch_none hy] at hmeets
          exact absurd rfl hmeets
        | some y =>
          have hpos : 0 < s.ctx.pfns_max_ := by
            refine Nat.pos_of_ne_zero fun hz => ?_
            rw [doubledMax_never hmax (fun k => by rw [hz, zero_mul, u64]; omega)] at hy
            cases hy
          refine ⟨hpos, not_le.mp fun hsize => ?_⟩
          -- the heap gives the block asked for, which is too small
          have hshort := doubledMax_short hpos hneed hlt hsize hy
          have hgrow := @meets_grow_pfns (os.answering fun _ => true) s add y
            (fun _ t => t.ctx.frames.length = u64 (y * 8) / 8) hneed hlt hy fun t _ ht => ht
          obtain ⟨-, t, -, ⟨-, h₁⟩, h₂⟩ := (hmeets.and hgrow).returns fun e he =>
            Bool.noConfusion (he.2.2.symm.trans (s.mach.reply_answering os))
          omega
      · rw [AssertPfnsStorage, meets_bind, meets_getCtx,
          if_neg (u64_wrapped hadd hnum hmax hge).1, meets_pure] at hmeets
        omega
    · rintro ⟨hpos, hsize⟩ ok
      have hle := le_doubledSize hpos (s.ctx.pfns_num_ + add)
      refine (meets_grow_pfns hneed (by omega) (doubledMax_eq hpos (by omega) (by omega))
        fun t h₁ h₂ => ?_).mono (fun _ _ => id) fun _ _ he => he.1
      rw [h₁, h₂, u64_of_lt (by omega), Nat.mul_div_cancel _ (by decide)]
      exact ⟨hle, hle⟩
  · have hmeets : ∀ ok, Meets (AssertPfnsStorage (os.answering ok) add) s
        (fun _ t => s.ctx.pfns_num_ + add ≤ t.ctx.pfns_max_ ∧
          s.ctx.pfns_num_ + add ≤ t.ctx.frames.length) (fun e _ => e ≠ .diverge) ↔
        s.ctx.pfns_num_ + add ≤ s.ctx.frames.length := fun ok => by
      rw [AssertPfnsStorage, meets_bind, meets_getCtx, u64_of_lt (by omega),
        if_neg (not_lt.mpr hroom), meets_pure, and_iff_right hroom]
    rw [if_pos hroom]
    exact ⟨fun h => (hmeets fun _ => true).mp (h _), fun h ok => (hmeets ok).mpr h⟩

theorem meets_grow_containers {R : Unit → State → Prop}
    (hneed : s.ctx.containers_max_ < s.ctx.containers_num_ + add)
    (hlt : s.ctx.containers_num_ + add < 2 ^ 64)
    (hy : steppedMax s.ctx.containers_max_ (s.ctx.containers_num_ + add)
      (os.page_size / sizeofContainerContext) = some y)
    (h : ∀ t : State, t.ctx.containers_max_ = y → t.ctx.room = u64 (y * 24) / 24 → R () t) :
    Meets (AssertContainerContextStorage os add) s R
      fun e _ => e ≠ .diverge ∧ s.mach.reply os = false := by
  rw [AssertContainerContextStorage, meets_bind, meets_getCtx, u64_of_lt hlt, if_pos hneed]
  dsimp only
  rw [meets_bind, meets_fetch hy]
  simp only [meets_bind, meets_osCall, meets_modifyCtx, Machine.heapCall]
  refine meets_ensure (fun hok => ?_) fun hok => ?_
  · refine h _ rfl ?_
    simp [HyperContainerContext.room, hok, sizeofContainerContext]
  · simp [hok]

theorem containersRoom_iff (hadd : add < 2 ^ 64)
    (hnum : s.ctx.containers_num_ ≤ s.ctx.containers_max_) (hmax : s.ctx.containers_max_ < 2 ^ 64) :
    ContainersRoom os s add ↔ s.ctx.ContainersFit os (s.ctx.containers_num_ + add) := by
  have hP := os.page_size_lt
  have hstep := Nat.div_mul_le_self os.page_size sizeofContainerContext
  have hpos_iff : 0 < os.page_size / sizeofContainerContext ↔ sizeofContainerContext ≤ os.page_size :=
    Nat.div_pos_iff.trans (and_iff_right (by decide))
  rw [HyperContainerContext.ContainersFit, ← hpos_iff,
    show ∀ x, sizeofContainerContext * x = 24 * x from fun _ => rfl]
  rcases Nat.lt_or_ge s.ctx.containers_max_ (s.ctx.containers_num_ + add) with hneed | hroom
  · rw [if_neg (not_le.mpr hneed)]
    constructor
    · intro hall
      have hmeets := hall fun _ => true
      rcases Nat.lt_or_ge (s.ctx.containers_num_ + add) (2 ^ 64) with hlt | hge
      · cases hy : steppedMax s.ctx.containers_max_ (s.ctx.containers_num_ + add)
          (os.page_size / sizeofContainerContext) with
        | none =>
          rw [AssertContainerContextStorage, meets_bind, meets_getCtx, u64_of_lt hlt,
            if_pos hneed] at hmeets
          dsimp only at hmeets
          rw [meets_bind, meets_fetch_none hy] at hmeets
          exact absurd rfl hmeets
        | some y =>
          have hpos : 0 < os.page_size / sizeofContainerContext := by
            refine Nat.pos_of_ne_zero fun hz => ?_
            rw [steppedMax_never hmax (fun k => by
              rw [hz, mul_zero, add_zero, u64_of_lt hmax]
              exact hneed)] at hy
            cases hy
          refine ⟨hpos, not_le.mp fun hsize => ?_⟩
          -- the heap gives the block asked for, which is too small
          have hshort := steppedMax_short hpos (by
            unfold sizeofContainerContext at hstep ⊢
            omega)
            hneed hlt hsize hy
          have hgrow := @meets_grow_containers (os.answering fun _ => true) s add y
            (fun _ t => t.ctx.room = u64 (y * 24) / 24) hneed hlt hy fun t _ ht => ht
          obtain ⟨-, t, -, ⟨-, h₁⟩, h₂⟩ := (hmeets.and hgrow).returns fun e he =>
            Bool.noConfusion (he.2.2.symm.trans (s.mach.reply_answering os))
          omega
      · rw [AssertContainerContextStorage, meets_bind, meets_getCtx,
          if_neg (u64_wrapped hadd hnum hmax hge).1, meets_pure] at hmeets
        omega
    · rintro ⟨hpos, hsize⟩ ok
      have hle := le_steppedSize hpos s.ctx.containers_max_ (s.ctx.containers_num_ + add)
      have hy := @steppedMax_eq (s.ctx.containers_num_ + add) s.ctx.containers_max_ _ hpos (by omega)
        (by omega)
      refine (@meets_grow_containers (os.answering ok) s add _ _ hneed (by omega) hy
        fun t h₁ h₂ => ?_).mono (fun _ _ => id) fun _ _ he => he.1
      rw [h₁, h₂, u64_of_lt (by omega), Nat.mul_div_cancel _ (by decide)]
      exact ⟨hle, hle⟩
  · have hmeets : ∀ ok, Meets (AssertContainerContextStorage (os.answering ok) add) s
        (fun _ t => s.ctx.containers_num_ + add ≤ t.ctx.containers_max_ ∧
          s.ctx.containers_num_ + add ≤ t.ctx.room) (fun e _ => e ≠ .diverge) ↔
        s.ctx.containers_num_ + add ≤ s.ctx.room := fun ok => by
      rw [AssertContainerContextStorage, meets_bind, meets_getCtx, u64_of_lt (by omega),
        if_neg (not_lt.mpr hroom), meets_pure, and_iff_right hroom]
    rw [if_pos hroom]
    exact ⟨fun h => (hmeets fun _ => true).mp (h _), fun h ok => (hmeets ok).mpr h⟩

/-- Both tables have room for any number of entries that a caller adds, if and only if they have it
already or the size that their loop reaches, and its bytes, are words. -/
theorem growth_iff (hadd : add < 2 ^ 64) (hnum : s.ctx.pfns_num_ ≤ s.ctx.pfns_max_)
    (hmax : s.ctx.pfns_max_ < 2 ^ 64) (hnum' : s.ctx.containers_num_ ≤ s.ctx.containers_max_)
    (hmax' : s.ctx.containers_max_ < 2 ^ 64) :
    (PfnsRoom os s add ↔ s.ctx.PfnsFit (s.ctx.pfns_num_ + add)) ∧
      (ContainersRoom os s add ↔ s.ctx.ContainersFit os (s.ctx.containers_num_ + add)) :=
  ⟨pfnsRoom_iff hadd hnum hmax, containersRoom_iff hadd hnum' hmax'⟩

/-- A table whose size is a power of two never doubles beyond the highest bit. -/
theorem doubledMax_two_pow {j needed : ℕ} (hj : j < 64) (h : 2 ^ 63 < needed) :
    doubledMax (2 ^ j) needed = none := by
  refine doubledMax_never (Nat.pow_lt_pow_right (by decide) hj) fun k => ?_
  rw [← pow_add]
  rcases Nat.lt_or_ge (j + k) 64 with hlt | hge
  · have hle : 2 ^ (j + k) ≤ 2 ^ 63 := Nat.pow_le_pow_right (by decide) (by omega)
    rw [u64_of_lt (by omega)]
    omega
  · obtain ⟨i, hi⟩ := Nat.exists_eq_add_of_le hge
    rw [hi, u64, pow_add, Nat.mul_mod_right]
    omega

/-- The first request of a hypercontainer never ends when its page count exceeds an `int`. -/
theorem alloc_never_ends {size base x sizeofT n : ℕ} (hs : s.ctx = .new os size true true)
    (hP : sizeofContainerContext ≤ os.page_size)
    (hpages : 2 ^ 31 ≤ ceilPages os (u64 (sizeofT * n))) :
    Meets (ContainerAlloc os base (.var x) sizeofT n) s (fun _ _ => False)
      fun e _ => e = .diverge := by
  unfold sizeofContainerContext at hP
  have hpos : 0 < u64 (sizeofT * n) := by
    by_contra h₀
    rw [Nat.eq_zero_of_not_pos h₀, ceilPages_zero] at hpages
    exact absurd hpages (by decide)
  have hcast : intCast (ceilPages os (u64 (sizeofT * n))) = 2 ^ 64 - 2 ^ 31 :=
    if_neg (not_lt.mpr hpages)
  have hmax : ∃ j, os.page_size / sizeofFrame = 2 ^ j := by
    have h₃ : 3 ≤ os.pageShift := by
      by_contra hlt
      have : os.page_size ≤ 2 ^ 2 := Nat.pow_le_pow_right (by decide) (by omega)
      omega
    obtain ⟨j, hj⟩ := Nat.exists_eq_add_of_le h₃
    exact ⟨j, by rw [OS.page_size, hj, pow_add, sizeofFrame, show 2 ^ 3 = 8 from rfl,
      Nat.mul_div_cancel_left _ (by decide)]⟩
  obtain ⟨j, hj⟩ := hmax
  have hPlt := os.page_size_lt
  have hroom : 1 ≤ os.page_size / sizeofContainerContext :=
    Nat.div_pos hP (by decide)
  have hnum : s.ctx.containers_num_ = 0 := by rw [hs]; rfl
  have hcmax : s.ctx.containers_max_ = os.page_size / sizeofContainerContext := by rw [hs]; rfl
  have hpnum : s.ctx.pfns_num_ = 0 := by rw [hs]; rfl
  have hpmax : s.ctx.pfns_max_ = 2 ^ j := by rw [hs]; exact hj
  have hcells : s.ctx.containercontext_storage_ = some ⟨[], os.page_size / sizeofContainerContext⟩ := by
    rw [hs]; rfl
  have hnone : doubledMax (2 ^ j) (2 ^ 64 - 2 ^ 31) = none := by
    refine doubledMax_two_pow ((Nat.pow_lt_pow_iff_right (show 1 < 2 by decide)).mp ?_) (by decide)
    rw [← hj]
    exact (Nat.div_le_self _ _).trans_lt (by omega)
  have hlt : 2 ^ j < 2 ^ 64 - 2 ^ 31 := by
    have := Nat.div_le_self os.page_size sizeofFrame
    omega
  have hu : u64 (s.ctx.containers_num_ + 1) = 1 := by rw [hnum]; rfl
  rw [ContainerAlloc, meets_bind, nextSlot, meets_bind, meets_getCtx, if_pos hnum, meets_pure]
  dsimp only
  rw [meets_bind, insert, meets_bind]
  -- there is room for one container
  have hdiv := Nat.div_le_self os.page_size sizeofContainerContext
  refine meets_AssertContainerContextStorage hcells (by omega) (by omega) (fun _ => ?_)
    (fun h _ => absurd h (by omega)) (fun _ _ h _ _ _ _ => absurd h (by omega))
    fun _ h _ => absurd h (by omega)
  rw [meets_bind, meets_modifyCtx, meets_bind, meets_getCtx]
  dsimp only
  rw [hu, show sub64 1 1 = ([] : List ContainerContext).length from rfl,
    meets_writeContext_append (s := ⟨s.mach, { s.ctx with containers_num_ := 1 }⟩) hcells hroom,
    meets_bind, meets_storePtr (Machine.assign_var ..), if_neg (not_le.mpr hpos), sub64_zero, u64_u64, hcast,
    allocPages_eq, meets_bind, AssertPfnsStorage, meets_bind, meets_getCtx]
  dsimp only
  rw [hpmax, hpnum, zero_add, u64_of_lt (by omega), if_pos hlt, hnone, meets_bind]
  exact (meets_fetch_none rfl).mpr rfl

/-- Eight terabytes from an empty hypercontainer with pages of 4096 bytes: the page count is cast
to `INT_MIN`. -/
theorem growth_of_eight_terabytes :
    let os := OS.plain 12 (by decide) fun _ => true
    let s : State := ⟨.initial, .new os (2 ^ 44) true true⟩
    ¬ PfnsRoom os s (intCast (ceilPages os (u64 (8 * 2 ^ 40)))) ∧
      Meets (ContainerAlloc os (2 ^ 16) (.var 0) 8 (2 ^ 40)) s (fun _ _ => False)
        fun e _ => e = .diverge := by
  intro os s
  have hpages : ceilPages os (u64 (8 * 2 ^ 40)) = 2 ^ 31 := by decide
  have hadd : intCast (ceilPages os (u64 (8 * 2 ^ 40))) = 2 ^ 64 - 2 ^ 31 := by rw [hpages]; rfl
  refine ⟨?_, alloc_never_ends rfl (by decide) hpages.ge⟩
  have hnum : s.ctx.pfns_num_ = 0 := by decide
  have hmax : s.ctx.pfns_max_ = 2 ^ 9 := by decide
  rw [hadd, pfnsRoom_iff (by decide) (by decide) (by decide), hnum,
    HyperContainerContext.PfnsFit, hmax, if_neg (by decide)]
  rintro ⟨hpos, h⟩
  have := le_doubledSize hpos (0 + (2 ^ 64 - 2 ^ 31))
  unfold sizeofFrame at h
  omega

/-- A block of 512 frames doubles to 1024, and one of 170 containers grows to 680. -/
theorem growth_of_six_hundred :
    let os := OS.plain 12 (by decide) fun _ => true
    let s : State := ⟨.initial, .new os (2 ^ 44) true true⟩
    PfnsRoom os s 600 ∧ ContainersRoom os s 600 := by
  intro os s
  obtain ⟨h₁, h₂⟩ := @growth_iff os s 600 (by decide) (by decide) (by decide) (by decide) (by decide)
  have hnum : s.ctx.pfns_num_ + 600 = 600 := by decide
  have hmax : s.ctx.pfns_max_ = 512 := by decide
  have hsize : doubledSize 512 600 < 2 * 600 := doubledSize_lt (by decide) (by decide)
  refine ⟨h₁.mpr ?_, h₂.mpr ?_⟩
  · rw [hnum, HyperContainerContext.PfnsFit, hmax, if_neg (by decide), sizeofFrame]
    exact ⟨by decide, by omega⟩
  · rw [HyperContainerContext.ContainersFit, if_neg (by decide)]
    exact ⟨by decide, by decide⟩

end Growth

end VcmallocBench
