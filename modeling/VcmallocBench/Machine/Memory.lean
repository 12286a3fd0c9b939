import VcmallocBench.Machine.OS

/-! # Virtual memory

Bytes are read and written through the page table. A pointer variable is either
a variable of the program or eight bytes of virtual memory.
-/

namespace VcmallocBench

inductive PtrLoc where
  | var (x : ℕ)
  | mem (address : ℕ)
  deriving DecidableEq

def leWord (bs : ℕ → Byte) : ℕ := Nat.ofDigits 256 ((List.range 8).map fun i => (bs i).toNat)

def leByte (v i : ℕ) : Byte := UInt8.ofNat (v / 256 ^ i)

theorem leWord_leByte {v : ℕ} (h : v < 2 ^ 64) : leWord (leByte v) = v := by
  simp only [leWord, leByte, List.range, List.range.loop, List.map_cons, List.map_nil,
    Nat.ofDigits_cons, Nat.ofDigits_nil, UInt8.toNat_ofNat']
  norm_num
  omega

theorem leWord_congr {bs cs : ℕ → Byte} (h : ∀ i < 8, bs i = cs i) : leWord bs = leWord cs := by
  unfold leWord
  congr 1
  refine List.map_congr_left fun i hi => ?_
  rw [h i (List.mem_range.mp hi)]

/-- Write `bs 0, …, bs (n - 1)` to the frames mapped at `a, …, a + n - 1`. -/
def poke (pageTable : ℕ → Option Frame) (P a : ℕ) (bs : ℕ → Byte) :
    ℕ → (Frame → ℕ → Byte) → Frame → ℕ → Byte
  | 0, d => d
  | n + 1, d =>
    match pageTable ((a + n) / P) with
    | some f => fun g y => if g = f ∧ y = (a + n) % P then bs n else poke pageTable P a bs n d g y
    | none => poke pageTable P a bs n d

/-- The bytes of frame `g` from offset `o` on, copied to the same offsets of frame `f`. -/
def tailCopy (P : ℕ) (f g : Frame) (o : ℕ) (d : Frame → ℕ → Byte) : Frame → ℕ → Byte :=
  fun x y => if x = f ∧ o ≤ y ∧ y < P then d g y else d x y

theorem poke_page {pt : ℕ → Option Frame} {P a q n : ℕ} {f : Frame} (bs : ℕ → Byte)
    (d : Frame → ℕ → Byte) (hq : ∀ i < n, (a + i) / P = q ∧ (a + i) % P = a % P + i)
    (hf : pt q = some f) (x y : ℕ) :
    poke pt P a bs n d x y =
      if x = f ∧ a % P ≤ y ∧ y < a % P + n then bs (y - a % P) else d x y := by
  induction n with
  | zero => rw [poke, if_neg (by omega)]
  | succ n ih =>
    obtain ⟨h₁, h₂⟩ := hq n (Nat.lt_succ_self n)
    rw [poke, h₁, hf]
    dsimp only
    rw [ih fun i hi => hq i (Nat.lt_succ_of_lt hi), h₂]
    by_cases hx : x = f ∧ y = a % P + n
    · rw [if_pos hx, if_pos (by omega), hx.2, Nat.add_sub_cancel_left]
    · rw [if_neg hx]
      by_cases hy : x = f ∧ a % P ≤ y ∧ y < a % P + n
      · rw [if_pos hy, if_pos (by omega)]
      · rw [if_neg hy, if_neg (by omega)]

/-- What a poke leaves at an address whose frame no other address of the range is mapped to. -/
theorem poke_read {pt : ℕ → Option Frame} {P a n x : ℕ} {f : Frame} (bs : ℕ → Byte)
    (d : Frame → ℕ → Byte) (hm : ∀ i < n, ∃ g, pt ((a + i) / P) = some g)
    (hx : pt (x / P) = some f) (hu : ∀ i < n, pt ((a + i) / P) = some f → (a + i) / P = x / P) :
    poke pt P a bs n d f (x % P) = if a ≤ x ∧ x < a + n then bs (x - a) else d f (x % P) := by
  induction n with
  | zero => rw [poke, if_neg (by omega)]
  | succ n ih =>
    have ih := ih (fun i hi => hm i (Nat.lt_succ_of_lt hi)) fun i hi => hu i (Nat.lt_succ_of_lt hi)
    obtain ⟨g, hg⟩ := hm n (Nat.lt_succ_self n)
    rw [poke, hg]
    dsimp only
    rw [ih]
    by_cases he : f = g ∧ x % P = (a + n) % P
    · have hd := hu n (Nat.lt_succ_self n) (he.1 ▸ hg)
      have hxa : x = a + n := by
        rw [← Nat.div_add_mod x P, ← Nat.div_add_mod (a + n) P, hd, he.2]
      rw [if_pos he, if_pos (by omega), hxa, Nat.add_sub_cancel_left]
    · rw [if_neg he]
      have hxa : x ≠ a + n := by
        rintro rfl
        exact he ⟨Option.some.inj (hx.symm.trans hg), rfl⟩
      by_cases hin : a ≤ x ∧ x < a + n
      · rw [if_pos hin, if_pos (by omega)]
      · rw [if_neg hin, if_neg (by omega)]

namespace Machine

variable (os : OS) (m : Machine)

def read (a : ℕ) : Option Byte :=
  (m.pageTable (a / os.page_size)).map fun f => m.frameData f (a % os.page_size)

def mapped (a : ℕ) : Bool := (m.pageTable (a / os.page_size)).isSome

/-- Write `n` bytes, or fail at an unmapped page. -/
def store (a : ℕ) (bs : ℕ → Byte) (n : ℕ) : Option Machine :=
  if ∀ i < n, m.mapped os (a + i) then
    some { m with frameData := poke m.pageTable os.page_size a bs n m.frameData }
  else none

/-- Copy `n` bytes, or fail at an unmapped page. The source is read before anything is written. -/
def memmove (dst src n : ℕ) : Option Machine :=
  if ∀ i < n, m.mapped os (src + i) then
    m.store os dst (fun i => (m.read os (src + i)).getD 0) n
  else none

def load : PtrLoc → Option ℕ
  | .var x => some (m.vars x)
  | .mem a =>
    if ∀ i < 8, m.mapped os (a + i) then some (leWord fun i => (m.read os (a + i)).getD 0) else none

def assign : PtrLoc → ℕ → Option Machine
  | .var x, v => some { m with vars := Function.update m.vars x v }
  | .mem a, v => m.store os a (leByte v) 8

variable {os m}

@[simp] theorem load_var (x : ℕ) : m.load os (.var x) = some (m.vars x) := rfl

@[simp] theorem assign_var (x v : ℕ) :
    m.assign os (.var x) v = some { m with vars := Function.update m.vars x v } := rfl

theorem memmove_zero (dst src : ℕ) : m.memmove os dst src 0 = some m := by
  simp [memmove, store, poke]

theorem memmove_gap {a dst : ℕ} {f g : Frame} (hmod : dst % os.page_size = a % os.page_size)
    (hpos : 0 < Paging.gap os.page_size a) (hs : m.pageTable (a / os.page_size) = some g)
    (hd : m.pageTable (dst / os.page_size) = some f) :
    m.memmove os dst a (Paging.gap os.page_size a) =
      some { m with frameData := tailCopy os.page_size f g (a % os.page_size) m.frameData } := by
  have hP := os.page_size_pos
  obtain ⟨-, hg⟩ := Paging.page_of_gap hP hpos
  have hin : ∀ b : ℕ, b % os.page_size = a % os.page_size → ∀ i < Paging.gap os.page_size a,
      (b + i) / os.page_size = b / os.page_size ∧ (b + i) % os.page_size = b % os.page_size + i := by
    intro b hb i hi
    have hlt : b % os.page_size + i < os.page_size := by omega
    have he : b + i = b % os.page_size + i + b / os.page_size * os.page_size := by
      have := Nat.mod_add_div b os.page_size
      rw [mul_comm] at this
      omega
    rw [he]
    constructor
    · rw [Nat.add_mul_div_right _ _ hP, Nat.div_eq_of_lt hlt, zero_add]
    · rw [Nat.add_mul_mod_self_right, Nat.mod_eq_of_lt hlt]
  have hms : ∀ i < Paging.gap os.page_size a, m.mapped os (a + i) := fun i hi => by
    rw [mapped, (hin a rfl i hi).1, hs]; rfl
  have hmd : ∀ i < Paging.gap os.page_size a, m.mapped os (dst + i) := fun i hi => by
    rw [mapped, (hin dst hmod i hi).1, hd]; rfl
  rw [memmove, if_pos hms, store, if_pos hmd]
  congr 2
  funext x y
  rw [poke_page _ _ (fun i hi => hin dst hmod i hi) hd, tailCopy, hmod, hg]
  by_cases hx : x = f ∧ a % os.page_size ≤ y ∧ y < os.page_size
  · obtain ⟨h₁, h₂⟩ := hin a rfl (y - a % os.page_size) (by omega)
    rw [if_pos hx, if_pos hx, read, h₁, hs, h₂, Nat.add_sub_cancel' hx.2.1]
    rfl
  · rw [if_neg hx, if_neg hx]

theorem tailCopy_of_ne {P : ℕ} {f g x : Frame} {o y : ℕ} {d : Frame → ℕ → Byte} (h : x ≠ f) :
    tailCopy P f g o d x y = d x y := if_neg fun hx => h hx.1

theorem tailCopy_of_lt {P : ℕ} {f g x : Frame} {o y : ℕ} {d : Frame → ℕ → Byte} (h : y < o) :
    tailCopy P f g o d x y = d x y := if_neg fun hx => absurd hx.2.1 (not_le.mpr h)

theorem tailCopy_self {P : ℕ} {f g : Frame} {o y : ℕ} {d : Frame → ℕ → Byte} (h : o ≤ y)
    (hy : y < P) : tailCopy P f g o d f y = d g y := if_pos ⟨rfl, h, hy⟩

end Machine

end VcmallocBench
