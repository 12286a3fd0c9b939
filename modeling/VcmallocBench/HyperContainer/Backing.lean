import VcmallocBench.HyperContainer.Tables

/-! # Backing of a hypercontainer by frames

The frames of a table, mapped in order from a base page on. When a container
changes its number of pages, the pages behind it are mapped elsewhere and the
bytes of its last page that belong to its guests are copied. Every byte before
the end of the container stays where it is, every byte behind moves with it.
-/

namespace VcmallocBench

open Paging

structure Backed (os : OS) (m : Machine) (h : ℕ) (fs : List Frame) : Prop where
  nodup : fs.Nodup
  held : ∀ f ∈ fs, f ∈ m.allocated
  page : ∀ i < fs.length, m.pageTable (h + i) = fs[i]?

theorem page_of_address {P h n a : ℕ} (hP : 0 < P) (ha : h * P ≤ a) (hb : a < (h + n) * P) :
    ∃ i < n, a / P = h + i := by
  have h₁ : h ≤ a / P := (Nat.le_div_iff_mul_le hP).mpr ha
  have h₂ : a / P < h + n := (Nat.div_lt_iff_lt_mul hP).mpr hb
  exact ⟨a / P - h, by omega, by omega⟩

namespace Backed

variable {os : OS} {m m' : Machine} {h : ℕ} {fs : List Frame}

theorem page_eq (hb : Backed os m h fs) {i : ℕ} {f : Frame} (hf : fs[i]? = some f) :
    m.pageTable (h + i) = some f := by
  rw [hb.page i (List.getElem?_eq_some_iff.mp hf).1, hf]

theorem read_eq (hb : Backed os m h fs) {a i : ℕ} {f : Frame} (ha : a / os.page_size = h + i)
    (hf : fs[i]? = some f) : m.read os a = some (m.frameData f (a % os.page_size)) := by
  rw [Machine.read, ha, hb.page_eq hf, Option.map_some]

theorem held_range (hb : Backed os m h fs) :
    m.Held os (h * os.page_size) ((h + fs.length) * os.page_size) where
  mapped a h₁ h₂ := by
    obtain ⟨i, hi, ha⟩ := page_of_address os.page_size_pos h₁ h₂
    rw [Machine.mapped, ha, hb.page i hi, List.getElem?_eq_getElem hi]
    rfl
  inj a b h₁ h₂ h₃ h₄ he := by
    obtain ⟨i, hi, ha⟩ := page_of_address os.page_size_pos h₁ h₂
    obtain ⟨j, hj, hb'⟩ := page_of_address os.page_size_pos h₃ h₄
    rw [ha, hb', hb.page i hi, hb.page j hj, List.getElem?_inj hi hb.nodup] at he
    rw [ha, hb', he]

end Backed

/-- The frames of one container of `pages` pages at position `start`, which ends at `next`, are
replaced by `req` ones, and its guest bytes are copied to the last of them. -/
structure Remapped (os : OS) (m m' : Machine) (h start pages req next : ℕ)
    (fs fs' : List Frame) : Prop where
  backed : Backed os m h fs
  backed' : Backed os m' h fs'
  bound : start + pages ≤ fs.length
  length : fs'.length + pages = fs.length + req
  low : ∀ i < start + min pages req, fs'[i]? = fs[i]?
  high : ∀ i, start + pages ≤ i → fs'[i + req - pages]? = fs[i]?
  next_page : next ⌈/⌉ os.page_size = h + start + pages
  base : h * os.page_size + pages * os.page_size ≤ next + req * os.page_size
  data : ∀ (i : ℕ) f o, fs'[i]? = some f → f ∈ fs →
    (0 < gap os.page_size next → i + 1 = start + req → o < next % os.page_size) →
    m'.frameData f o = m.frameData f o
  guest : 0 < gap os.page_size next → ∀ f g o, fs'[start + req - 1]? = some f →
    fs[start + pages - 1]? = some g → next % os.page_size ≤ o → o < os.page_size →
    m'.frameData f o = m.frameData g o

namespace Remapped

variable {os : OS} {m m' : Machine} {h start pages req next : ℕ} {fs fs' : List Frame}

/-- The bytes before the old and the new end of the container stay. -/
theorem read_below (hr : Remapped os m m' h start pages req next fs fs') {a : ℕ}
    (ha : h * os.page_size ≤ a) (h₁ : a < next)
    (h₂ : a + pages * os.page_size < next + req * os.page_size) : m'.read os a = m.read os a := by
  have hP := os.page_size_pos
  have hb := hr.bound
  have hpage := hr.next_page
  have hlt := div_lt_ceil hP h₁
  have hlt' := div_lt_ceil hP h₂
  rw [Nat.add_mul_div_right _ _ hP, ceil_add_mul hP] at hlt'
  have hle : h ≤ a / os.page_size := (Nat.le_div_iff_mul_le hP).mpr ha
  obtain ⟨i, hi⟩ := Nat.exists_eq_add_of_le hle
  have hlow := hr.low i (by omega)
  have hget := List.getElem?_eq_getElem (l := fs) (i := i) (by omega)
  have hget' := hlow.trans hget
  rw [hr.backed.read_eq hi hget, hr.backed'.read_eq hi hget']
  refine congrArg some (hr.data i _ _ hget' (List.mem_of_getElem? hget) fun hg hlast => ?_)
  -- in the last page, only the bytes from the end of the container on are copied
  obtain ⟨hq, -⟩ := page_of_gap hP hg
  have hn := Nat.div_add_mod next os.page_size
  have haP := Nat.div_add_mod a os.page_size
  rw [mul_comm] at hn haP
  have e₁ : next / os.page_size = h + start + pages - 1 := by omega
  have e₂ : (a / os.page_size + pages) = next / os.page_size + req := by omega
  have e₃ := congrArg (· * os.page_size) e₂
  simp only [add_mul] at e₃
  omega

theorem read_behind (hr : Remapped os m m' h start pages req next fs fs') {a : ℕ}
    (h₁ : next ≤ a) (h₂ : a < (h + fs.length) * os.page_size)
    (hbase : h * os.page_size ≤ next) :
    m'.read os (a + req * os.page_size - pages * os.page_size) = m.read os a := by
  have hP := os.page_size_pos
  have hb := hr.bound
  have hb' := hr.base
  have hlen := hr.length
  have hpage := hr.next_page
  have hnext := add_gap hP next
  rw [hpage, add_mul] at hnext
  have hge := ceil_le_div_succ hP h₁
  obtain ⟨i, hi, ha⟩ := page_of_address hP (hbase.trans h₁) h₂
  have haP := Nat.div_add_mod a os.page_size
  rw [mul_comm, ha, add_mul] at haP
  have hmod := Nat.mod_lt a hP
  have hpos : pages ≤ i + req := by
    by_contra hn
    have h₃ : (i + req + 1) * os.page_size ≤ pages * os.page_size :=
      Nat.mul_le_mul_right _ (by omega)
    rw [add_mul, add_mul, one_mul] at h₃
    omega
  have he : a + req * os.page_size - pages * os.page_size =
      a % os.page_size + (h + (i + req - pages)) * os.page_size := by
    rw [show h + (i + req - pages) = h + i + req - pages by omega, Nat.sub_mul, add_mul, add_mul]
    have h₄ : pages * os.page_size ≤ (i + req) * os.page_size := Nat.mul_le_mul_right _ hpos
    rw [add_mul] at h₄
    omega
  have hdiv : (a + req * os.page_size - pages * os.page_size) / os.page_size =
      h + (i + req - pages) := by
    rw [he, Nat.add_mul_div_right _ _ hP, Nat.div_eq_of_lt hmod, zero_add]
  have hmod' : (a + req * os.page_size - pages * os.page_size) % os.page_size =
      a % os.page_size := by
    rw [he, Nat.add_mul_mod_self_right, Nat.mod_mod]
  have hget := List.getElem?_eq_getElem hi
  have hget' := List.getElem?_eq_getElem (l := fs') (i := i + req - pages) (by omega)
  rw [hr.backed.read_eq ha hget, hr.backed'.read_eq hdiv hget', hmod']
  refine congrArg some ?_
  rcases Nat.lt_or_ge i (start + pages) with hlt | hge'
  · -- the page shared with the guests
    have hii : i = start + pages - 1 := by omega
    have h₅ : (h + i + 1) * os.page_size = h * os.page_size + i * os.page_size + os.page_size := by
      rw [add_mul, add_mul, one_mul]
    have h₆ : (h + start + pages) = h + i + 1 := by omega
    have h₇ : next + gap os.page_size next = (h + i + 1) * os.page_size := by
      rw [← h₆, ← hpage]; exact add_gap hP next
    have hg : 0 < gap os.page_size next := by omega
    obtain ⟨hq, hgm⟩ := page_of_gap hP hg
    refine hr.guest hg _ _ _ ?_ ?_ (by omega) hmod
    · rw [← hget']; congr 1; omega
    · rw [← hget]; congr 1; omega
  · have hsame := hr.high i hge'
    rw [hget, hget', Option.some_inj] at hsame
    rw [hsame]
    refine hr.data _ _ _ (hget'.trans (congrArg some hsame)) (List.getElem_mem hi) fun _ hl => ?_
    omega

end Remapped

end VcmallocBench
