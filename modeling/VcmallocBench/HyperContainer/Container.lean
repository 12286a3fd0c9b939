import VcmallocBench.Library.Word
import VcmallocBench.Machine.Memory

/-! # Containers

A container is a run of elements at the address its pointer variable holds. Its
first and last page may be shared with its neighbours: `priorFreeBytes` lie
before its first own page, and `guestBytes` follow it in its last one. All page
counts depend on the address only through its offset in a page.
-/

namespace VcmallocBench

open Paging

/-- An entry of the container table, with its reference to the user's pointer variable. -/
structure ContainerContext where
  reference_ : PtrLoc
  type_size_ : ℕ
  elements_num_ : ℕ
  deriving DecidableEq

/-- A container context with the value of its reference. -/
structure Container where
  reference_ : ℕ
  type_size_ : ℕ
  elements_num_ : ℕ
  deriving DecidableEq

/-- Read the reference of a container context. -/
def ContainerContext.resolve (os : OS) (m : Machine) (c : ContainerContext) : Option Container :=
  (m.load os c.reference_).map fun r => ⟨r, c.type_size_, c.elements_num_⟩

namespace Container

variable (os : OS) (c : Container)

def offset : ℕ := c.reference_ &&& (os.page_size - 1)

def mappingAddress : ℕ :=
  if c.offset os ≠ 0 then u64 ((c.reference_ &&& pageMask os.page_size) + os.page_size)
  else c.reference_

def nextAddress : ℕ := u64 (c.reference_ + u64 (c.type_size_ * c.elements_num_))

def lastPageOffset : ℕ := c.nextAddress &&& (os.page_size - 1)

def nextMappingAddress : ℕ :=
  if c.lastPageOffset os ≠ 0 then u64 ((c.nextAddress &&& pageMask os.page_size) + os.page_size)
  else c.nextAddress

def nbrOfPages : ℕ := sub64 (c.nextMappingAddress os) (c.mappingAddress os) / os.page_size

def guestBytes : ℕ := sub64 (c.nextMappingAddress os) c.nextAddress

def priorFreeBytes : ℕ := sub64 (c.mappingAddress os) c.reference_

def bytes : ℕ := c.type_size_ * c.elements_num_

/-- The reference is an address and the bytes, rounded to pages, stay below a word. -/
structure Fits (c : Container) : Prop where
  reference_lt : c.reference_ < 2 ^ 64
  bytes_le : c.bytes + 2 * os.page_size ≤ 2 ^ 64

variable {os c}

theorem nextAddress_eq : c.nextAddress = u64 (c.reference_ + c.bytes) := u64_add_u64 _ _

theorem u64_mod_page (os : OS) (n : ℕ) : u64 n % os.page_size = n % os.page_size :=
  Nat.mod_mod_of_dvd _ os.page_size_dvd

/-- Rounding a word up to a page boundary with masks, as the accessors do. -/
theorem roundUp_eq (os : OS) (n : ℕ) :
    (if u64 n &&& (os.page_size - 1) ≠ 0 then
        u64 ((u64 n &&& pageMask os.page_size) + os.page_size) else u64 n) =
      u64 (n ⌈/⌉ os.page_size * os.page_size) := by
  have hP := os.page_size_pos
  have hm : u64 n &&& (os.page_size - 1) = n % os.page_size :=
    (and_mask _ _).trans (u64_mod_page os n)
  have hk : u64 n &&& pageMask os.page_size = u64 n - n % os.page_size := by
    rw [← u64_mod_page os n]
    exact and_pageMask (u64_lt n) (by have := os.pageShift_lt; omega)
  rw [hm, hk, ← add_gap hP]
  split
  · rename_i h
    rw [gap_eq_of_mod hP h]
    have h₁ := Nat.mod_lt n hP
    have h₂ : n % os.page_size ≤ u64 n := by rw [← u64_mod_page os n]; exact Nat.mod_le _ _
    unfold u64 at *
    omega
  · rename_i h
    rw [gap_of_dvd hP (Nat.dvd_of_mod_eq_zero (not_not.mp h)), add_zero]

theorem mappingAddress_eq (h : c.reference_ < 2 ^ 64) :
    c.mappingAddress os = u64 (c.reference_ ⌈/⌉ os.page_size * os.page_size) := by
  have := roundUp_eq os c.reference_
  rwa [u64_of_lt h] at this

theorem nextMappingAddress_eq :
    c.nextMappingAddress os =
      u64 ((c.reference_ + c.bytes) ⌈/⌉ os.page_size * os.page_size) := by
  have := roundUp_eq os (c.reference_ + c.bytes)
  rwa [← nextAddress_eq] at this

theorem guestBytes_eq : c.guestBytes os = gap os.page_size (c.reference_ + c.bytes) := by
  have hP := os.page_size_pos
  have hl := gap_lt hP (c.reference_ + c.bytes)
  have hp := os.page_size_lt
  rw [guestBytes, nextMappingAddress_eq, nextAddress_eq, ← add_gap hP, sub64_u64 (by omega)] <;>
    omega

theorem priorFreeBytes_eq (h : c.reference_ < 2 ^ 64) :
    c.priorFreeBytes os = gap os.page_size c.reference_ := by
  have hP := os.page_size_pos
  have hl := gap_lt hP c.reference_
  have hp := os.page_size_lt
  have hs := sub64_u64 (a := c.reference_ + gap os.page_size c.reference_) (b := c.reference_)
    (by omega) (by omega)
  rw [u64_of_lt h] at hs
  rw [priorFreeBytes, mappingAddress_eq h, ← add_gap hP, hs]
  omega

theorem nbrOfPages_eq (h : c.Fits os) :
    c.nbrOfPages os = span os.page_size c.reference_ c.bytes := by
  have hP := os.page_size_pos
  have h₁ := add_gap hP (c.reference_ + c.bytes)
  have h₂ := add_gap hP c.reference_
  have h₃ := gap_lt hP (c.reference_ + c.bytes)
  have hb := h.bytes_le
  have hle := Nat.mul_le_mul_right os.page_size
    (ceil_mono hP (Nat.le_add_right c.reference_ c.bytes))
  rw [nbrOfPages, nextMappingAddress_eq, mappingAddress_eq h.reference_lt,
    sub64_u64 hle (by omega), ← Nat.sub_mul, Nat.mul_div_cancel _ hP, span]

theorem guestBytes_lt : c.guestBytes os < os.page_size := by
  rw [guestBytes_eq]; exact gap_lt os.page_size_pos _

theorem priorFreeBytes_lt (h : c.reference_ < 2 ^ 64) : c.priorFreeBytes os < os.page_size := by
  rw [priorFreeBytes_eq h]; exact gap_lt os.page_size_pos _

theorem bytes_add_guestBytes (h : c.Fits os) :
    c.bytes + c.guestBytes os = c.nbrOfPages os * os.page_size + c.priorFreeBytes os := by
  rw [guestBytes_eq, nbrOfPages_eq h, priorFreeBytes_eq h.reference_lt]
  exact add_gap_eq_span os.page_size_pos _ _

theorem counts_shift {c' : Container} (h : c.Fits os) (h' : c'.reference_ < 2 ^ 64)
    (hmod : c'.reference_ % os.page_size = c.reference_ % os.page_size)
    (hbytes : c'.bytes = c.bytes) :
    c'.nbrOfPages os = c.nbrOfPages os ∧ c'.guestBytes os = c.guestBytes os ∧
      c'.priorFreeBytes os = c.priorFreeBytes os := by
  have hP := os.page_size_pos
  have hf : c'.Fits os := ⟨h', hbytes ▸ h.bytes_le⟩
  refine ⟨?_, ?_, ?_⟩
  · rw [nbrOfPages_eq hf, nbrOfPages_eq h, hbytes, span_congr hP hmod]
  · rw [guestBytes_eq, guestBytes_eq, hbytes]
    refine gap_congr hP ?_
    rw [Nat.add_mod, hmod, ← Nat.add_mod]
  · rw [priorFreeBytes_eq h', priorFreeBytes_eq h.reference_lt, gap_congr hP hmod]

end Container

/-- `requestedBytes` of a resize: an `INT64`, and 0 if negative. -/
def requestedBytes (newSize sizeofT prior guest : ℕ) : ℕ :=
  (int64 (u64 (sub64 (u64 (newSize * sizeofT)) prior + guest))).toNat

/-- `(SIZE_T)ceil((double)bytes / page_size)`: dividing by a power of two is exact. -/
def ceilPages (os : OS) (bytes : ℕ) : ℕ := toDouble bytes ⌈/⌉ os.page_size

/-- The element count written after a resize to `pages` own pages. -/
def resizedElements (os : OS) (pages prior guest sizeofT : ℕ) : ℕ :=
  sub64 (u64 (u64 (pages * os.page_size) + prior)) guest / sizeofT

/-- The pages of its own that a container needs for `newSize` elements. -/
def Container.requestedPages (os : OS) (c : Container) (sizeofT newSize : ℕ) : ℕ :=
  ceilPages os (requestedBytes newSize sizeofT (c.priorFreeBytes os) (c.guestBytes os))

theorem requestedBytes_eq {n s prior guest : ℕ} (h : n * s + guest < 2 ^ 63)
    (hp : prior < 2 ^ 63) : requestedBytes n s prior guest = n * s + guest - prior := by
  unfold requestedBytes int64 u64 sub64
  generalize n * s = b at h ⊢
  split <;> omega

theorem ceilPages_zero (os : OS) : ceilPages os 0 = 0 := by
  rw [ceilPages, toDouble_zero]; exact zero_ceilDiv _

theorem ceilPages_pos (os : OS) {n : ℕ} (h : 0 < n) : 0 < ceilPages os n :=
  ceil_pos os.page_size_pos (toDouble_pos h)

/-- A page count that covers less than `2 ^ 53` bytes was computed exactly. -/
theorem ceilPages_exact (os : OS) {n : ℕ} (h : ceilPages os n * os.page_size < 2 ^ 53) :
    ceilPages os n = n ⌈/⌉ os.page_size := by
  have hle := le_ceil_mul os.page_size_pos (toDouble n)
  rw [ceilPages, toDouble_exact (lt_of_le_of_lt hle h)]

theorem resizedElements_eq {os : OS} {k prior guest s : ℕ} (h : guest ≤ k * os.page_size + prior)
    (hlt : k * os.page_size + prior < 2 ^ 64) :
    resizedElements os k prior guest s = (k * os.page_size + prior - guest) / s := by
  rw [resizedElements, u64_u64_add, u64_of_lt hlt, sub64_of_le h hlt]

theorem requestedPages_le {os : OS} {c : Container} {s n : ℕ} (hr : c.reference_ < 2 ^ 64)
    (h : n * s + c.guestBytes os < 2 ^ 63) :
    c.requestedPages os s n * os.page_size < 2 ^ 63 + os.page_size := by
  have hp : c.priorFreeBytes os < os.page_size := Container.priorFreeBytes_lt hr
  have hP := os.page_size_lt
  rw [Container.requestedPages, requestedBytes_eq h (by omega), ceilPages]
  refine (ceil_mul_lt os.page_size_pos _).trans_le (Nat.add_le_add_right (toDouble_le ?_) _)
  omega

theorem requestedPages_le_word {os : OS} {c : Container} {s n : ℕ} :
    c.requestedPages os s n ≤ 2 ^ 63 := by
  have hbytes : requestedBytes n s (c.priorFreeBytes os) (c.guestBytes os) < 2 ^ 63 := by
    unfold requestedBytes int64 u64
    split <;> omega
  exact (ceil_le_iff os.page_size_pos).mpr
    ((toDouble_le hbytes).trans (Nat.le_mul_of_pos_right _ os.page_size_pos))

/-- The guests of a container still find room after a resize. -/
theorem guestBytes_le_requested {os : OS} {c : Container} {s n : ℕ} (hr : c.reference_ < 2 ^ 64)
    (h : n * s + c.guestBytes os < 2 ^ 63) :
    c.guestBytes os ≤ c.requestedPages os s n * os.page_size + c.priorFreeBytes os := by
  have hg : c.guestBytes os < os.page_size := c.guestBytes_lt
  have hp : c.priorFreeBytes os < os.page_size := Container.priorFreeBytes_lt hr
  have hP := os.page_size_lt
  rcases Nat.eq_zero_or_pos (c.requestedPages os s n) with h₀ | hpos
  · rw [Container.requestedPages, requestedBytes_eq h (by omega)] at h₀
    have hz : n * s + c.guestBytes os - c.priorFreeBytes os = 0 := by
      by_contra hne
      exact absurd h₀ (ceilPages_pos os (Nat.pos_of_ne_zero hne)).ne'
    omega
  · have := Nat.mul_le_mul_right os.page_size hpos
    omega

end VcmallocBench
