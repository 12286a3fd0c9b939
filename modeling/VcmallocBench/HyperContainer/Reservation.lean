import VcmallocBench.HyperContainer.Alloc

/-! # Reservations

A hypercontainer lies in an address range of its own, of which its pages are
mapped and all later ones are not. No frame is mapped twice, and none that is
not held.
-/

namespace VcmallocBench

open Paging

namespace Machine

/-- Mapped frames are held, and each is mapped at one page. -/
structure Sound (m : Machine) : Prop where
  held : ∀ p f, m.pageTable p = some f → f ∈ m.allocated
  inj : ∀ p q f, m.pageTable p = some f → m.pageTable q = some f → p = q

/-- The `R` pages from page `h` on are the last reservation, and those from the `N`-th on are not
mapped. -/
structure Hosts (os : OS) (m : Machine) (h R N : ℕ) : Prop where
  base_pos : 0 < h
  own : ⟨h * os.page_size, R * os.page_size⟩ ∈ m.regions
  below : ∀ r ∈ m.regions, r = ⟨h * os.page_size, R * os.page_size⟩ ∨
    r.base + r.size ≤ h * os.page_size
  reserved : m.Reserved os
  le : N ≤ R
  free : ∀ p, h + N ≤ p → p < h + R → m.pageTable p = none

variable {os : OS} {m m' : Machine} {h R N first : ℕ} {new : List Frame}

theorem Sound.congr (hs : m.Sound) (hp : m'.pageTable = m.pageTable)
    (ha : m'.allocated = m.allocated) : m'.Sound where
  held p f := by
    rw [hp, ha]
    exact hs.held p f
  inj p q f := by
    rw [hp]
    exact hs.inj p q f

theorem Sound.extended (hs : m.Sound) (he : m.Extended m' first new) : m'.Sound := by
  have hcases : ∀ p f, m'.pageTable p = some f →
      (first ≤ p ∧ p < first + new.length ∧ new[p - first]? = some f) ∨
      (m.pageTable p = some f ∧ f ∉ new) := by
    intro p f hp
    rw [he.pageTable] at hp
    split at hp
    · rename_i hin
      exact Or.inl ⟨hin.1, hin.2, hp⟩
    · exact Or.inr ⟨hp, fun hf => he.fresh f hf (hs.held p f hp)⟩
  constructor
  · intro p f hp
    rw [he.allocated, List.mem_append]
    rcases hcases p f hp with ⟨-, -, hf⟩ | ⟨hf, -⟩
    · exact Or.inl (List.mem_of_getElem? hf)
    · exact Or.inr (hs.held p f hf)
  · intro p q f hp hq
    rcases hcases p f hp with ⟨h₁, h₂, hf⟩ | ⟨hf, hn⟩
    · rcases hcases q f hq with ⟨h₃, h₄, hg⟩ | ⟨-, hn⟩
      · have := (List.getElem?_inj (by omega) he.nodup).mp (hf.trans hg.symm)
        omega
      · exact absurd (List.mem_of_getElem? hf) hn
    · rcases hcases q f hq with ⟨-, -, hg⟩ | ⟨hg, -⟩
      · exact absurd (List.mem_of_getElem? hg) hn
      · exact hs.inj p q f hf hg

theorem Hosts.congr (hh : m.Hosts os h R N) (hp : m'.pageTable = m.pageTable)
    (hr : m'.regions = m.regions) : m'.Hosts os h R N where
  base_pos := hh.base_pos
  own := by
    rw [hr]
    exact hh.own
  below := by
    rw [hr]
    exact hh.below
  reserved := by
    rw [Reserved, hr]
    exact hh.reserved
  le := hh.le
  free := by
    rw [hp]
    exact hh.free

theorem Hosts.limit (hh : m.Hosts os h R N) : (h + R) * os.page_size ≤ 2 ^ 47 := by
  have h₁ := hh.reserved _ hh.own
  have h₂ := os.addressLimit_le
  rw [add_mul]
  exact h₁.trans h₂

theorem Hosts.range_le (hh : m.Hosts os h R N) {a n : ℕ} (ha : h * os.page_size ≤ a) (hn : n ≠ 0)
    (hin : m.inRegion os a n = true) : a + n * os.page_size ≤ (h + R) * os.page_size := by
  rw [inRegion, List.any_eq_true] at hin
  obtain ⟨r, hr, hd⟩ := hin
  obtain ⟨h₁, h₂⟩ := of_decide_eq_true hd
  have hpos : 0 < n * os.page_size := Nat.mul_pos (Nat.pos_of_ne_zero hn) os.page_size_pos
  rcases hh.below r hr with rfl | hlt
  · rwa [add_mul]
  · omega

theorem Hosts.extended (hh : m.Hosts os h R N) (he : m.Extended m' (h + N) new)
    (hin : new ≠ [] → m.inRegion os ((h + N) * os.page_size) new.length = true) :
    m'.Hosts os h R (N + new.length) where
  base_pos := hh.base_pos
  own := by
    rw [he.regions]
    exact hh.own
  below := by
    rw [he.regions]
    exact hh.below
  reserved := by
    rw [Reserved, he.regions]
    exact hh.reserved
  le := by
    rcases eq_or_ne new [] with rfl | hne
    · exact hh.le
    · have hlen : new.length ≠ 0 := fun hz => hne (List.length_eq_zero_iff.mp hz)
      have hr := hh.range_le (Nat.mul_le_mul_right _ (Nat.le_add_right h N)) hlen (hin hne)
      rw [← add_mul] at hr
      have := Nat.le_of_mul_le_mul_right hr os.page_size_pos
      omega
  free p h₁ h₂ := by
    rw [he.pageTable, if_neg (by omega)]
    exact hh.free p (by omega) h₂

theorem Sound.load_assign (hs : m.Sound) {l : PtrLoc} {v : ℕ} (hv : v < 2 ^ 64)
    (ha : m.assign os l v = some m') : m'.load os l = some v := by
  cases l with
  | var x =>
    obtain rfl := Option.some.inj ha
    exact congrArg some (Function.update_self x v m.vars)
  | mem b =>
    have hmapped : ∀ i < 8, m.mapped os (b + i) := by
      rw [assign, store] at ha
      split at ha
      · assumption
      · cases ha
    have hheld : m.Held os b (b + 8) := by
      constructor
      · intro a h₁ h₂
        have := hmapped (a - b) (by omega)
        rwa [Nat.add_sub_cancel' h₁] at this
      · intro a a' h₁ h₂ h₃ h₄ he
        have hm := hmapped (a - b) (by omega)
        rw [Nat.add_sub_cancel' h₁, mapped, Option.isSome_iff_exists] at hm
        obtain ⟨f, hf⟩ := hm
        exact hs.inj _ _ f hf (he ▸ hf)
    have hw : (PtrLoc.mem b).Within b (b + 8) := ⟨le_rfl, le_rfl⟩
    obtain ⟨m'', hm, -, hl⟩ := assign_spec hv hw hheld
    obtain rfl := Option.some.inj (ha.symm.trans hm)
    exact hl

/-- New frames at pages that were not mapped change no variable. -/
theorem Sound.load_extended (hs : m.Sound) (he : m.Extended m' first new)
    (hfree : ∀ p, first ≤ p → p < first + new.length → m.pageTable p = none) {l : PtrLoc} {v : ℕ}
    (hl : m.load os l = some v) : m'.load os l = some v := by
  cases l with
  | var x => rwa [load_var, he.vars]
  | mem b =>
    have hmapped : ∀ i < 8, m.mapped os (b + i) := by
      rw [load] at hl
      split at hl
      · assumption
      · cases hl
    rw [← hl]
    refine load_congr (fun x hx => by cases hx) fun a ha => ?_
    have hm := hmapped (a - b) (by have := ha.2; omega)
    rw [Nat.add_sub_cancel' ha.1, mapped, Option.isSome_iff_exists] at hm
    obtain ⟨f, hf⟩ := hm
    have hout : ¬ (first ≤ a / os.page_size ∧ a / os.page_size < first + new.length) := by
      rintro ⟨h₁, h₂⟩
      rw [hfree _ h₁ h₂] at hf
      cases hf
    have hn : f ∉ new := fun hc => he.fresh f hc (hs.held _ f hf)
    rw [read, read, he.pageTable, if_neg hout, hf, Option.map_some, Option.map_some,
      he.frameData f hn]

end Machine

namespace Backed

variable {os : OS} {m m' : Machine} {h : ℕ} {fs new : List Frame}

theorem congr (hb : Backed os m h fs)
    (hp : m'.pageTable = m.pageTable) (ha : m'.allocated = m.allocated) : Backed os m' h fs where
  nodup := hb.nodup
  held := by
    rw [ha]
    exact hb.held
  page := by
    rw [hp]
    exact hb.page

theorem extended (hb : Backed os m h fs)
    (he : m.Extended m' (h + fs.length) new) : Backed os m' h (fs ++ new) where
  nodup := by
    rw [List.nodup_append]
    refine ⟨hb.nodup, he.nodup, fun a ha b hbn => ?_⟩
    rintro rfl
    exact he.fresh a hbn (hb.held a ha)
  held f hf := by
    rw [he.allocated, List.mem_append]
    rcases List.mem_append.mp hf with hf | hf
    · exact Or.inr (hb.held f hf)
    · exact Or.inl hf
  page i hi := by
    rw [List.length_append] at hi
    rw [he.pageTable]
    rcases Nat.lt_or_ge i fs.length with hlt | hge
    · rw [if_neg (by omega), hb.page i hlt, List.getElem?_append_left hlt]
    · rw [if_pos (by omega), List.getElem?_append_right hge]
      congr 1
      omega

end Backed

/-- A hypercontainer just created, with the `R` pages from page `h` on reserved for it. -/
structure Fresh (os : OS) (s : State) (h R : ℕ) : Prop where
  ctx : ∃ size, s.ctx = .new os size true true
  hosts : s.mach.Hosts os h R 0
  sound : s.mach.Sound

def Fresh.state (os : OS) (h R : ℕ) : State where
  mach := { Machine.initial with regions := [⟨h * os.page_size, R * os.page_size⟩] }
  ctx := .new os (R * os.page_size) true true

theorem Fresh.of_state {os : OS} {h R : ℕ} (hh : 0 < h)
    (hl : h * os.page_size + R * os.page_size ≤ os.addressLimit) :
    Fresh os (Fresh.state os h R) h R := by
  constructor
  case ctx => exact ⟨_, rfl⟩
  case hosts =>
    constructor
    case base_pos => exact hh
    case own => exact List.mem_singleton.mpr rfl
    case below => exact fun r hr => Or.inl (List.mem_singleton.mp hr)
    case reserved =>
      intro r hr
      obtain rfl := List.mem_singleton.mp hr
      exact hl
    case le => exact Nat.zero_le _
    case free => exact fun _ _ _ => rfl
  case sound =>
    constructor
    · intro p f hp
      cases hp
    · intro p q f hp
      cases hp

theorem Fresh.core {os : OS} {s : State} {h R : ℕ} (hf : Fresh os s h R) :
    ∃ st, Core s.ctx [] st ∧ s.ctx.pfns_num_ = 0 := by
  obtain ⟨size, hs⟩ := hf.ctx
  have hlt := os.page_size_lt
  refine ⟨(List.range (os.page_size / sizeofFrame)).map os.uninit, ?_, by rw [hs]; rfl⟩
  rw [hs]
  exact {
    cells := rfl
    containers_num := rfl
    containers_le := Nat.zero_le _
    containers_words := by
      have := Nat.div_le_self os.page_size sizeofContainerContext
      simp only [HyperContainerContext.new, sizeofContainerContext] at *
      omega
    table := rfl
    max := by rw [List.length_map, List.length_range]; rfl
    words := by
      have := Nat.div_le_self os.page_size sizeofFrame
      rw [List.length_map, List.length_range]
      omega
    num := Nat.zero_le _ }

end VcmallocBench
