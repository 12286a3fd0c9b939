import VcmallocBench.HyperContainer.BatchGrowth

/-! # Elements after a growing batch

All containers are found again, each moved by the pages added before it. The bytes
in the last page of a listed container that belong to others are found again only
if it grows by one page.
-/

namespace VcmallocBench

open Paging

/-- Every element of every container is found again. -/
def Retains (os : OS) (s t : State) : Prop :=
  ∀ k d, s.container? os k = some d → ∃ d', t.container? os k = some d' ∧
    d'.type_size_ = d.type_size_ ∧ d.elements_num_ ≤ d'.elements_num_ ∧
    ∀ o < d.bytes, t.mach.read os (d'.reference_ + o) = s.mach.read os (d.reference_ + o)

/-- No bytes are in the last page of listed container `i` behind its end: the next listed container
is empty, or, if there is none, all containers behind. -/
def Unshared (os : OS) (L : List Container) (start n i : ℕ) : Prop :=
  ∀ l, L[start + i]? = some l → l.guestBytes os = 0 ∨
    ∀ k d, L[k]? = some d → start + i < k → (i + 1 < n → k = start + i + 1) → d.bytes = 0

namespace Enlarges

variable {os : OS} {s t : State} {h R sizeofT start S n i o a : ℕ} {refs : List PtrLoc}
  {cs : List ContainerContext} {st new : List Frame} {L : List Container} {l d : Container}
  {p r : ℕ → ℕ}

section Elements

variable (he : Enlarges os s t h R refs cs st L sizeofT start S l n p r new)

include he

/-- The containers move up by the pages added before them. -/
theorem moved_lt (ha : a ≤ (h + s.ctx.pfns_num_) * os.page_size) (hj : j ≤ n) :
    u64 (a + (backWord os 0 + u64 (sumTo (fun j => r j - p j) j * os.page_size))) =
      a + sumTo (fun j => r j - p j) j * os.page_size := by
  have hP := os.page_size_lt
  have hlimit := he.laid.hosts.limit
  have hmono := sumTo_mono (fun j => r j - p j) hj
  have hend := he.end_le
  have hle : (h + s.ctx.pfns_num_ + sumTo (fun j => r j - p j) j) * os.page_size ≤
      (h + R + 1) * os.page_size :=
    Nat.mul_le_mul_right _ (by rcases he.fits with hR | ⟨hS, hnum, hT, -⟩ <;> omega)
  rw [add_mul _ (sumTo _ _), add_mul (h + R)] at hle
  rw [backWord_zero, zero_add, u64_add_u64, u64_of_lt (by omega)]

theorem entry_moved {k : ℕ} (hd : L[k]? = some d) :
    ∃ d', (batchList os sizeofT start n p r L)[k]? = some d' ∧ d'.type_size_ = d.type_size_ ∧
      d.elements_num_ ≤ d'.elements_num_ ∧
      d'.reference_ = d.reference_ + sumTo (fun j => r j - p j) (min (k - start) n) * os.page_size := by
  have hz : ∀ j, sumTo (fun j => p j - r j) j = 0 := fun j =>
    Finset.sum_eq_zero fun i _ => Nat.sub_eq_zero_of_le (he.le i)
  have hle := he.laid.placed.end_le he.laid.counted hd
  rcases Nat.lt_or_ge k start with hk | hk
  · refine ⟨d, by rw [getElem?_batchList_lt hk, hd], rfl, le_rfl, ?_⟩
    rw [Nat.sub_eq_zero_of_le hk.le, Nat.zero_min, sumTo_zero, zero_mul, add_zero]
  obtain ⟨j, rfl⟩ := Nat.exists_eq_add_of_le hk
  rw [Nat.add_sub_cancel_left]
  rcases Nat.lt_or_ge j n with hj | hj
  · have hgrow := he.grows j hj
    rw [getElem?_batchList he.laid.counted.fits hj, hd, Option.map_some, Container.batched,
      if_neg hgrow.ne', if_pos hgrow, batchWord, hz, min_eq_left hj.le]
    refine ⟨_, rfl, (Container.moved_type_size ..).trans (Container.resized_type_size ..), ?_, ?_⟩
    · rw [Container.moved_elements_num]
      exact he.counts j hj d hd
    · rw [Container.moved_reference_eq, Container.resized_reference,
        he.moved_lt ((Nat.le_add_right _ _).trans hle) hj.le]
  · rw [getElem?_batchList_ge (by omega), hd, Option.map_some, batchWord, hz, min_eq_right hj]
    refine ⟨_, rfl, Container.moved_type_size .., (Container.moved_elements_num ..).ge, ?_⟩
    rw [Container.moved_reference_eq, he.moved_lt ((Nat.le_add_right _ _).trans hle) le_rfl]

/-- All bytes of a container are found again, unless they are guests in a page that is lost. -/
theorem read_moved {k : ℕ} (hd : L[k]? = some d) (ho : o < d.bytes)
    (hall : ∀ i < n, Unshared os L start n i ∨
      r i = p i + 1 ∧ s.ctx.pfns_num_ + sumTo (fun j => r j - p j) n ≤ R) :
    t.mach.read os (d.reference_ + o +
      sumTo (fun j => r j - p j) (min (k - start) n) * os.page_size) =
        s.mach.read os (d.reference_ + o) := by
  have hP := os.page_size_pos
  have hspaced := he.laid.placed.tiled.spaced
  have hle := he.laid.placed.end_le he.laid.counted hd
  have hge := hspaced.le_reference hd
  obtain ⟨i, hi, hai⟩ := page_of_address (n := s.ctx.pfns_num_) hP
    (show h * os.page_size ≤ d.reference_ + o by omega) (by omega)
  -- before the end of a listed container, its pages are the last ones
  have hbefore : ∀ j < n, k ≤ start + j → i < S + sumTo p (j + 1) := by
    intro j hj hk
    have hlist := he.listed
    have hget := List.getElem?_eq_getElem (show start + j < L.length by omega)
    have hend : d.reference_ + d.bytes ≤ L[start + j].reference_ + L[start + j].bytes := by
      rcases Nat.lt_or_eq_of_le hk with hlt | rfl
      · exact (hspaced.end_le hd hget hlt).trans (Nat.le_add_right _ _)
      · rw [Option.some.inj (hd.symm.trans hget)]
    have hceil := div_lt_ceil hP (show d.reference_ + o < L[start + j].reference_ +
      L[start + j].bytes by omega)
    rw [he.laid.next_page hget, add_assoc, he.position (j + 1) hj] at hceil
    omega
  rcases Nat.eq_zero_or_pos (min (k - start) n) with hz | hpos
  · refine he.read_own hai hi ?_
    rw [hz]
    rcases Nat.lt_or_ge i S with hlow | hhigh
    · rw [sumTo_zero, add_zero, he.pageTable_low hlow]
    · exact he.pageTable_own (Nat.zero_le n) hhigh (fun hn => hbefore 0 hn (by omega)) hi
  · obtain ⟨j, hj⟩ : ∃ j, min (k - start) n = j + 1 := ⟨_, (Nat.succ_pred_eq_of_pos hpos).symm⟩
    have hjn : j < n := by omega
    rw [hj]
    rcases Nat.lt_or_ge i (S + sumTo p (j + 1)) with hguest | hown
    · have hlist := he.listed
      have hget := List.getElem?_eq_getElem (show start + j < L.length by omega)
      have hafter := hspaced.end_le hget hd (show start + j < k by omega)
      have haddr : L[start + j].reference_ + L[start + j].bytes ≤ d.reference_ + o := by omega
      obtain ⟨hshared, -, -⟩ := he.guest_address hjn hget haddr hai hguest
      rcases hall j hjn with hun | ⟨hone, hR⟩
      · have hempty := (hun _ hget).resolve_left hshared.ne' k d hd (by omega) (by omega)
        omega
      · exact he.read_guest hjn hget haddr hai hguest hone hR
    · exact he.read_own hai hi (he.pageTable_own hjn hown (fun hn => hbefore _ hn (by omega)) hi)

theorem read_first {k : ℕ} {e : Container} (hi : i < n) (he' : L[start + i]? = some e)
    (hpos : 0 < e.guestBytes os) (hd : L[k]? = some d) (hk : min (k - start) n = i + 1)
    (href : d.reference_ = e.reference_ + e.bytes) (hret : Retains os s t)
    (hbytes : 0 < d.bytes)
    (hlost : ¬ (r i = p i + 1 ∧ s.ctx.pfns_num_ + sumTo (fun j => r j - p j) n ≤ R)) :
    ∃ c f o, s.mach.read os d.reference_ = some (os.contents c f o) := by
  have hP := os.page_size_pos
  obtain ⟨hq, hpage⟩ := he.laid.guest_page he' hpos
  obtain ⟨g, hg⟩ := he.laid.guest_frame he' hpos
  rw [add_assoc, he.position (i + 1) hi] at hq hpage hg
  rw [← href] at hpage
  obtain ⟨d', hd', -, -, hread⟩ := hret k d
    (by rw [he.laid.counted.views'.reads.container?_eq, hd])
  obtain ⟨d'', hd'', -, -, href'⟩ := he.entry_moved hd
  obtain ⟨st', htab, -⟩ := he.batched.tabled
  rw [htab.container?, hd'', Option.some_inj] at hd'
  subst hd'
  have hfirst := hread 0 hbytes
  rw [add_zero, add_zero, href', hk] at hfirst
  rcases he.read_lost hi he' href.ge hpage (by omega) hlost with hnone | hsome
  · rw [hfirst, he.laid.placed.backed.read_eq hpage hg] at hnone
    cases hnone
  · rwa [hfirst] at hsome

/-- Each element is found again, unless it is in a page that is lost. -/
theorem retains (hall : ∀ i < n, Unshared os L start n i ∨
    r i = p i + 1 ∧ s.ctx.pfns_num_ + sumTo (fun j => r j - p j) n ≤ R) : Retains os s t := by
  intro k d hd
  rw [he.laid.counted.views'.reads.container?_eq] at hd
  obtain ⟨d', hd', htype, hcount, href⟩ := he.entry_moved hd
  obtain ⟨st', htab, -⟩ := he.batched.tabled
  refine ⟨d', by rw [htab.container?, hd'], htype, hcount, fun o ho => ?_⟩
  rw [href, Nat.add_right_comm]
  exact he.read_moved hd ho hall

end Elements

end Enlarges

section Shared

variable {os : OS} {L : List Container} {a b start n i : ℕ}

theorem bytesOf_take_empty (hab : a ≤ b)
    (h : ∀ j d, a ≤ j → j < b → L[j]? = some d → d.bytes = 0) :
    bytesOf (L.take b) = bytesOf (L.take a) := by
  induction hab with
  | refl => rfl
  | step hab ih =>
    rename_i m
    rw [List.take_add_one, bytesOf_append, ih fun j d h₁ h₂ => h j d h₁ (Nat.lt_succ_of_lt h₂)]
    cases hm : L[m]? with
    | none => rfl
    | some d =>
      rw [Option.toList_some, bytesOf_cons, h m d hab (Nat.lt_succ_self m) hm]
      rfl

/-- The first bytes in the last page of a container behind its end are the first ones of another
container. -/
theorem exists_guest (ht : Tiled a L) (hi : i < n) (hun : ¬ Unshared os L start n i) :
    ∃ e k d, L[start + i]? = some e ∧ 0 < e.guestBytes os ∧ L[k]? = some d ∧
      min (k - start) n = i + 1 ∧ 0 < d.bytes ∧ d.reference_ = e.reference_ + e.bytes := by
  simp only [Unshared, not_forall, not_or, exists_prop] at hun
  obtain ⟨e, he, hpos, hex⟩ := hun
  classical
  obtain ⟨d, hd, hlt, hnext, hbytes⟩ := Nat.find_spec hex
  have hmin := fun j => @Nat.find_min _ _ hex j
  generalize Nat.find hex = k at *
  refine ⟨e, k, d, he, Nat.pos_of_ne_zero hpos, hd, by omega, Nat.pos_of_ne_zero hbytes, ?_⟩
  have hempty : ∀ j d', start + i + 1 ≤ j → j < k → L[j]? = some d' → d'.bytes = 0 := by
    intro j d' h₁ h₂ hd'
    by_contra hne
    exact hmin j h₂ ⟨d', hd', by omega, fun h => by have := hnext h; omega, hne⟩
  rw [ht.reference_eq hd, ht.reference_eq he, bytesOf_take_empty (by omega) hempty,
    List.take_add_one, he, Option.toList_some, bytesOf_append, bytesOf_cons, bytesOf_nil, add_zero,
    add_assoc]

end Shared

section Requests

variable {os : OS} {s t : State} {h R sizeofT start i : ℕ} {cs : List ContainerContext}
  {st new : List Frame} {L : List Container} {c : ContainerContext} {l : Container} {array : List ℕ}

theorem pagesAsked_of_le (hi : array.length ≤ i) :
    pagesAsked os L start sizeofT array i = pagesFrom os L start i := by
  rw [pagesAsked, pagesFrom, List.getElem?_eq_none hi]
  simp [Container.wanted]

theorem Batched.enlarges (hbat : Batched os s t (cs.map (·.reference_)) st L sizeofT start
      (pagesOf os (L.take start)) l array.length (pagesFrom os L start)
      (pagesAsked os L start sizeofT array) new)
    (hb : Laid os s h R cs st L) (hu : Batchable os s L sizeofT start array)
    (hl : L[start]? = some l) (hgrow : ∀ j < array.length,
      pagesFrom os L start j < pagesAsked os L start sizeofT array j) :
    Enlarges os s t h R (cs.map (·.reference_)) cs st L sizeofT start (pagesOf os (L.take start)) l
      array.length (pagesFrom os L start) (pagesAsked os L start sizeofT array) new where
  laid := hb
  batched := hbat
  entry := hl
  listed := hu.length_le
  position j hj := pagesOf_take_add start (by have := hu.length_le; omega)
  counts j hj d hd := by
    obtain ⟨n, hs, -, -⟩ := hu.requested hb.counted hd hj (hgrow j hj).ne'
    obtain ⟨-, -, hbytes, hguest⟩ := hu.resized hb.counted hd hj (hgrow j hj).ne'
    have hcap := capacity_add (hb.counted.fits d (List.mem_of_getElem? hd)) hguest
    have hlt := Nat.mul_le_mul_right os.page_size (hgrow j hj).le
    rw [pagesFrom_eq hd] at hlt
    have hle : d.bytes ≤ (d.resized os (pagesAsked os L start sizeofT array j) sizeofT).bytes := by
      omega
    rw [Container.bytes, Container.bytes, Container.resized_type_size] at hle
    exact Nat.le_of_mul_le_mul_left hle (hs ▸ Nat.pos_of_dvd_of_pos hu.dvd os.page_size_pos)
  le j := (Nat.lt_or_ge j array.length).elim (fun hj => (hgrow j hj).le) fun hj =>
    (pagesAsked_of_le hj).ge
  grows := hgrow

theorem Laid.meets_enlarges (hb : Laid os s h R cs st L) (hu : Batchable os s L sizeofT start array)
    (hk : cs[start]? = some c) (hl : L[start]? = some l)
    (hfind : s.find os l.reference_ = .ok (some start)) (hmax : 0 < s.ctx.pfns_max_)
    (hgrow : ∀ j < array.length, pagesFrom os L start j < pagesAsked os L start sizeofT array j) :
    Meets (ContainerRealloc2 os c.reference_ sizeofT array) s (fun _ t =>
      s.mach.failures < t.mach.failures ∨ ∃ new, Enlarges os s t h R (cs.map (·.reference_)) cs st L
        sizeofT start (pagesOf os (L.take start)) l array.length (pagesFrom os L start)
        (pagesAsked os L start sizeofT array) new) fun _ t => s.mach.failures < t.mach.failures := by
  obtain ⟨c', site⟩ := hb.site hl
  have hle : ∀ j < array.length, pagesFrom os L start j ≤ pagesAsked os L start sizeofT array j :=
    fun j hj => (hgrow j hj).le
  refine (hb.counted.meets_ContainerRealloc2 (G := True) hu hk hl hfind (fun _ => hmax)
    (fun _ j d _ hj hlt => absurd (hgrow j hj) hlt.not_gt) (fun _ buffer hbuf j d hd hj _ => ?_)
    le_rfl).mono (fun _ t ht => ht.imp_right fun ⟨new, hbat⟩ =>
      ⟨new, hbat.enlarges hb hu hl hgrow⟩) fun _ _ hE => hE.resolve_right fun hE => hE.1 trivial
  have hz : sumTo (fun j => pagesFrom os L start j - pagesAsked os L start sizeofT array j) j = 0 :=
    Finset.sum_eq_zero fun i hi =>
      Nat.sub_eq_zero_of_le (hle i ((Finset.mem_range.mp hi).trans hj))
  have hlt := (hb.counted.fits d (List.mem_of_getElem? hd)).reference_lt
  rw [hb.keptTable_none hle (hu.listed hb.counted).end_le (site.mapping_page trivial).1, hz,
    backWord_zero, Container.moved_zero hlt]
  exact hb.copiesUp hbuf hd

end Requests

section Delivering

variable {os : OS} {s : State} {h R sizeofT start : ℕ} {cs : List ContainerContext} {st : List Frame}
  {L : List Container} {c : ContainerContext} {l : Container} {array : List ℕ}

theorem Laid.delivering (hb : Laid os s h R cs st L) (contents : ℕ → Frame → ℕ → Byte) :
    Laid (os.delivering contents) s h R cs st L where
  counted := by
    obtain ⟨hcore, ⟨h₁, h₂, h₃, h₄⟩, hfits, hpages⟩ := hb.counted
    exact ⟨hcore, ⟨h₁, h₂, h₃, h₄⟩, fun l hl => ⟨(hfits l hl).1, (hfits l hl).2⟩, hpages⟩
  placed := by
    obtain ⟨htiled, hpages, ⟨hnodup, hheld, hpage⟩, hpos, hlimit⟩ := hb.placed
    exact ⟨htiled, hpages, ⟨hnodup, hheld, hpage⟩, hpos, hlimit⟩
  hosts := by
    obtain ⟨hpos, hown, hbelow, hreserved, hle, hfree⟩ := hb.hosts
    exact ⟨hpos, hown, hbelow, hreserved, hle, hfree⟩

theorem Batchable.delivering (hu : Batchable os s L sizeofT start array)
    (contents : ℕ → Frame → ℕ → Byte) :
    Batchable (os.delivering contents) s L sizeofT start array where
  dvd := hu.dvd
  length_le := hu.length_le
  asked := hu.asked
  words := hu.words

end Delivering

end VcmallocBench
