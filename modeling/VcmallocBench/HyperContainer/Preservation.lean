import VcmallocBench.HyperContainer.Histories

/-! # Data

A resize remaps the frames behind the container and copies its guest bytes. All
elements are found again through the updated references.
-/

namespace VcmallocBench

open Paging

def Keeps (os : OS) (s t : State) (k : ℕ) : Prop :=
  ∀ j d, s.container? os j = some d → ∃ d', t.container? os j = some d' ∧
    d'.type_size_ = d.type_size_ ∧ (j ≠ k → d'.elements_num_ = d.elements_num_) ∧
    ∀ o < d.type_size_ * min d.elements_num_ d'.elements_num_,
      t.mach.read os (d'.reference_ + o) = s.mach.read os (d.reference_ + o)

section Data

variable {os : OS} {s t : State} {h k req sizeofT n : ℕ} {c : ContainerContext} {l : Container}
  {cs : List ContainerContext} {st st' new : List Frame} {L : List Container}

theorem Keeps.refl (os : OS) (s : State) (k : ℕ) : Keeps os s s k :=
  fun _ d hd => ⟨d, hd, rfl, fun _ => rfl, fun _ _ => rfl⟩

theorem Reallocated.read_eq
    (hr : Reallocated os True s t h (h * os.page_size) k req sizeofT c l cs st L st' new)
    (hv : Views os s.mach (h * os.page_size) (h * os.page_size) cs L) :
    ∃ m, Remapped os s.mach m h (pagesOf os (L.take k)) (l.nbrOfPages os) req
      (l.reference_ + l.bytes) (st.take s.ctx.pfns_num_) (st'.take t.ctx.pfns_num_) ∧
      ∀ a, h * os.page_size ≤ a → a < (h + t.ctx.pfns_num_) * os.page_size →
        t.mach.read os a = m.read os a := by
  obtain ⟨m, hm, hw⟩ := hr.moved trivial
  refine ⟨m, hm, fun a h₁ h₂ => hw.read a h₁ h₂ fun r hr hcov => ?_⟩
  obtain ⟨d, hd, rfl⟩ := List.mem_map.mp hr
  obtain ⟨x, hx⟩ := hv.var hd
  rw [hx] at hcov
  exact hcov

theorem Reallocated.keeps_elements
    (hr : Reallocated os True s t h (h * os.page_size) k req sizeofT c l cs st L st' new)
    (hc : Counted os s (h * os.page_size) (h * os.page_size) cs st L) (hp : Placed os s h st L)
    (hl : L[k]? = some l) (hg : l.guestBytes os ≤ req * os.page_size + l.priorFreeBytes os)
    (hB : (l.resized os req sizeofT).bytes ≤ l.capacity os req)
    (hlim : (h + s.ctx.pfns_num_ + req) * os.page_size < 2 ^ 64) : Keeps os s t k := by
  have hP := os.page_size_pos
  have hf := hc.fits l (List.mem_of_getElem? hl)
  have hcap := capacity_add hf hg
  have hspaced := hp.tiled.spaced
  have hle := hspaced.le_reference hl
  have hend := hp.end_le hc hl
  have hnum := hr.pfns_num
  have hbound : l.nbrOfPages os ≤ s.ctx.pfns_num_ := by
    have := @pagesOf_eq os _ _ _ hl
    rw [hp.pages] at this
    omega
  have hnum' : (h + t.ctx.pfns_num_) * os.page_size + l.nbrOfPages os * os.page_size =
      (h + s.ctx.pfns_num_) * os.page_size + req * os.page_size := by
    rw [← add_mul, ← add_mul, show h + t.ctx.pfns_num_ + l.nbrOfPages os =
      h + s.ctx.pfns_num_ + req by omega]
  rw [add_mul] at hlim
  obtain ⟨m, hm, hread⟩ := hr.read_eq hc.views
  have hlen : (st.take s.ctx.pfns_num_).length = s.ctx.pfns_num_ := by
    rw [List.length_take, Nat.min_eq_left hc.core.num]
  -- bytes before the old and the new end stay, bytes behind move
  have hlow : ∀ a, h * os.page_size ≤ a → a < l.reference_ + l.bytes →
      a + l.nbrOfPages os * os.page_size < l.reference_ + l.bytes + req * os.page_size →
      t.mach.read os a = s.mach.read os a := fun a h₁ h₂ h₃ => by
    rw [hread a h₁ (by omega)]
    exact hm.read_below h₁ h₂ h₃
  have hhigh : ∀ a, l.reference_ + l.bytes ≤ a → a < (h + s.ctx.pfns_num_) * os.page_size →
      t.mach.read os (a + req * os.page_size - l.nbrOfPages os * os.page_size) =
        s.mach.read os a := fun a h₁ h₂ => by
    rw [hread _ (by omega) (by omega)]
    exact hm.read_behind h₁ (by rw [hlen]; exact h₂) (by omega)
  intro j d hd
  rw [hc.views'.reads.container?_eq] at hd
  have hviews : Views os t.mach (h * os.page_size) (h * os.page_size) t.ctx.containers
      (resizedList os L k l req sizeofT) := hr.core.containers_eq ▸ hr.views
  have hd' := hviews.reads.container?_eq j
  rcases Nat.lt_trichotomy j k with hlt | rfl | hgt
  · rw [getElem?_resizedList_lt hlt, hd] at hd'
    refine ⟨d, hd', rfl, fun _ => rfl, fun o ho => ?_⟩
    rw [Nat.min_self] at ho
    have h₁ := hspaced.end_le hd hl hlt
    have h₂ := hspaced.le_reference hd
    have h₃ : d.bytes = d.type_size_ * d.elements_num_ := rfl
    exact hlow _ (by omega) (by omega) (by omega)
  · obtain rfl := Option.some.inj (hl.symm.trans hd)
    rw [getElem?_resizedList_self hl] at hd'
    refine ⟨_, hd', Container.resized_type_size .., fun hne => absurd rfl hne, fun o ho => ?_⟩
    have h₁ : l.type_size_ * min l.elements_num_ (l.resized os req sizeofT).elements_num_ ≤
        l.bytes := Nat.mul_le_mul_left _ (Nat.min_le_left _ _)
    have h₂ : l.type_size_ * min l.elements_num_ (l.resized os req sizeofT).elements_num_ ≤
        (l.resized os req sizeofT).bytes := by
      rw [Container.bytes, Container.resized_type_size]
      exact Nat.mul_le_mul_left _ (Nat.min_le_right _ _)
    rw [Container.resized_reference]
    exact hlow _ (by omega) (by omega) (by omega)
  · rw [getElem?_resizedList_gt hgt, hd, Option.map_some] at hd'
    have h₁ := hspaced.end_le hl hd hgt
    have h₂ := hp.end_le hc hd
    have href := @moved_reference os req l d (by omega) (by omega)
    refine ⟨_, hd', Container.moved_type_size .., fun _ => Container.moved_elements_num ..,
      fun o ho => ?_⟩
    rw [Container.moved_elements_num, Nat.min_self] at ho
    have h₃ : d.bytes = d.type_size_ * d.elements_num_ := rfl
    rw [href, ← hhigh (d.reference_ + o) (by omega) (by omega)]
    congr 1
    omega

/-- A resize keeps the elements of every container, up to the smaller count in the resized one. It
fails only if a call to the system fails. -/
theorem ContainerRealloc.keeps
    (hc : Counted os s (h * os.page_size) (h * os.page_size) cs st L) (hp : Placed os s h st L)
    (hpos : ∀ l ∈ L, 0 < l.bytes) (hk : cs[k]? = some c) (hl : L[k]? = some l)
    (hu : Unwrapped os s l l.type_size_ n)
    (hlim : (h + s.ctx.pfns_num_ + l.requestedPages os l.type_size_ n) * os.page_size < 2 ^ 64) :
    Meets (ContainerRealloc os c.reference_ l.type_size_ n) s (fun _ t => Keeps os s t k)
      fun _ t => s.mach.failures < t.mach.failures := by
  have hf := hc.fits l (List.mem_of_getElem? hl)
  refine hc.meets_ContainerRealloc hp.tiled.ascending (hp.reference_lt hc) hk hl
    fun k' c' l' _ hk' hl' he => ?_
  obtain rfl := hp.tiled.spaced.index_eq hpos hl' hl he
  obtain rfl := Option.some.inj (hk'.symm.trans hk)
  obtain rfl := Option.some.inj (hl'.symm.trans hl)
  have hmax : 0 < s.ctx.pfns_max_ := by
    have h₁ := hp.pages_pos hc hl (hpos l' (List.mem_of_getElem? hl))
    have h₂ := hc.core.num
    have h₃ := hc.core.max
    omega
  refine (hc.meets_ContainerReallocAt (G := True) (F := s.mach.failures) (fun _ => hp) hk hl
    (Or.inr (hc.views.var (List.mem_of_getElem? hk))) (Or.inl rfl) hu.bytes hu.table (fun _ => hmax)
    (fun _ => hlim) le_rfl).mono (fun _ t ht => ?_) fun _ _ hE =>
      hE.resolve_right fun h => h.1 trivial
  rcases ht with ⟨-, rfl⟩ | ⟨-, st', new, hr⟩
  · exact .refl os t k'
  · exact hr.keeps_elements hc hp hl (hu.guest_le hf) (hu.resized_le hf rfl) hlim

/-- The first of two containers grows. -/
theorem ContainerRealloc.keeps_three :
    let os := OS.plain 7 (by decide) fun _ => true
    ∃ s t, Run (Calling os (Regular os) fun s call t =>
        Completes (call.run os (16 * os.page_size)) s t) (Fresh.state os 16 16)
        [.vcmalloc (.var 0) 8 20, .vcmalloc (.var 1) 8 4] s ∧
      ContainerRealloc os (.var 0) 8 40 s = .ok () t ∧ Keeps os s t 0 := by
  intro os
  have hf : Fresh os (Fresh.state os 16 16) 16 16 := Fresh.of_state (by decide) (by decide)
  have h₁ := Run.start.next (Calling.of_returned os (Regular os) (16 * os.page_size)
    (Fresh.state os 16 16) (.vcmalloc (.var 0) 8 20) ⟨⟨⟨0, rfl⟩, by decide +kernel⟩, by decide +kernel⟩
    (by decide +kernel))
  have h₂ := h₁.next (Calling.of_returned os (Regular os) _ _ (.vcmalloc (.var 1) 8 4)
    ⟨⟨⟨1, rfl⟩, by decide +kernel⟩, by decide +kernel⟩ (by decide +kernel))
  let s := endState ((Call.vcmalloc (.var 1) 8 4).run os (16 * os.page_size)
    (endState ((Call.vcmalloc (.var 0) 8 20).run os (16 * os.page_size) (Fresh.state os 16 16))))
  obtain ⟨cs, st, L, hb, hd⟩ := Run.laid hf h₂
  have hk : cs[0]? = some ⟨.var 0, 8, 20⟩ := by
    rw [← hb.counted.core.containers_eq]
    decide +kernel
  have hl : L[0]? = some ⟨2048, 8, 20⟩ := by
    rw [← hb.counted.views'.reads.container?_eq]
    decide +kernel
  have hret : ContainerRealloc os (.var 0) 8 40 s =
      .ok () (endState (ContainerRealloc os (.var 0) 8 40 s)) := eq_ok_of_returned (by decide +kernel)
  exact ⟨s, _, h₂, hret, (ContainerRealloc.keeps hb.counted hb.placed (fun l hl => (hd l hl).1) hk hl
    ⟨by decide +kernel, by decide +kernel⟩ (by decide +kernel)).of_ok hret⟩

end Data

end VcmallocBench
