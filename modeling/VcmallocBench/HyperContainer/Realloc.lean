import VcmallocBench.HyperContainer.Layout

/-! # Reallocation

What `ContainerRealloc` does to the container it finds and to those behind it.
-/

namespace VcmallocBench

open Paging

/-- The word by which references move when `pages` pages become `req`. -/
def shiftWord (os : OS) (pages req : ℕ) : ℕ :=
  sub64 (u64 (req * os.page_size)) (u64 (pages * os.page_size))

/-- The containers after container `k` got `req` pages: its element count is new, and the references
behind it have moved. -/
def resizedList (os : OS) (L : List Container) (k : ℕ) (l : Container) (req sizeofT : ℕ) :
    List Container :=
  moveFrom (k + 1) (shiftWord os (l.nbrOfPages os) req) (L.set k { l with
    elements_num_ := resizedElements os req (l.priorFreeBytes os) (l.guestBytes os) sizeofT })

structure Reallocated (os : OS) (G : Prop) (s t : State) (h hi k req sizeofT : ℕ)
    (c : ContainerContext) (l : Container) (cs : List ContainerContext) (st : List Frame)
    (L : List Container) (st' new : List Frame) : Prop where
  core : Core t.ctx (cs.set k { c with
    elements_num_ := resizedElements os req (l.priorFreeBytes os) (l.guestBytes os) sizeofT }) st'
  pfns_num : t.ctx.pfns_num_ = s.ctx.pfns_num_ + req - l.nbrOfPages os
  size : t.ctx.hypercontainer_size_ = s.ctx.hypercontainer_size_
  frames : st'.take t.ctx.pfns_num_ = splice (st.take s.ctx.pfns_num_) (pagesOf os (L.take k))
    (l.nbrOfPages os) req new
  views : Views os t.mach (h * os.page_size) hi (cs.set k { c with
    elements_num_ := resizedElements os req (l.priorFreeBytes os) (l.guestBytes os) sizeofT })
    (resizedList os L k l req sizeofT)
  vars : ∀ x, .var x ∉ cs.map (·.reference_) → t.mach.vars x = s.mach.vars x
  regions : t.mach.regions = s.mach.regions
  failures : s.mach.failures ≤ t.mach.failures
  new_length : new.length = req - l.nbrOfPages os
  new_nodup : new.Nodup
  new_fresh : ∀ f ∈ new, f ∉ s.mach.allocated
  allocated : t.mach.allocated = new ++ s.mach.allocated.filter
    (· ∉ slice (st.take s.ctx.pfns_num_) (pagesOf os (L.take k) + req) (l.nbrOfPages os - req))
  legal : (st.take s.ctx.pfns_num_).Nodup → (∀ f ∈ st.take s.ctx.pfns_num_, f ∈ s.mach.allocated) →
    ∀ call ∈ t.mach.calls, call ∈ s.mach.calls ∨ call.Legal
  moved : G → ∃ m, Remapped os s.mach m h (pagesOf os (L.take k)) (l.nbrOfPages os) req
    (l.reference_ + l.bytes) (st.take s.ctx.pfns_num_) (st'.take t.ctx.pfns_num_) ∧
    m.Rewritten os t.mach (h * os.page_size) ((h + t.ctx.pfns_num_) * os.page_size)
      (cs.map (·.reference_))
  rest : G → ∀ p, p < h ∨ h + t.ctx.pfns_num_ ≤ p →
    t.mach.pageTable p = if h ≤ p ∧ p < h + s.ctx.pfns_num_ then none
      else (s.mach.pageTable p).filter
        (· ∉ slice (st.take s.ctx.pfns_num_) (pagesOf os (L.take k) + req) (l.nbrOfPages os - req))
  region : t.ctx.pfns_num_ ≠ pagesOf os (L.take k) →
    s.mach.inRegion os (l.mappingAddress os) (t.ctx.pfns_num_ - pagesOf os (L.take k)) = true

section Realloc

variable {os : OS} {G : Prop} {F : ℕ} {s t : State} {h hi k req sizeofT : ℕ} {c : ContainerContext}
  {l : Container} {cs : List ContainerContext} {st new : List Frame} {L : List Container}

/-- Where the variables of the table may lie: outside memory, or before the old and the new end of
the resized container. -/
def Sheltered (os : OS) (G : Prop) (h hi req : ℕ) (l : Container) : Prop :=
  hi = h * os.page_size ∨ G ∧ hi ≤ l.reference_ + l.bytes ∧
    hi + l.nbrOfPages os * os.page_size ≤ l.reference_ + l.bytes + req * os.page_size

theorem map_reference_set (hk : cs[k]? = some c) (n : ℕ) :
    (cs.set k { c with elements_num_ := n }).map (·.reference_) = cs.map (·.reference_) := by
  rw [List.map_set]
  refine List.ext_getElem? fun i => ?_
  rw [List.getElem?_set]
  split
  · rename_i hki
    subst hki
    split
    · rw [List.getElem?_map, hk]; rfl
    · rename_i hlt
      rw [List.getElem?_eq_none (by omega)]
  · rfl

theorem Resized.views {elements : ℕ}
    (hc : Counted os s (h * os.page_size) hi cs st L) (hk : cs[k]? = some c) (hl : L[k]? = some l)
    (hs : Sheltered os G h hi req l)
    (hr : Resized os G s t h k (pagesOf os (L.take k)) req c l cs s.ctx.containers_max_ st elements
      new) :
    Views os t.mach (h * os.page_size) hi (cs.set k { c with elements_num_ := elements })
      (L.set k { l with elements_num_ := elements }) := by
  refine (hc.views.congr (fun _ _ x _ => by rw [hr.vars]) fun a h₁ h₂ => ?_).set_elements hk hl
  rcases hs with hhi | ⟨hG, hlo, hhi⟩
  · exact absurd h₂ (by omega)
  · exact (hr.remapped hG).read_below h₁ (by omega) (by omega)

theorem Resized.held {elements num : ℕ}
    (hc : Counted os s (h * os.page_size) hi cs st L) (hl : L[k]? = some l)
    (hs : Sheltered os G h hi req l)
    (hr : Resized os G s t h k (pagesOf os (L.take k)) req c l cs s.ctx.containers_max_ st elements
      new)
    (hnum : num = s.ctx.pfns_num_ + req - l.nbrOfPages os) :
    ∃ hi', hi ≤ hi' ∧ t.mach.Held os (h * os.page_size) hi' ∧
      (G → hi' = (h + num) * os.page_size) := by
  have hP := os.page_size_pos
  have hbound : pagesOf os (L.take k) + l.nbrOfPages os ≤ s.ctx.pfns_num_ := by
    have := hc.pages
    rw [pagesOf_eq hl] at this
    omega
  by_cases hG : G
  · have hrm := hr.remapped hG
    have hlen : (splice (st.take s.ctx.pfns_num_) (pagesOf os (L.take k)) (l.nbrOfPages os) req
        new).length = num := by
      have := hrm.length
      rw [List.length_take, Nat.min_eq_left hc.core.num] at this
      omega
    refine ⟨(h + num) * os.page_size, ?_, hlen ▸ hrm.backed'.held_range, fun _ => rfl⟩
    rcases hs with hhi | ⟨-, -, hhi⟩
    · rw [hhi]
      exact Nat.mul_le_mul_right _ (by omega)
    · have hnext : l.reference_ + l.bytes ≤ (h + s.ctx.pfns_num_) * os.page_size := by
        refine (le_ceil_mul hP _).trans (Nat.mul_le_mul_right _ ?_)
        rw [hrm.next_page]
        omega
      have he : (h + num) * os.page_size + l.nbrOfPages os * os.page_size =
          (h + s.ctx.pfns_num_) * os.page_size + req * os.page_size := by
        rw [← add_mul, ← add_mul, show h + num + l.nbrOfPages os = h + s.ctx.pfns_num_ + req by omega]
      omega
  · rcases hs with hhi | ⟨hG', -⟩
    · exact ⟨hi, le_rfl, ⟨fun a _ _ => absurd hhi (by omega), fun a _ _ _ => absurd hhi (by omega)⟩,
        fun hG' => absurd hG' hG⟩
    · exact absurd hG' hG

theorem Resized.meets_finish {elements num : ℕ}
    (hc : Counted os s (h * os.page_size) hi cs st L) (hk : cs[k]? = some c) (hl : L[k]? = some l)
    (hs : Sheltered os G h hi req l)
    (he : elements = resizedElements os req (l.priorFreeBytes os) (l.guestBytes os) sizeofT)
    (hr : Resized os G s t h k (pagesOf os (L.take k)) req c l cs s.ctx.containers_max_ st elements
      new)
    (hnum : num = s.ctx.pfns_num_ + req - l.nbrOfPages os)
    {E : Fault → State → Prop} :
    Meets (shiftReferences os (k + 1) (shiftWord os (l.nbrOfPages os) req)) t
      (fun _ u => u.ctx.pfns_num_ = s.ctx.pfns_num_ ∧ ∃ st' new,
        Reallocated os G s { u with ctx := { u.ctx with pfns_num_ := num } }
          h hi k req sizeofT c l cs st L st' new) E := by
  subst he
  obtain ⟨st', hst', hlen', hw', hroom, htake⟩ := hr.table
  have hkL : k < L.length := (List.getElem?_eq_some_iff.mp hl).1
  have hcs : t.ctx.containers = cs.set k { c with
      elements_num_ := resizedElements os req (l.priorFreeBytes os) (l.guestBytes os) sizeofT } := by
    rw [HyperContainerContext.containers, hr.cells]; rfl
  have hrefs := map_reference_set hk
    (resizedElements os req (l.priorFreeBytes os) (l.guestBytes os) sizeofT)
  have hset := hr.views hc hk hl hs
  rw [← hcs] at hset
  have hn : t.ctx.containers_num_ = (L.set k { l with
      elements_num_ := resizedElements os req (l.priorFreeBytes os) (l.guestBytes os) sizeofT }).length := by
    rw [List.length_set, hr.containers_num, hc.num_eq]
  obtain ⟨hi', hle, hh, hhi'⟩ := hr.held hc hl hs hnum
  refine (hset.meets_shiftReferences hn (by rw [List.length_set]; omega) hle hh).imp
    fun _ u hu => ?_
  obtain ⟨hctx, hrw, hv⟩ := hu
  refine ⟨by rw [hctx, hr.pfns_num], st', new, ?_⟩
  rw [hcs] at hv
  rw [hcs, hrefs] at hrw
  exact {
    core := {
      cells := by dsimp only; rw [hctx, hr.cells, hr.containers_max]
      containers_num := by
        dsimp only
        rw [hctx, hr.containers_num, hc.core.containers_num, List.length_set]
      containers_le := by
        dsimp only
        rw [hctx, hr.containers_max, List.length_set]
        exact hc.core.containers_le
      containers_words := by
        dsimp only
        rw [hctx, hr.containers_max]
        exact hc.core.containers_words
      table := by dsimp only; rw [hctx, hst']
      max := by dsimp only; rw [hctx, hlen']
      words := hw'
      num := by dsimp only; omega }
    pfns_num := hnum
    size := by dsimp only; rw [hctx, hr.size]
    frames := by dsimp only; rw [hnum, htake]
    views := hv
    vars := fun x hx => by rw [hrw.vars x hx, hr.vars]
    regions := by rw [hrw.regions, hr.regions]
    failures := by
      dsimp only
      rw [hrw.failures]
      exact hr.failures
    new_length := hr.new_length
    new_nodup := hr.new_nodup
    new_fresh := hr.new_fresh
    allocated := by rw [hrw.allocated, hr.allocated]
    legal := fun hnd hheld call hcall => hr.legal hnd hheld call (by rwa [← hrw.calls])
    moved := fun hG => by
      refine ⟨t.mach, ?_, ?_⟩
      · dsimp only
        rw [hnum, htake]
        exact hr.remapped hG
      · rw [hhi' hG] at hrw
        exact hrw
    rest := fun hG p hp => by
      dsimp only at hp ⊢
      rw [hrw.pageTable]
      exact hr.rest hG p (by rw [← hnum]; exact hp)
    region := fun hne => by
      dsimp only at hne ⊢
      rw [hnum] at hne ⊢
      exact hr.region hne }

/-- A resize does nothing when the container has the pages that it needs, and changes its pages
otherwise. -/
theorem Counted.meets_ContainerReallocAt {n F : ℕ}
    (hc : Counted os s (h * os.page_size) hi cs st L) (hp : G → Placed os s h st L)
    (hk : cs[k]? = some c) (hl : L[k]? = some l)
    (hin : G ∧ c.reference_.Within (h * os.page_size) l.reference_ ∨ ∃ x, c.reference_ = .var x)
    (hs : Sheltered os G h hi (l.requestedPages os sizeofT n) l)
    (hn : n * sizeofT + l.guestBytes os < 2 ^ 63)
    (hov : 16 * (s.ctx.pfns_num_ + l.requestedPages os sizeofT n) < 2 ^ 64)
    (hmax : G → 0 < s.ctx.pfns_max_)
    (hlim : G → (h + s.ctx.pfns_num_ + l.requestedPages os sizeofT n) * os.page_size < 2 ^ 64)
    (hF : F ≤ s.mach.failures) :
    Meets (ContainerReallocAt os k sizeofT n) s
      (fun _ t => l.requestedPages os sizeofT n = l.nbrOfPages os ∧ t = s ∨
        l.requestedPages os sizeofT n ≠ l.nbrOfPages os ∧ ∃ st' new,
          Reallocated os G s t h hi k (l.requestedPages os sizeofT n) sizeofT c l cs st L st' new)
      (Blames G F) := by
  have hkL : k < L.length := (List.getElem?_eq_some_iff.mp hl).1
  have hsum := hc.pages_lt
  have hnum := hc.pages
  have hpages := @pagesOf_eq os _ _ _ hl
  have hfits := hc.fits l (List.mem_of_getElem? hl)
  have hg := guestBytes_le_requested (s := sizeofT) hfits.reference_lt hn
  have site := hc.site hp hk hl hin
  rw [ContainerReallocAt, meets_bind]
  refine hc.views'.reads.meets_getPFNsPosition hkL.le (by omega) ?_
  rw [meets_bind, hc.views'.meets_containerAt hl]
  generalize l.requestedPages os sizeofT n = req at *
  dsimp only
  refine meets_ite (fun hlt => ?_) fun hge => ?_
  · -- the pages shrink
    have hsteps : sub64 (l.nbrOfPages os) req = l.nbrOfPages os - req :=
      sub64_of_le hlt.le (by omega)
    have hword : sub64 0 (u64 ((l.nbrOfPages os - req) * os.page_size)) =
        shiftWord os (l.nbrOfPages os) req := by
      rw [Nat.sub_mul]
      exact sub64_zero_sub (Nat.mul_le_mul_right _ hlt.le)
    rw [reallocShrink, hsteps, hword, meets_bind]
    refine (site.meets_shrinkMapping hlt hg hF).imp fun _ t hr => ?_
    rw [meets_bind]
    refine (hr.meets_finish hc hk hl hs rfl rfl).imp fun _ u hu => ?_
    obtain ⟨hnum', st', new, hu⟩ := hu
    rw [meets_modifyCtx, hnum', sub64_of_le (by omega) (by omega),
      show s.ctx.pfns_num_ - (l.nbrOfPages os - req) = s.ctx.pfns_num_ + req - l.nbrOfPages os by omega]
    exact Or.inr ⟨hlt.ne, st', new, hu⟩
  · refine meets_ite (fun hlt => ?_) fun hge' => ?_
    · -- the pages grow
      have hsteps : sub64 req (l.nbrOfPages os) = req - l.nbrOfPages os :=
        sub64_of_le hlt.le (by omega)
      have hword : u64 ((req - l.nbrOfPages os) * os.page_size) =
          shiftWord os (l.nbrOfPages os) req := by
        rw [Nat.sub_mul]
        exact u64_sub (Nat.mul_le_mul_right _ hlt.le)
      rw [reallocGrow, hsteps, hword, meets_bind]
      refine (site.meets_growMapping hlt hg hov hmax hlim hF).imp fun _ t hr => ?_
      obtain ⟨new, hr⟩ := hr
      rw [meets_bind]
      refine (hr.meets_finish hc hk hl hs rfl rfl).imp fun _ u hu => ?_
      obtain ⟨hnum', st', new', hu⟩ := hu
      rw [meets_modifyCtx, hnum', u64_of_lt (by omega),
        show s.ctx.pfns_num_ + (req - l.nbrOfPages os) = s.ctx.pfns_num_ + req - l.nbrOfPages os by
          omega]
      exact Or.inr ⟨hlt.ne', st', new', hu⟩
    · exact (meets_pure _).mpr (Or.inl ⟨by omega, rfl⟩)

end Realloc

end VcmallocBench
