import VcmallocBench.HyperContainer.Backing

/-! # Steps of a resize

The rules for the parts of the two branches of `ContainerRealloc`: the copy of
the guest bytes, the change of the frame table, and the mapping of what lies
behind the container. Only the copy needs to know how the memory is mapped.
-/

namespace VcmallocBench

open Paging

/-- A failure is explained by a call that did not do what it was asked to do, or, unless `G` holds, it
is no access out of a table. -/
def Blames (G : Prop) (F : ℕ) : Fault → State → Prop :=
  fun e t => F < t.mach.failures ∨ ¬ G ∧ e ≠ .bounds

namespace Machine

variable {os : OS} {m m' : Machine}

theorem memmove_some {dst src n : ℕ} (h : m.memmove os dst src n = some m') :
    ∃ d, m' = { m with frameData := d } := by
  unfold memmove store at h
  split at h
  · split at h
    · exact ⟨_, (Option.some.inj h).symm⟩
    · exact absurd h (by simp)
  · exact absurd h (by simp)

theorem freeCall_eq {fs : List Frame} (h₁ : (m.freeCall os fs).1.1 = true)
    (h₂ : (m.freeCall os fs).1.2 = fs.length) :
    (m.freeCall os fs).2 = { m with
      allocated := m.allocated.filter (· ∉ fs)
      pageTable := fun p => (m.pageTable p).filter (· ∉ fs)
      calls := .free fs m.allocated fs.length true :: m.calls } := by
  simp only [freeCall] at h₁ h₂ ⊢
  rw [h₁, h₂, List.take_length]

theorem allocateCall_eq {n : ℕ} (h₁ : (m.allocateCall os n).1.1 = true) :
    ∃ fs d, (m.allocateCall os n).1.2 = fs ∧ fs.Nodup ∧ (∀ f ∈ fs, f ∉ m.allocated) ∧
      (∀ f ∉ fs, d f = m.frameData f) ∧
      (m.allocateCall os n).2 = { m with
        allocated := fs ++ m.allocated
        frameData := d
        calls := .allocate n fs true :: m.calls } := by
  unfold allocateCall at h₁ ⊢
  dsimp only at h₁ ⊢
  split at h₁
  · rename_i hok
    rw [if_pos hok]
    refine ⟨_, _, rfl, os.pick_nodup _ _ _, os.pick_fresh _ _ _, fun f hf => ?_, rfl⟩
    exact if_neg hf
  · exact absurd h₁ (by simp)

theorem allocateCall_contents {n : ℕ} {f : Frame} (h₁ : (m.allocateCall os n).1.1 = true)
    (hf : f ∈ (m.allocateCall os n).1.2) : ∃ k, (m.allocateCall os n).2.frameData f = os.contents k f := by
  unfold allocateCall at h₁ hf ⊢
  dsimp only at h₁ hf ⊢
  split at h₁
  · rename_i hok
    rw [if_pos hok] at hf ⊢
    exact ⟨_, if_pos hf⟩
  · exact absurd h₁ (by simp)

theorem mapReply_inRegion {a n : ℕ} (h : m.mapReply os a n = true) (hn : n ≠ 0) :
    m.inRegion os a n = true := by
  rw [mapReply, if_neg hn, Bool.and_eq_true] at h
  exact h.2

theorem mapCall_eq {a n : ℕ} {fs : Option (List Frame)} (h : m.mapReply os a n = true) :
    (m.mapCall os a n fs).2 = { m with
      pageTable := fun p => if a / os.page_size ≤ p ∧ p < a / os.page_size + n then
        fs.bind (·[p - a / os.page_size]?) else m.pageTable p
      calls := .map a n true :: m.calls } := by
  unfold mapCall
  rw [h]
  rfl

end Machine

section Steps

variable {os : OS} {G : Prop} {F : ℕ} {s : State} {R : Unit → State → Prop}

theorem blames_of_lt {e : Fault} {t : State} (h : F < t.mach.failures) : Blames G F e t := Or.inl h

/-- Copying the guest bytes of container `k` changes frames only. If `G` holds, they are found in
frame `g` and go to frame `f`. -/
theorem meets_copyGuest {k : ℕ} {dst : ℕ → ℕ} {message : String} {c : ContainerContext}
    {l : Container} (hc : s.ctx.containers[k]? = some c) (hl : c.resolve os s.mach = some l)
    (hG : G → l.nextAddress = l.reference_ + l.bytes ∧ dst l.nextAddress ≠ 0 ∧
      dst l.nextAddress % os.page_size = (l.reference_ + l.bytes) % os.page_size)
    (hpages : G → 0 < gap os.page_size (l.reference_ + l.bytes) → ∃ f g,
      s.mach.pageTable (dst l.nextAddress / os.page_size) = some f ∧
      s.mach.pageTable ((l.reference_ + l.bytes) / os.page_size) = some g)
    (hR : ∀ d, (G → gap os.page_size (l.reference_ + l.bytes) = 0 → d = s.mach.frameData) →
      (G → 0 < gap os.page_size (l.reference_ + l.bytes) → ∀ f g,
        s.mach.pageTable (dst l.nextAddress / os.page_size) = some f →
        s.mach.pageTable ((l.reference_ + l.bytes) / os.page_size) = some g →
        d = tailCopy os.page_size f g ((l.reference_ + l.bytes) % os.page_size) s.mach.frameData) →
      R () { s with mach := { s.mach with frameData := d } }) :
    Meets (copyGuest os k dst message) s R (Blames G F) := by
  rw [copyGuest, meets_bind, meets_containerAt hc hl, meets_bind, memmove]
  have hcopy : ∀ g f, G → 0 < gap os.page_size (l.reference_ + l.bytes) →
      s.mach.pageTable (dst l.nextAddress / os.page_size) = some f →
      s.mach.pageTable ((l.reference_ + l.bytes) / os.page_size) = some g →
      s.mach.memmove os (dst l.nextAddress) l.nextAddress (l.guestBytes os) =
        some { s.mach with
          frameData := tailCopy os.page_size f g ((l.reference_ + l.bytes) % os.page_size)
            s.mach.frameData } := by
    intro g f hg hpos hf hg'
    obtain ⟨hn, -, hmod⟩ := hG hg
    have := Machine.memmove_gap hmod hpos hg' hf
    rwa [Container.guestBytes_eq, hn] at *
  have hzero : G → gap os.page_size (l.reference_ + l.bytes) = 0 →
      s.mach.memmove os (dst l.nextAddress) l.nextAddress (l.guestBytes os) = some s.mach := by
    intro hg h₀
    rw [Container.guestBytes_eq, h₀]
    exact Machine.memmove_zero _ _
  cases hm : s.mach.memmove os (dst l.nextAddress) l.nextAddress (l.guestBytes os) with
  | none =>
    rw [meets_onMachine_none hm]
    refine Or.inr ⟨fun hg => ?_, by decide⟩
    rcases Nat.eq_zero_or_pos (gap os.page_size (l.reference_ + l.bytes)) with h₀ | hpos
    · exact absurd (hm.symm.trans (hzero hg h₀)) (by simp)
    · obtain ⟨f, g, hf, hg'⟩ := hpages hg hpos
      exact absurd (hm.symm.trans (hcopy g f hg hpos hf hg')) (by simp)
  | some m' =>
    obtain ⟨d, rfl⟩ := Machine.memmove_some hm
    rw [meets_onMachine hm]
    refine meets_ensure (fun _ => hR d (fun hg h₀ => ?_) fun hg hpos f g hf hg' => ?_) fun h₀ =>
      Or.inr ⟨fun hg => ?_, by simp⟩
    · exact congrArg Machine.frameData (Option.some.inj (hm.symm.trans (hzero hg h₀)))
    · exact congrArg Machine.frameData (Option.some.inj (hm.symm.trans (hcopy g f hg hpos hf hg')))
    · exact absurd (by simpa using h₀) (hG hg).2.1

variable {k start pages req : ℕ} {c : ContainerContext} {l : Container} {st : List Frame}

theorem meets_updateStruct {sizeofT room : ℕ} {cs : List ContainerContext}
    {E : Fault → State → Prop} (hcs : s.ctx.containercontext_storage_ = some ⟨cs, room⟩)
    (hr : cs.length ≤ room) (hc : cs[k]? = some c) (hl : c.resolve os s.mach = some l)
    (hR : R () { s with ctx := { s.ctx with
      containercontext_storage_ := some ⟨cs.set k { c with
        elements_num_ := resizedElements os req (l.priorFreeBytes os) (l.guestBytes os) sizeofT },
        room⟩ } }) :
    Meets (updateStruct os k sizeofT req) s R E := by
  have hcs' : s.ctx.containers = cs := by rw [HyperContainerContext.containers, hcs]; rfl
  rw [updateStruct, meets_bind, meets_containerAt (hcs' ▸ hc) hl, meets_setElements hcs hr hc]
  exact hR

theorem meets_shrinkFrames (hst : s.ctx.pfns_storage_ = some st)
    (hw : 8 * st.length < 2 ^ 64) (hnum : s.ctx.pfns_num_ ≤ st.length) (hreq : req < pages)
    (hb : start + pages ≤ s.ctx.pfns_num_) (hF : F ≤ s.mach.failures)
    (hR : ∀ m' : Machine, m' = { s.mach with
        allocated := s.mach.allocated.filter (· ∉ slice st (start + req) (pages - req))
        pageTable := fun p => (s.mach.pageTable p).filter
          (· ∉ slice st (start + req) (pages - req))
        calls := .free (slice st (start + req) (pages - req)) s.mach.allocated (pages - req) true ::
          s.mach.calls } →
      R () ⟨m', { s.ctx with pfns_storage_ := some (overwrite st (start + req)
        (slice st (start + pages) (s.ctx.pfns_num_ - start - pages))) }⟩) :
    Meets (shrinkFrames os start req pages) s R (Blames G F) := by
  have hsteps : sub64 pages req = pages - req := sub64_of_le hreq.le (by omega)
  have hfree : u64 (start + req) = start + req := u64_of_lt (by omega)
  have hafter : u64 (start + pages) = start + pages := u64_of_lt (by omega)
  have hbehind : sub64 (sub64 s.ctx.pfns_num_ start) pages = s.ctx.pfns_num_ - start - pages := by
    rw [sub64_sub64 hb (by omega)]; omega
  have hlen : (slice st (start + req) (pages - req)).length = pages - req := length_slice (by omega)
  rw [shrinkFrames, hsteps, hfree, hafter]
  rw [meets_bind, meets_readPFNs (by rw [frames_of_storage hst]; omega), frames_of_storage hst,
    meets_bind, FreeUserPhysicalPages, meets_osCall]
  dsimp only
  rw [meets_bind]
  refine meets_ensure (fun h₁ => ?_) fun h₁ =>
    blames_of_lt (Machine.failures_lt_freeCall (Or.inl h₁) hF)
  rw [meets_bind]
  refine meets_ensure (fun h₂ => ?_) fun h₂ =>
    blames_of_lt (Machine.failures_lt_freeCall (Or.inr (by rw [hlen]; simpa using h₂)) hF)
  rw [beq_iff_eq] at h₂
  rw [Machine.freeCall_eq h₁ (h₂.trans hlen.symm), meets_bind, meets_getCtx]
  dsimp only
  rw [hbehind, hlen]
  refine (meets_movePFNs ?_ ?_ ?_).mpr (hR _ rfl)
  · exact hst
  · omega
  · omega

theorem meets_growFrames (hst : s.ctx.pfns_storage_ = some st) (hmax : st.length = s.ctx.pfns_max_)
    (hw : 8 * st.length < 2 ^ 64) (hov : 16 * (s.ctx.pfns_num_ + req) < 2 ^ 64)
    (hnum : s.ctx.pfns_num_ ≤ st.length) (hreq : pages < req)
    (hb : start + pages ≤ s.ctx.pfns_num_) (hpos : G → 0 < s.ctx.pfns_max_)
    (hF : F ≤ s.mach.failures)
    (hR : ∀ (m m' : Machine) (st' new : List Frame) d, s.mach.Quiet m →
      m' = { s.mach with
        allocated := new ++ s.mach.allocated
        frameData := d
        calls := .allocate (req - pages) new true :: m.calls } →
      s.ctx.pfns_num_ + (req - pages) ≤ st'.length → 8 * st'.length < 2 ^ 64 →
      st'.take (s.ctx.pfns_num_ + (req - pages)) =
        splice (st.take s.ctx.pfns_num_) start pages req new →
      new.length = req - pages → new.Nodup → (∀ f ∈ new, f ∉ s.mach.allocated) →
      (∀ f ∉ new, d f = s.mach.frameData f) →
      R () ⟨m', { s.ctx with pfns_storage_ := some st', pfns_max_ := st'.length }⟩) :
    Meets (growFrames os start req pages) s R (Blames G F) := by
  have hsteps : sub64 req pages = req - pages := sub64_of_le hreq.le (by omega)
  have hdst : u64 (start + req) = start + req := u64_of_lt (by omega)
  have hsrc : u64 (start + pages) = start + pages := u64_of_lt (by omega)
  have hbehind : sub64 (sub64 s.ctx.pfns_num_ start) pages = s.ctx.pfns_num_ - start - pages := by
    rw [sub64_sub64 hb (by omega)]; omega
  rw [growFrames, hsteps, hdst, hsrc]
  dsimp only
  rw [meets_bind]
  refine meets_AssertPfnsStorage_quiet hst hmax hw (by omega) hnum (fun m st₁ hq h₁ h₂ h₃ => ?_)
    fun e t hne ht => (em G).imp (fun hg => lt_of_le_of_lt hF (ht (hpos hg))) fun hg => ⟨hg, hne⟩
  rw [meets_bind, meets_getCtx]
  dsimp only
  rw [hbehind, meets_bind, meets_movePFNs rfl (by omega) (by omega)]
  have hlen₁ : (slice st₁ (start + pages) (s.ctx.pfns_num_ - start - pages)).length =
      s.ctx.pfns_num_ - start - pages := length_slice (by omega)
  have hlen₂ : (overwrite st₁ (start + req)
      (slice st₁ (start + pages) (s.ctx.pfns_num_ - start - pages))).length = st₁.length :=
    length_overwrite (by omega)
  have hF' : F ≤ m.failures := by rw [hq.failures]; exact hF
  have hle := Machine.length_allocateCall os m (req - pages)
  rw [meets_bind, AllocateUserPhysicalPages, meets_osCall]
  dsimp only
  rw [meets_bind, meets_writePFNs rfl (by omega), meets_bind]
  refine meets_ensure (fun hok => ?_) fun hok =>
    blames_of_lt (Machine.failures_lt_allocateCall (Or.inl hok) hF')
  refine meets_ensure (fun hn => ?_) fun hn =>
    blames_of_lt (Machine.failures_lt_allocateCall (Or.inr (by simpa using hn)) hF')
  obtain ⟨new, d, hnew, hnd, hfresh, hd, hm'⟩ := Machine.allocateCall_eq hok
  have hm := hq.eq
  rw [hm', hnew]
  rw [beq_iff_eq, hnew] at hn
  have hlen₃ : (overwrite (overwrite st₁ (start + req)
      (slice st₁ (start + pages) (s.ctx.pfns_num_ - start - pages))) (start + pages) new).length =
      (overwrite st₁ (start + req)
        (slice st₁ (start + pages) (s.ctx.pfns_num_ - start - pages))).length :=
    length_overwrite (by omega)
  have htake := take_moveUp (l := st₁) (N := s.ctx.pfns_num_) hn hreq.le hb h₁
  rw [h₃] at htake
  have := hR m _ _ new d hq rfl (by rw [hlen₃, hlen₂]; exact h₁) (by rw [hlen₃, hlen₂]; exact h₂)
    htake hn hnd (by rw [hm] at hfresh; exact hfresh) (by rw [hm] at hd; exact hd)
  rw [hlen₃, hlen₂] at this
  rw [hm] at this ⊢
  exact this

def unmapPages (pt : ℕ → Option Frame) (first behind : ℕ) : ℕ → Option Frame :=
  fun p => if first ≤ p ∧ p < first + behind then none else pt p

def remapPages (pt : ℕ → Option Frame) (first behind : ℕ) (fs : List Frame) : ℕ → Option Frame :=
  fun p => if first ≤ p ∧ p < first + fs.length then fs[p - first]? else unmapPages pt first behind p

theorem remapPages_eq {pt : ℕ → Option Frame} {first behind n : ℕ} {fs : List Frame}
    (hn : fs.length = n) : remapPages pt first behind fs = fun p =>
      if first ≤ p ∧ p < first + n then (some fs).bind (·[p - first]?)
      else unmapPages pt first behind p := by
  subst hn; rfl

theorem Machine.Quiet.mapCall {m m' : Machine} (hq : m.Quiet m') (a n : ℕ) :
    m.Quiet { m' with calls := .map a n true :: m'.calls } where
  eq := by rw [hq.eq]
  failures := by
    rw [Machine.failures_cons, hq.failures]
    rfl
  legal call hcall := by
    rcases List.mem_cons.mp hcall with rfl | hcall
    · exact Or.inr trivial
    · exact hq.legal call hcall

/-- Unmapping the pages behind a container and mapping others, when there were pages to unmap. -/
theorem meets_shrinkRemap {steps : ℕ} (hc : s.ctx.containers[k]? = some c)
    (hres : ∀ m' : Machine, m'.vars = s.mach.vars → m'.frameData = s.mach.frameData →
      (∀ p, p < l.mappingAddress os / os.page_size → m'.pageTable p = s.mach.pageTable p) →
      c.resolve os m' = some l)
    (hst : s.ctx.pfns_storage_ = some st) (hw : 8 * st.length < 2 ^ 64)
    (hnum : s.ctx.pfns_num_ ≤ st.length) (hb : start + steps ≤ s.ctx.pfns_num_)
    (hF : F ≤ s.mach.failures)
    (hR : ∀ m', s.mach.Quiet m' → (s.ctx.pfns_num_ - start - steps ≠ 0 →
        s.mach.inRegion os (l.mappingAddress os) (s.ctx.pfns_num_ - start - steps) = true) →
      R () ⟨{ m' with
        pageTable := remapPages s.mach.pageTable (l.mappingAddress os / os.page_size)
          (s.ctx.pfns_num_ - start) (slice st start (s.ctx.pfns_num_ - start - steps)) }, s.ctx⟩) :
    Meets (shrinkRemap os k start steps) s R (Blames G F) := by
  have hbehind : sub64 s.ctx.pfns_num_ start = s.ctx.pfns_num_ - start :=
    sub64_of_le (by omega) (by omega)
  have hleft : sub64 (s.ctx.pfns_num_ - start) steps = s.ctx.pfns_num_ - start - steps :=
    sub64_of_le (by omega) (by omega)
  have hlen : (slice st start (s.ctx.pfns_num_ - start - steps)).length =
      s.ctx.pfns_num_ - start - steps := length_slice (by omega)
  rw [shrinkRemap, meets_bind, meets_getCtx, hbehind]
  dsimp only
  rw [hleft, meets_bind, meets_containerAt hc (hres _ rfl rfl fun _ _ => rfl), meets_bind,
    MapUserPhysicalPages, meets_osCall, meets_bind]
  refine meets_ensure (fun h₁ => ?_) fun h₁ => blames_of_lt ?_
  · rw [Machine.mapCall_eq h₁, meets_bind,
      meets_containerAt_mk hc (hres _ ?_ ?_ ?_), meets_bind,
      meets_readPFNs (by rw [frames_of_storage hst]; omega), frames_of_storage hst, meets_bind,
      MapUserPhysicalPages, meets_osCall]
    · refine meets_ensure (fun h₂ => ?_) fun h₂ => blames_of_lt ?_
      · rw [Machine.mapCall_eq h₂]
        have := hR _ (((Machine.Quiet.refl s.mach).mapCall (l.mappingAddress os)
          (s.ctx.pfns_num_ - start)).mapCall (l.mappingAddress os) (s.ctx.pfns_num_ - start - steps))
          fun hn => by
            have hin := Machine.mapReply_inRegion h₂ hn
            exact hin
        rw [remapPages_eq hlen] at this
        exact this
      · refine Machine.failures_lt_mapCall h₂ (hF.trans (le_of_eq ?_))
        exact (Machine.failures_of_calls (m := s.mach)
          (c := .map (l.mappingAddress os) (s.ctx.pfns_num_ - start) true) rfl).symm
    · rfl
    · rfl
    · exact fun p hp => if_neg (by omega)
  · exact Machine.failures_lt_mapCall h₁ hF

theorem meets_growRemap {steps : ℕ} (hc : s.ctx.containers[k]? = some c)
    (hres : ∀ m' : Machine, m'.vars = s.mach.vars → m'.frameData = s.mach.frameData →
      (∀ p, p < l.mappingAddress os / os.page_size → m'.pageTable p = s.mach.pageTable p) →
      c.resolve os m' = some l)
    (hst : s.ctx.pfns_storage_ = some st) (hw : 8 * st.length < 2 ^ 64)
    (hnum : s.ctx.pfns_num_ + steps ≤ st.length) (hb : start ≤ s.ctx.pfns_num_)
    (hF : F ≤ s.mach.failures)
    (hR : ∀ m', s.mach.Quiet m' → (s.ctx.pfns_num_ - start + steps ≠ 0 →
        s.mach.inRegion os (l.mappingAddress os) (s.ctx.pfns_num_ - start + steps) = true) →
      R () ⟨{ m' with
        pageTable := remapPages s.mach.pageTable (l.mappingAddress os / os.page_size)
          (s.ctx.pfns_num_ - start) (slice st start (s.ctx.pfns_num_ - start + steps)) }, s.ctx⟩) :
    Meets (growRemap os k start steps) s R (Blames G F) := by
  have hbehind : sub64 s.ctx.pfns_num_ start = s.ctx.pfns_num_ - start :=
    sub64_of_le (by omega) (by omega)
  have hmore : u64 (s.ctx.pfns_num_ - start + steps) = s.ctx.pfns_num_ - start + steps :=
    u64_of_lt (by omega)
  have hlen : (slice st start (s.ctx.pfns_num_ - start + steps)).length =
      s.ctx.pfns_num_ - start + steps := length_slice (by omega)
  rw [growRemap, meets_bind, meets_getCtx]
  dsimp only
  rw [hbehind, hmore, meets_bind]
  -- both branches leave the pages behind the container unmapped
  let S : Unit → State → Prop := fun _ t => ∃ m', s.mach.Quiet m' ∧
    t = ⟨{ m' with
      pageTable := unmapPages s.mach.pageTable (l.mappingAddress os / os.page_size)
        (s.ctx.pfns_num_ - start) }, s.ctx⟩
  refine Meets.imp (Q := S) (meets_onlyIf (fun _ => ?_) fun hz => ?_) ?_
  · rw [meets_bind, meets_containerAt hc (hres _ rfl rfl fun _ _ => rfl), meets_bind,
      MapUserPhysicalPages, meets_osCall]
    refine meets_ensure (fun h₁ => ?_) fun h₁ => blames_of_lt ?_
    · rw [Machine.mapCall_eq h₁]
      exact ⟨_, (Machine.Quiet.refl s.mach).mapCall (l.mappingAddress os)
        (s.ctx.pfns_num_ - start), rfl⟩
    · exact Machine.failures_lt_mapCall h₁ hF
  · refine ⟨s.mach, .refl _, ?_⟩
    have he : unmapPages s.mach.pageTable (l.mappingAddress os / os.page_size)
        (s.ctx.pfns_num_ - start) = s.mach.pageTable := by
      funext p
      exact if_neg (by omega)
    rw [he]
  · rintro _ t ⟨m', hq, rfl⟩
    have hm' := hq.eq
    have hvars : m'.vars = s.mach.vars := by rw [hm']
    have hdata : m'.frameData = s.mach.frameData := by rw [hm']
    have hregions : m'.regions = s.mach.regions := by rw [hm']
    rw [meets_bind, meets_containerAt_mk hc (hres _ ?_ ?_ ?_), meets_bind,
      meets_readPFNs (by rw [frames_of_storage hst]; omega), frames_of_storage hst, meets_bind,
      MapUserPhysicalPages, meets_osCall]
    · refine meets_ensure (fun h₂ => ?_) fun h₂ => blames_of_lt ?_
      · rw [Machine.mapCall_eq h₂]
        have := hR _ (hq.mapCall (l.mappingAddress os) (s.ctx.pfns_num_ - start + steps)) fun hn => by
          have hin := Machine.mapReply_inRegion h₂ hn
          rw [Machine.inRegion, ← hregions]
          exact hin
        rw [remapPages_eq hlen] at this
        exact this
      · exact Machine.failures_lt_mapCall h₂ (hF.trans hq.failures.ge)
    · exact hvars
    · exact hdata
    · exact fun p hp => if_neg (by omega)

end Steps

end VcmallocBench
