import VcmallocBench.HyperContainer.Layout

/-! # Allocation

What `ContainerAlloc` appends to a hypercontainer. Of the containers that are
there it reads the last one only.
-/

namespace VcmallocBench

open Paging

/-- An exception is explained by a call that did not do all it was asked to do. -/
def Blamed (F : ℕ) : Fault → State → Prop :=
  fun e t => ∀ message, e = .thrown message → F < t.mach.failures

section Insert

variable {os : OS} {s : State} {R : Unit → State → Prop} {E : Fault → State → Prop}

/-- The bytes of a new container table have not wrapped if there is room behind the old entries. -/
theorem no_wrap_of_room {N len P : ℕ} (hP : P < 2 ^ 32) (hN : N < len + 1 + P)
    (h : len < u64 (N * sizeofContainerContext) / sizeofContainerContext) :
    u64 (N * sizeofContainerContext) = N * sizeofContainerContext := by
  unfold u64 sizeofContainerContext at *
  omega

theorem meets_insert {user : PtrLoc} {sizeofT n : ℕ} {cs : List ContainerContext}
    (hcs : s.ctx.containercontext_storage_ = some ⟨cs, s.ctx.containers_max_⟩)
    (hnum : s.ctx.containers_num_ = cs.length) (hle : cs.length ≤ s.ctx.containers_max_)
    (hw : sizeofContainerContext * s.ctx.containers_max_ < 2 ^ 64)
    (hR : ∀ m' N, s.mach.Quiet m' → cs.length + 1 ≤ N → sizeofContainerContext * N < 2 ^ 64 →
      R () ⟨m', { s.ctx with
        containercontext_storage_ := some ⟨cs ++ [⟨user, sizeofT, n⟩], N⟩
        containers_num_ := cs.length + 1
        containers_max_ := N }⟩)
    (hE : ∀ e t, (∀ message, e = .thrown message → t.ctx.containercontext_storage_ = none ∧
      s.mach.failures < t.mach.failures) → (cs.length < 2 ^ 59 → e ≠ .bounds) → E e t) :
    Meets (insert os user sizeofT n) s R E := by
  have hP := os.page_size_lt
  unfold sizeofContainerContext at hw
  have hu : u64 (s.ctx.containers_num_ + 1) = cs.length + 1 := by
    rw [hnum]
    exact u64_of_lt (by omega)
  have hidx : sub64 (cs.length + 1) 1 = cs.length := sub64_of_le (by omega) (by omega)
  rw [insert, meets_bind]
  refine meets_AssertContainerContextStorage hcs (by omega) (by omega) (fun h => ?_) (fun _ _ => ?_)
    (fun N bytes hlt hge hlt' hb hr => ?_) fun bytes hlt hr => ?_
  · rw [meets_bind, meets_modifyCtx, meets_bind, meets_getCtx]
    dsimp only
    rw [hu, hidx]
    have hlt : cs.length < s.ctx.containers_max_ := by omega
    exact (meets_writeContext_append (s := ⟨s.mach, { s.ctx with containers_num_ := cs.length + 1 }⟩)
      hcs hlt).mpr (hR _ _ (.refl _) hlt hw)
  · refine hE _ _ (fun _ h => ?_) fun _ => by decide
    cases h
  · rw [meets_bind, meets_modifyCtx, meets_bind, meets_getCtx]
    dsimp only
    rw [hu, hidx]
    rcases Nat.lt_or_ge cs.length (bytes / sizeofContainerContext) with hin | hout
    · have hb' := no_wrap_of_room hP (by omega) (hb ▸ hin)
      have hN : bytes / sizeofContainerContext = N := by
        rw [hb, hb', Nat.mul_div_cancel _ (by decide)]
      have hbytes : sizeofContainerContext * N < 2 ^ 64 := by
        rw [mul_comm, ← hb']
        exact u64_lt _
      have htake : cs.take (bytes / sizeofContainerContext) = cs := List.take_of_length_le hin.le
      have hq : s.mach.Quiet (s.mach.heapCall os bytes).2 := .heapCall hr
      rw [htake, hN, meets_writeContext_append rfl (by omega)]
      exact hR _ _ hq (by omega) hbytes
    · rw [meets_writeContext_out rfl hout]
      refine hE _ _ (fun _ h => ?_) fun hlen => ?_
      · cases h
      · -- so few entries cannot have wrapped
        unfold u64 sizeofContainerContext at *
        omega
  · refine hE _ _ (fun _ _ => ⟨rfl, ?_⟩) fun _ => by simp
    dsimp only
    rw [Machine.failures_heapCall, hr]
    exact Nat.lt_succ_self _

end Insert

/-- New frames are held, and mapped from a page on; nothing else has changed. -/
structure Machine.Extended (m m' : Machine) (first : ℕ) (new : List Frame) : Prop where
  nodup : new.Nodup
  fresh : ∀ f ∈ new, f ∉ m.allocated
  allocated : m'.allocated = new ++ m.allocated
  vars : m'.vars = m.vars
  regions : m'.regions = m.regions
  frameData : ∀ f ∉ new, m'.frameData f = m.frameData f
  pageTable : ∀ p, m'.pageTable p =
    if first ≤ p ∧ p < first + new.length then new[p - first]? else m.pageTable p
  failures : m'.failures = m.failures
  legal : ∀ call ∈ m'.calls, call ∈ m.calls ∨ call.Legal

section Pages

variable {os : OS} {s : State} {R : Unit → State → Prop} {E : Fault → State → Prop}
  {st : List Frame} {a req : ℕ}

theorem Machine.Quiet.extended {m m₁ m' : Machine} {first : ℕ} {new : List Frame} (hq : m.Quiet m₁)
    (h : m₁.Extended m' first new) : m.Extended m' first new where
  nodup := h.nodup
  fresh := by
    have := h.fresh
    rwa [hq.eq] at this
  allocated := by rw [h.allocated, hq.eq]
  vars := by rw [h.vars, hq.eq]
  regions := by rw [h.regions, hq.eq]
  frameData f hf := by rw [h.frameData f hf, hq.eq]
  pageTable p := by rw [h.pageTable, hq.eq]
  failures := h.failures.trans hq.failures
  legal call hcall := by
    rcases h.legal call hcall with hc | hc
    · exact hq.legal call hc
    · exact Or.inr hc

/-- What `allocPages` does once the frame table has been asked for room. -/
def takePages (os : OS) (mappingAddress requestedPages : ℕ) : Op Unit := do
  let ctx ← getCtx
  let (ok, allocatedPFNs) ← AllocateUserPhysicalPages os requestedPages
  writePFNs ctx.pfns_num_ allocatedPFNs
  ensure ok
    "vcmalloc: Physical Memory Allocation Error , Probably Physical Memory Unavailable"
  ensure (allocatedPFNs.length == requestedPages)
    "vcmalloc: Physical Memory Allocation Incomplete , Probably Physical Memory Unavailable"
  onlyIf (requestedPages ≠ 0) do
    let PFNs ← readPFNs ctx.pfns_num_ requestedPages
    let ok ← MapUserPhysicalPages os mappingAddress requestedPages (some PFNs)
    ensure ok "vcmalloc: MapUserPhysicalPages failed"
  modifyCtx fun ctx => { ctx with pfns_num_ := u64 (ctx.pfns_num_ + requestedPages) }

theorem allocPages_eq (os : OS) (a req : ℕ) : allocPages os a req = (do
    AssertPfnsStorage os req
    takePages os a req) := rfl

/-- A write beyond the table: an empty one is none, but then no frame was delivered. -/
theorem meets_takePages_outside (hst : s.ctx.pfns_storage_ = some st)
    (hnum : req = 0 → s.ctx.pfns_num_ ≤ st.length)
    (hout : st.length < s.ctx.pfns_num_ + (s.mach.allocateCall os req).1.2.length)
    (hE : ∀ e t, t.ctx.containers_num_ = s.ctx.containers_num_ →
      (∀ message, e = .thrown message → s.mach.failures < t.mach.failures) →
      (s.ctx.pfns_num_ + req ≤ st.length → e ≠ .bounds) → E e t) :
    Meets (takePages os a req) s R E := by
  have hle := Machine.length_allocateCall os s.mach req
  rw [takePages, meets_bind, meets_getCtx, meets_bind, AllocateUserPhysicalPages, meets_osCall]
  dsimp only
  rw [meets_bind, writePFNs, meets_bind]
  rcases List.eq_nil_or_concat (s.mach.allocateCall os req).1.2 with hnil | ⟨fs, f, hfs⟩
  · have hb : ∀ l : List Frame, blit [] 0 l s.ctx.pfns_num_ ([] : List Frame).length = some l :=
      fun _ => rfl
    rw [hnil, meets_fetch (hb _), meets_modifyCtx, meets_bind]
    refine meets_ensure (fun _ => ?_) fun hok => hE _ _ rfl (fun _ _ =>
      Machine.failures_lt_allocateCall (Or.inl hok) le_rfl) fun _ => by simp
    rw [meets_bind]
    refine meets_ensure (fun hlen => ?_) fun hlen => hE _ _ rfl (fun _ _ =>
      Machine.failures_lt_allocateCall (Or.inr (by rw [hnil]; simpa using hlen)) le_rfl)
      fun _ => by simp
    have hz : req = 0 := (by simpa using hlen : (0 : ℕ) = req).symm
    rw [hnil, List.length_nil] at hout
    exact absurd (hnum hz) (by omega)
  · have hpos : (s.mach.allocateCall os req).1.2.length ≠ 0 := by
      rw [hfs, List.length_concat]
      exact Nat.succ_ne_zero _
    have hb : blit (s.mach.allocateCall os req).1.2 0 s.ctx.frames s.ctx.pfns_num_
        (s.mach.allocateCall os req).1.2.length = none := by
      rw [frames_of_storage hst, blit, if_neg hpos, if_neg fun h => absurd h.2 (not_le.mpr hout)]
    rw [meets_fetch_none (s := ⟨(s.mach.allocateCall os req).2, s.ctx⟩) hb]
    exact hE _ _ rfl (fun _ h => by cases h) fun _ => absurd hout (by omega)

theorem meets_takePages (hst : s.ctx.pfns_storage_ = some st) (hw : 8 * st.length < 2 ^ 64)
    (hnum : req = 0 → s.ctx.pfns_num_ ≤ st.length)
    (hR : ∀ m' new, s.mach.Extended m' (a / os.page_size) new → new.length = req →
      (req ≠ 0 → s.mach.inRegion os a req = true) → s.ctx.pfns_num_ + req ≤ st.length →
      R () ⟨m', { s.ctx with
        pfns_storage_ := some (overwrite st s.ctx.pfns_num_ new)
        pfns_num_ := s.ctx.pfns_num_ + req }⟩)
    (hE : ∀ e t, t.ctx.containers_num_ = s.ctx.containers_num_ →
      (∀ message, e = .thrown message → s.mach.failures < t.mach.failures) →
      (s.ctx.pfns_num_ + req ≤ st.length → e ≠ .bounds) → E e t) :
    Meets (takePages os a req) s R E := by
  rcases Nat.lt_or_ge st.length (s.ctx.pfns_num_ + (s.mach.allocateCall os req).1.2.length) with
    hout | hfit
  · exact meets_takePages_outside hst hnum hout hE
  rw [takePages, meets_bind, meets_getCtx, meets_bind, AllocateUserPhysicalPages, meets_osCall]
  dsimp only
  rw [meets_bind, meets_writePFNs (s := ⟨(s.mach.allocateCall os req).2, s.ctx⟩) hst hfit, meets_bind]
  refine meets_ensure (fun hok => ?_) fun hok => hE _ _ rfl (fun _ _ =>
    Machine.failures_lt_allocateCall (Or.inl hok) le_rfl) fun _ => by simp
  rw [meets_bind]
  refine meets_ensure (fun hlen => ?_) fun hlen => hE _ _ rfl (fun _ _ =>
    Machine.failures_lt_allocateCall (Or.inr (by simpa using hlen)) le_rfl) fun _ => by simp
  obtain ⟨new, d, hnew, hnd, hfresh, hd, hm'⟩ := Machine.allocateCall_eq hok
  rw [hnew] at hfit ⊢
  rw [beq_iff_eq, hnew] at hlen
  rw [hm']
  have hu : u64 (s.ctx.pfns_num_ + req) = s.ctx.pfns_num_ + req := u64_of_lt (by omega)
  have hlen' := length_overwrite (l := st) (i := s.ctx.pfns_num_) hfit
  have hfail : Machine.failures { s.mach with
      allocated := new ++ s.mach.allocated
      frameData := d
      calls := .allocate req new true :: s.mach.calls } = s.mach.failures := by
    rw [Machine.failures_of_calls rfl]
    simp [OsCall.success, hlen]
  have hlegal : ∀ call ∈ OsCall.allocate req new true :: s.mach.calls,
      call ∈ s.mach.calls ∨ call.Legal := by
    intro call hcall
    rcases List.mem_cons.mp hcall with rfl | hcall
    · exact Or.inr trivial
    · exact Or.inl hcall
  rw [meets_bind]
  refine meets_onlyIf (fun hne => ?_) fun hz => ?_
  · rw [meets_bind, meets_readPFNs (by rw [frames_of_storage rfl]; omega), frames_of_storage rfl,
      slice_overwrite hfit hlen, meets_bind, MapUserPhysicalPages, meets_osCall]
    dsimp only
    refine meets_ensure (fun hmap => ?_) fun hmap =>
      hE _ _ rfl (fun _ _ => Machine.failures_lt_mapCall hmap hfail.ge) fun _ => by simp
    rw [meets_modifyCtx, Machine.mapCall_eq hmap]
    dsimp only
    rw [hu]
    have hin := Machine.mapReply_inRegion hmap hne
    refine hR _ new ?_ hlen (fun _ => hin) (by omega)
    exact {
      nodup := hnd
      fresh := hfresh
      allocated := rfl
      vars := rfl
      regions := rfl
      frameData := hd
      pageTable := fun p => by rw [hlen]; rfl
      failures := by
        rw [← hfail]
        simp [Machine.failures, OsCall.success]
      legal := fun call hcall => by
        rcases List.mem_cons.mp hcall with rfl | hcall
        · exact Or.inr trivial
        · exact hlegal call hcall }
  · have hreq : req = 0 := not_not.mp hz
    rw [meets_modifyCtx]
    dsimp only
    rw [hu]
    refine hR _ new ?_ hlen (fun hne => absurd hreq hne) (by omega)
    exact {
      nodup := hnd
      fresh := hfresh
      allocated := rfl
      vars := rfl
      regions := rfl
      frameData := hd
      pageTable := fun p => by rw [if_neg (by omega)]
      failures := hfail
      legal := hlegal }

/-- A grown frame table in which the new frames find room has not wrapped. -/
theorem room_eq_max {N req n : ℕ} (hn : n < 2 * u64 (N + req))
    (hfit : N + req ≤ u64 (n * sizeofFrame) / sizeofFrame) : u64 (n * sizeofFrame) / sizeofFrame = n := by
  unfold u64 sizeofFrame at *
  omega

theorem meets_allocPages (hst : s.ctx.pfns_storage_ = some st) (hlen : st.length = s.ctx.pfns_max_)
    (hw : 8 * st.length < 2 ^ 64) (hnum : s.ctx.pfns_num_ ≤ st.length)
    (hR : ∀ m' st' new, s.mach.Extended m' (a / os.page_size) new → new.length = req →
      (req ≠ 0 → s.mach.inRegion os a req = true) → s.ctx.pfns_num_ + req ≤ st'.length →
      8 * st'.length < 2 ^ 64 →
      st'.take (s.ctx.pfns_num_ + req) = st.take s.ctx.pfns_num_ ++ new →
      R () ⟨m', { s.ctx with
        pfns_storage_ := some st'
        pfns_max_ := st'.length
        pfns_num_ := s.ctx.pfns_num_ + req }⟩)
    (hE : ∀ e t, t.ctx.containers_num_ = s.ctx.containers_num_ →
      (∀ message, e = .thrown message → s.mach.failures < t.mach.failures) →
      (16 * (s.ctx.pfns_num_ + req) < 2 ^ 64 → e ≠ .bounds) → E e t) :
    Meets (allocPages os a req) s R E := by
  have hnew : ∀ (l new : List Frame), new.length = req → s.ctx.pfns_num_ + req ≤ l.length →
      (overwrite l s.ctx.pfns_num_ new).length = l.length ∧
      (overwrite l s.ctx.pfns_num_ new).take (s.ctx.pfns_num_ + req) =
        l.take s.ctx.pfns_num_ ++ new := by
    intro l new hn hl
    exact ⟨length_overwrite (by omega), take_overwrite (by omega) (by omega)⟩
  rw [allocPages_eq, meets_bind]
  refine meets_AssertPfnsStorage_words hst (fun hle => ?_) (fun _ _ => ?_) (fun n hlt hn hr => ?_)
    fun n _ hr => ?_
  · refine meets_takePages hst hw (fun _ => hnum) (fun m' new hx hn hin hfit => ?_)
      fun e t h₁ h₂ h₃ => hE e t h₁ h₂ fun hov => h₃ ?_
    swap
    · rw [u64_of_lt (by omega)] at hle
      omega
    obtain ⟨h₁, h₂⟩ := hnew st new hn hfit
    have := hR m' _ new hx hn hin (by rw [h₁]; exact hfit) (by rw [h₁]; exact hw) h₂
    rw [h₁, hlen] at this
    exact this
  · exact hE _ _ rfl (fun _ h => by cases h) fun _ => by decide
  · obtain ⟨hge, hn₂⟩ := doubledMax_bounds hn hlt
    generalize hlen₁ : u64 (n * sizeofFrame) / sizeofFrame = len₁
    have hw₁ : 8 * len₁ < 2 ^ 64 := by
      have := u64_lt (n * sizeofFrame)
      rw [← hlen₁, sizeofFrame] at *
      omega
    have hq : s.mach.Quiet (s.mach.heapCall os (u64 (n * sizeofFrame))).2 := .heapCall hr
    have hfail : (s.mach.heapCall os (u64 (n * sizeofFrame))).2.failures = s.mach.failures :=
      hq.failures
    have hz : req = 0 → s.ctx.pfns_num_ ≤ (resize os st len₁).length := by
      rintro rfl
      rw [add_zero, u64_of_lt (by omega)] at hlt
      omega
    refine meets_takePages (s := ⟨(s.mach.heapCall os (u64 (n * sizeofFrame))).2, { s.ctx with
      pfns_storage_ := some (resize os st len₁), pfns_max_ := n }⟩) rfl
      (by rw [length_resize]; exact hw₁) hz (fun m' new hx hn hin hfit => ?_) fun e t h₁ h₂ h₃ => ?_
    · dsimp only at hfit hx ⊢
      obtain ⟨h₁, h₂⟩ := hnew _ new hn hfit
      rw [length_resize] at hfit h₁
      have hmax : len₁ = n := by
        rw [← hlen₁]
        exact room_eq_max hn₂ (hlen₁ ▸ hfit)
      rw [take_resize os hnum (by omega)] at h₂
      have := hR m' _ new (hq.extended hx) hn hin (by rw [h₁]; exact hfit) (by rw [h₁]; exact hw₁) h₂
      rw [h₁, hmax] at this
      rw [hmax]
      exact this
    · refine hE e t h₁ (fun message he => ?_) fun hov => h₃ ?_
      · rw [← hfail]
        exact h₂ message he
      · rw [length_resize, ← hlen₁]
        rw [u64_of_lt (by omega)] at hge hn₂
        rw [u64_of_lt (by rw [sizeofFrame]; omega), Nat.mul_div_cancel _ (by decide)]
        exact hge
  · refine hE _ _ rfl (fun _ _ => ?_) fun _ => by simp
    dsimp only
    rw [Machine.failures_heapCall, hr]
    exact Nat.lt_succ_self _

end Pages

/-- All reservations end in the user address space. -/
def Machine.Reserved (os : OS) (m : Machine) : Prop :=
  ∀ r ∈ m.regions, r.base + r.size ≤ os.addressLimit

theorem Machine.Reserved.le {os : OS} {m : Machine} (h : m.Reserved os) {a n : ℕ}
    (hin : m.inRegion os a n = true) : a + n * os.page_size ≤ 2 ^ 47 := by
  rw [Machine.inRegion, List.any_eq_true] at hin
  obtain ⟨r, hr, hd⟩ := hin
  have := h r hr
  have := os.addressLimit_le
  have := of_decide_eq_true hd
  omega

/-- A page count whose pages lie in the user address space was computed exactly. -/
theorem intCast_ceilPages {os : OS} {n : ℕ}
    (h : intCast (ceilPages os n) * os.page_size ≤ 2 ^ 47) :
    intCast (ceilPages os n) = n ⌈/⌉ os.page_size := by
  have hP := os.page_size_pos
  rcases Nat.lt_or_ge (ceilPages os n) (2 ^ 31) with hlt | hge
  · have he : intCast (ceilPages os n) = ceilPages os n := if_pos hlt
    rw [he] at h ⊢
    exact ceilPages_exact os (by omega)
  · have he : intCast (ceilPages os n) = 2 ^ 64 - 2 ^ 31 := if_neg (not_lt.mpr hge)
    rw [he] at h
    have := Nat.mul_le_mul_left (2 ^ 64 - 2 ^ 31) hP
    omega

/-- What `ContainerAlloc` leaves when the new container starts at `a`. -/
structure Appended (os : OS) (s t : State) (a : ℕ) (user : PtrLoc) (sizeofT n : ℕ)
    (cs : List ContainerContext) (st : List Frame) (st' new : List Frame) : Prop where
  core : Core t.ctx (cs ++ [⟨user, sizeofT, n⟩]) st'
  pfns_num : t.ctx.pfns_num_ = s.ctx.pfns_num_ + new.length
  size : t.ctx.hypercontainer_size_ = s.ctx.hypercontainer_size_
  frames : st'.take t.ctx.pfns_num_ = st.take s.ctx.pfns_num_ ++ new
  pages : new.length = span os.page_size a (u64 (sizeofT * n))
  mach : ∃ m m₁, s.mach.Quiet m ∧ m.assign os user a = some m₁ ∧
    m₁.Extended t.mach (a ⌈/⌉ os.page_size) new
  region : new ≠ [] → s.mach.inRegion os (a ⌈/⌉ os.page_size * os.page_size) new.length = true

section Alloc

variable {os : OS} {s : State} {base a : ℕ} {user : PtrLoc} {sizeofT n : ℕ}
  {cs : List ContainerContext} {st : List Frame}

theorem Machine.Extended.refl (m : Machine) (first : ℕ) : m.Extended m first [] where
  nodup := List.nodup_nil
  fresh _ h := absurd h List.not_mem_nil
  allocated := rfl
  vars := rfl
  regions := rfl
  frameData _ _ := rfl
  pageTable _ := by rw [if_neg (by simp)]
  failures := rfl
  legal _ h := Or.inl h

theorem assign_fields {m m₁ : Machine} {l : PtrLoc} {v : ℕ} (h : m.assign os l v = some m₁) :
    m₁.pageTable = m.pageTable ∧ m₁.regions = m.regions ∧ m₁.allocated = m.allocated ∧
      m₁.calls = m.calls := by
  cases l with
  | var x =>
    obtain rfl := Option.some.inj h
    exact ⟨rfl, rfl, rfl, rfl⟩
  | mem b =>
    rw [Machine.assign, Machine.store] at h
    split at h
    · obtain rfl := Option.some.inj h
      exact ⟨rfl, rfl, rfl, rfl⟩
    · cases h

/-- A new container at the address where the last one ends. -/
theorem meets_ContainerAlloc (hc : Core s.ctx cs st) (hreg : s.mach.Reserved os)
    (hslot : ∀ Q E, Q (a ⌈/⌉ os.page_size * os.page_size, a, gap os.page_size a) s →
      Meets (nextSlot os base) s Q E) {R : Unit → State → Prop} {E : Fault → State → Prop}
    (hR : ∀ t st' new, Appended os s t a user sizeofT n cs st st' new → R () t)
    (hE : ∀ e t, (∀ message, e = .thrown message → s.mach.failures < t.mach.failures ∧
      (t.ctx.containercontext_storage_ = none ∨
        t.ctx.containers_num_ = s.ctx.containers_num_ + 1)) →
      (cs.length < 2 ^ 59 → 16 * (s.ctx.pfns_num_ + intCast (ceilPages os
        (u64 (sizeofT * n) - gap os.page_size a))) < 2 ^ 64 → e ≠ .bounds) → E e t) :
    Meets (ContainerAlloc os base user sizeofT n) s R E := by
  have hP := os.page_size_pos
  rw [ContainerAlloc, meets_bind]
  refine hslot _ _ ?_
  dsimp only
  rw [meets_bind]
  refine meets_insert hc.cells hc.containers_num hc.containers_le hc.containers_words
    (fun m' N hq hN hw => ?_) fun e t ht hb => hE e t (fun message he =>
      ⟨(ht message he).2, Or.inl (ht message he).1⟩) fun hlen _ => hb hlen
  rw [meets_bind]
  cases hm : m'.assign os user a with
  | none =>
    refine (meets_storePtr_none hm).mpr (hE _ _ (fun _ h => ?_) fun _ _ => by decide)
    cases h
  | some m₁ =>
    refine (meets_storePtr hm).mpr ?_
    obtain ⟨-, hregions, -, hcalls⟩ := assign_fields hm
    have hin : ∀ x y, m₁.inRegion os x y = s.mach.inRegion os x y := by
      intro x y
      rw [Machine.inRegion, Machine.inRegion, hregions, hq.eq]
    have hfail : m₁.failures = s.mach.failures := by
      rw [Machine.failures, hcalls]
      exact hq.failures
    have hnum : (cs ++ [(⟨user, sizeofT, n⟩ : ContainerContext)]).length = cs.length + 1 := by
      rw [List.length_append, List.length_singleton]
    refine meets_ite (fun hle => ?_) fun hgt => ?_
    · refine (meets_pure _).mpr (hR _ st [] ?_)
      exact {
        core := {
          cells := rfl
          containers_num := hnum.symm
          containers_le := by rw [hnum]; exact hN
          containers_words := hw
          table := hc.table
          max := hc.max
          words := hc.words
          num := hc.num }
        pfns_num := rfl
        size := rfl
        frames := (List.append_nil _).symm
        pages := (span_of_le_gap hP hle).symm
        mach := ⟨m', m₁, hq, hm, .refl _ _⟩
        region := fun h => absurd rfl h }
    · have hlt : gap os.page_size a < u64 (sizeofT * n) := not_le.mp hgt
      have hsub : sub64 (u64 (sizeofT * n)) (gap os.page_size a) =
          u64 (sizeofT * n) - gap os.page_size a := sub64_of_le hlt.le (u64_lt _)
      rw [hsub]
      generalize hx : u64 (sizeofT * n) - gap os.page_size a = x
      refine meets_allocPages (s := ⟨m₁, _⟩) hc.table hc.max hc.words hc.num
        (fun m₂ st' new hext hlen hreq hroom hw' htake => ?_) fun e t h₁ h₂ h₃ => ?_
      · dsimp only at hext hlen hreq hroom htake ⊢
        have hpos : intCast (ceilPages os x) ≠ 0 := by
          have := ceilPages_pos os (show 0 < x by omega)
          unfold intCast
          split <;> omega
        have hmapped := hreq hpos
        rw [hin] at hmapped
        have hexact : intCast (ceilPages os x) = x ⌈/⌉ os.page_size :=
          intCast_ceilPages ((Nat.le_add_left _ _).trans (hreg.le hmapped))
        rw [Nat.mul_div_cancel _ hP] at hext
        refine hR _ st' new ?_
        exact {
          core := {
            cells := rfl
            containers_num := hnum.symm
            containers_le := by rw [hnum]; exact hN
            containers_words := hw
            table := rfl
            max := rfl
            words := hw'
            num := by dsimp only; exact hroom }
          pfns_num := by dsimp only; rw [hlen]
          size := rfl
          frames := htake
          pages := by rw [hlen, hexact, span_of_gap_le hP hlt.le, hx]
          mach := ⟨m', m₁, hq, hm, hext⟩
          region := fun _ => by rw [hlen]; exact hmapped }
      · refine hE e t (fun message he => ⟨?_, Or.inr ?_⟩) fun _ hov => h₃ (hx ▸ hov)
        · rw [← hfail]
          exact h₂ message he
        · rw [h₁, hc.containers_num]

theorem meets_nextSlot_first (hn : s.ctx.containers_num_ = 0) {Q : ℕ × ℕ × ℕ → State → Prop}
    {E : Fault → State → Prop} (hQ : Q (base, base, 0) s) : Meets (nextSlot os base) s Q E := by
  rw [nextSlot, meets_bind, meets_getCtx, if_pos hn]
  exact (meets_pure _).mpr hQ

theorem meets_nextSlot_last {k : ℕ} {c : ContainerContext} {l : Container}
    (hn : s.ctx.containers_num_ = k + 1) (hc : s.ctx.containers[k]? = some c)
    (hl : c.resolve os s.mach = some l) {Q : ℕ × ℕ × ℕ → State → Prop}
    {E : Fault → State → Prop}
    (hQ : Q (l.nextMappingAddress os, l.nextAddress, l.guestBytes os) s) :
    Meets (nextSlot os base) s Q E := by
  rw [nextSlot, meets_bind, meets_getCtx, hn, if_neg (Nat.succ_ne_zero k), Nat.add_sub_cancel,
    meets_bind, meets_containerAt hc hl]
  exact (meets_pure _).mpr hQ

end Alloc

end VcmallocBench
