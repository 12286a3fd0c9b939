import VcmallocBench.Library.Cuts
import VcmallocBench.HyperContainer.Effects
import VcmallocBench.HyperContainer.Steps

/-! # Steps of a batch

Both loops of `ContainerRealloc2` keep containers in the same way, and both end by
committing a new frame table. What these steps leave, for a table of containers
whose variables lie outside memory, however the memory is mapped.
-/

namespace VcmallocBench

open Paging

/-- The container tables hold the containers `L`, whose variables are those in `refs` and lie outside
memory, and the frame table is `st`. -/
structure Tabled (os : OS) (refs : List PtrLoc) (st : List Frame) (L : List Container) (s : State) :
    Prop where
  cells : ∃ cs, Core s.ctx cs st ∧ Views os s.mach 0 0 cs L ∧ cs.map (·.reference_) = refs

section Tabled

variable {os : OS} {s t : State} {refs : List PtrLoc} {st : List Frame} {L : List Container}
  {k : ℕ} {l : Container} {E : Fault → State → Prop}

theorem Tabled.num_eq (h : Tabled os refs st L s) : s.ctx.containers_num_ = L.length := by
  obtain ⟨cs, hc, hv, -⟩ := h.cells
  rw [hc.containers_num, hv.length_eq]

theorem Tabled.table (h : Tabled os refs st L s) : s.ctx.pfns_storage_ = some st := by
  obtain ⟨cs, hc, -, -⟩ := h.cells
  exact hc.table

theorem Tabled.max (h : Tabled os refs st L s) : s.ctx.pfns_max_ = st.length := by
  obtain ⟨cs, hc, -, -⟩ := h.cells
  exact hc.max.symm

theorem Tabled.reads (h : Tabled os refs st L s) : s.Reads os L := by
  obtain ⟨cs, hc, hv, -⟩ := h.cells
  have hv' : Views os s.mach 0 0 s.ctx.containers L := by
    rw [hc.containers_eq]
    exact hv
  exact hv'.reads

theorem Tabled.container? (h : Tabled os refs st L s) (j : ℕ) : s.container? os j = L[j]? :=
  h.reads.container?_eq j

theorem Tabled.meets_containerAt (h : Tabled os refs st L s) (hl : L[k]? = some l)
    {Q : Container → State → Prop} : Meets (containerAt os k) s Q E ↔ Q l s := by
  obtain ⟨c, hc, hres⟩ := h.reads.get hl
  exact VcmallocBench.meets_containerAt hc hres

theorem Tabled.congr {st' : List Frame} (h : Tabled os refs st L s) (hv : t.mach.vars = s.mach.vars)
    (hc : ∀ cs, Core s.ctx cs st → Core t.ctx cs st') : Tabled os refs st' L t := by
  obtain ⟨cs, hcore, hviews, hrefs⟩ := h.cells
  refine ⟨cs, hc cs hcore, hviews.congr (fun _ _ x _ => by rw [hv]) fun a h₁ h₂ => ?_, hrefs⟩
  exact absurd h₂ (Nat.not_lt_zero a)

structure Machine.Reassigned (m m' : Machine) (refs : List PtrLoc) : Prop where
  vars : ∀ x, .var x ∉ refs → m'.vars x = m.vars x
  eq : m' = { m with vars := m'.vars }

theorem meets_moveReference_var (hv : ∀ c ∈ s.ctx.containers, ∃ x, c.reference_ = .var x)
    (k delta : ℕ) : Meets (moveReference os k delta) s
      (fun _ t => t.ctx = s.ctx ∧ t.mach = { s.mach with vars := t.mach.vars }) fun _ _ => True := by
  rw [moveReference, meets_bind]
  refine meets_fetch_cases (fun c hc => ?_) trivial
  obtain ⟨x, hx⟩ := hv c (List.mem_of_getElem? hc)
  rw [hx, meets_bind]
  refine (meets_loadPtr (Machine.load_var x)).mpr ?_
  rw [storePtr, meets_onMachine (Machine.assign_var x _)]
  exact ⟨rfl, rfl⟩

theorem meets_shiftReferences_var (hv : ∀ c ∈ s.ctx.containers, ∃ x, c.reference_ = .var x)
    (start delta : ℕ) : Meets (shiftReferences os start delta) s
      (fun _ t => t.ctx = s.ctx ∧ t.mach = { s.mach with vars := t.mach.vars }) fun _ _ => True := by
  rw [shiftReferences, meets_bind, meets_getCtx]
  refine meets_forM_range (I := fun _ t => t.ctx = s.ctx ∧ t.mach = { s.mach with
    vars := t.mach.vars }) _ start s ⟨rfl, rfl⟩ fun j t _ _ hI => ?_
  obtain ⟨hctx, hmach⟩ := hI
  refine (meets_moveReference_var (hctx ▸ hv) j delta).imp fun _ u hu => ⟨hu.1.trans hctx, ?_⟩
  rw [hu.2, hmach]

theorem Machine.held_empty (os : OS) (m : Machine) : m.Held os 0 0 :=
  ⟨fun a _ h => absurd h (Nat.not_lt_zero a), fun a _ _ h => absurd h (Nat.not_lt_zero a)⟩

theorem Tabled.meets_moveReference (h : Tabled os refs st L s) (hl : L[k]? = some l) (delta : ℕ) :
    Meets (moveReference os k delta) s (fun _ t => t.ctx = s.ctx ∧
      s.mach.Reassigned t.mach refs ∧ Tabled os refs st (L.set k (l.moved delta)) t) E := by
  obtain ⟨cs, hc, hv, hrefs⟩ := h.cells
  have hv' : Views os s.mach 0 0 s.ctx.containers L := by rw [hc.containers_eq]; exact hv
  refine ((hv'.meets_moveReference hl le_rfl (Machine.held_empty _ _)).and
    (meets_moveReference_var (fun c hc => hv'.var hc) k delta)).mono (fun _ t ht => ?_)
    fun _ _ he => he.1
  obtain ⟨⟨hctx, hrw, hviews⟩, -, hmach⟩ := ht
  rw [hc.containers_eq] at hrw hviews
  exact ⟨hctx, ⟨hrefs ▸ hrw.vars, hmach⟩, cs, hctx ▸ hc, hviews, hrefs⟩

theorem Tabled.meets_shiftReferences (h : Tabled os refs st L s) {start : ℕ}
    (hs : start ≤ L.length) (delta : ℕ) :
    Meets (shiftReferences os start delta) s (fun _ t => t.ctx = s.ctx ∧
      s.mach.Reassigned t.mach refs ∧ Tabled os refs st (moveFrom start delta L) t) E := by
  have hnum := h.num_eq
  obtain ⟨cs, hc, hv, hrefs⟩ := h.cells
  have hv' : Views os s.mach 0 0 s.ctx.containers L := by rw [hc.containers_eq]; exact hv
  refine ((hv'.meets_shiftReferences hnum hs le_rfl (Machine.held_empty _ _)).and
    (meets_shiftReferences_var (fun c hc => hv'.var hc) start delta)).mono (fun _ t ht => ?_)
    fun _ _ he => he.1
  obtain ⟨⟨hctx, hrw, hviews⟩, -, hmach⟩ := ht
  rw [hc.containers_eq] at hrw hviews
  exact ⟨hctx, ⟨hrefs ▸ hrw.vars, hmach⟩, cs, hctx ▸ hc, hviews, hrefs⟩

theorem Tabled.meets_setElements (h : Tabled os refs st L s) (hl : L[k]? = some l) {n : ℕ}
    {R : Unit → State → Prop}
    (hR : ∀ t, t.mach = s.mach → t.ctx.pfns_num_ = s.ctx.pfns_num_ →
      t.ctx.hypercontainer_size_ = s.ctx.hypercontainer_size_ →
      Tabled os refs st (L.set k { l with elements_num_ := n }) t → R () t) :
    Meets (setElements k n) s R E := by
  obtain ⟨cs, hc, hv, hrefs⟩ := h.cells
  obtain ⟨c, hcs, -⟩ := hv.get hl
  refine (VcmallocBench.meets_setElements hc.cells hc.containers_le hcs).mpr (hR _ rfl rfl rfl ?_)
  refine ⟨_, ⟨rfl, ?_, ?_, hc.containers_words, hc.table, hc.max, hc.words, hc.num⟩,
    hv.set_elements hcs hl, ?_⟩
  · rw [List.length_set]
    exact hc.containers_num
  · rw [List.length_set]
    exact hc.containers_le
  · rw [List.map_set, ← hrefs]
    refine List.ext_getElem? fun j => ?_
    rw [List.getElem?_set, List.getElem?_map]
    split
    · rename_i hj
      subst hj
      rw [List.length_map, if_pos (List.getElem?_eq_some_iff.mp hcs).1, hcs, Option.map_some]
    · rfl

end Tabled

def backWord (os : OS) (n : ℕ) : ℕ := sub64 0 (u64 (n * os.page_size))

/-- Variables other than those in `refs`, and pages other than those in `away`, are as before, and no
call has failed. -/
structure Machine.Undisturbed (m m' : Machine) (refs : List PtrLoc) (away : Set ℕ) : Prop where
  vars : ∀ x, .var x ∉ refs → m'.vars x = m.vars x
  pageTable : ∀ p ∉ away, m'.pageTable p = m.pageTable p
  regions : m'.regions = m.regions
  allocated : m'.allocated = m.allocated
  failures : m'.failures = m.failures
  legal : ∀ c ∈ m'.calls, c ∈ m.calls ∨ c.Legal

namespace Machine.Undisturbed

variable {os : OS} {m m' m'' : Machine} {refs : List PtrLoc} {away : Set ℕ}

theorem refl (m : Machine) (refs : List PtrLoc) (away : Set ℕ) : m.Undisturbed m refs away :=
  ⟨fun _ _ => rfl, fun _ _ => rfl, rfl, rfl, rfl, fun _ => Or.inl⟩

theorem trans (h : m.Undisturbed m' refs away) (h' : m'.Undisturbed m'' refs away) :
    m.Undisturbed m'' refs away where
  vars x hx := (h'.vars x hx).trans (h.vars x hx)
  pageTable p hp := (h'.pageTable p hp).trans (h.pageTable p hp)
  regions := h'.regions.trans h.regions
  allocated := h'.allocated.trans h.allocated
  failures := h'.failures.trans h.failures
  legal c hc := (h'.legal c hc).elim (h.legal c) Or.inr

theorem of_reassigned (h : m.Reassigned m' refs) : m.Undisturbed m' refs away where
  vars := h.vars
  pageTable p _ := by rw [h.eq]
  regions := by rw [h.eq]
  allocated := by rw [h.eq]
  failures := by
    rw [h.eq]
    rfl
  legal c hc := by
    rw [h.eq] at hc
    exact Or.inl hc

theorem frameData (m : Machine) (d : Frame → ℕ → Byte) :
    m.Undisturbed { m with frameData := d } refs away :=
  ⟨fun _ _ => rfl, fun _ _ => rfl, rfl, rfl, rfl, fun _ => Or.inl⟩

theorem quiet (h : m.Undisturbed m' refs away) (hq : m'.Quiet m'') :
    m.Undisturbed { m'' with pageTable := m.pageTable } refs away where
  vars x hx := by
    rw [hq.eq]
    exact h.vars x hx
  pageTable _ _ := rfl
  regions := by
    rw [hq.eq]
    exact h.regions
  allocated := by
    rw [hq.eq]
    exact h.allocated
  failures := hq.failures.trans h.failures
  legal c hc := (hq.legal c hc).elim (h.legal c) Or.inr

end Machine.Undisturbed

theorem Machine.Quiet.trans {m m' m'' : Machine} (h : m.Quiet m') (h' : m'.Quiet m'') :
    m.Quiet m'' where
  eq := by rw [h'.eq, h.eq]
  failures := h'.failures.trans h.failures
  legal c hc := (h'.legal c hc).elim (h.legal c) Or.inr

theorem Machine.Quiet.heapFree {m m' : Machine} (hq : m.Quiet m') :
    m.Quiet { m' with calls := .heapFree true :: m'.calls } where
  eq := by rw [hq.eq]
  failures := by
    rw [Machine.failures_cons, hq.failures]
    rfl
  legal call hcall := by
    rcases List.mem_cons.mp hcall with rfl | hcall
    · exact Or.inr trivial
    · exact hq.legal call hcall

theorem Machine.heapFreeCall_eq {os : OS} {m : Machine} (h : (m.heapFreeCall os).1 = true) :
    (m.heapFreeCall os).2 = { m with calls := .heapFree true :: m.calls } := by
  have hr : m.reply os = true := h
  rw [Machine.heapFreeCall, hr]

theorem Machine.failures_lt_heapFree {os : OS} {m : Machine} {F : ℕ}
    (h : (m.heapFreeCall os).1 = false) (hF : F ≤ m.failures) :
    F < (m.heapFreeCall os).2.failures := by
  have hr : m.reply os = false := h
  rw [Machine.failures_heapFreeCall, hr]
  exact Nat.lt_succ_of_le hF

section Steps

variable {os : OS} {s : State} {refs : List PtrLoc} {st : List Frame} {L : List Container}
  {l : Container} {v : Pass} {n F : ℕ} {G : Prop}

theorem Tabled.words (h : Tabled os refs st L s) : 8 * st.length < 2 ^ 64 := by
  obtain ⟨cs, hc, -, -⟩ := h.cells
  exact hc.words

/-- What both loops do to a container that keeps its pages. -/
theorem Tabled.meets_keepPages {E : Fault → State → Prop} (h : Tabled os refs st L s)
    (hl : L[v.itStruct]? = some l) (hs : v.PFNsIdx + n ≤ st.length)
    (hd : v.tempPFNsIdx + n ≤ v.tempPFNs.length) (hw : v.tempPFNs.length < 2 ^ 64) :
    Meets (keepPages os v n) s (fun v' t => (∃ temp, temp.length = v.tempPFNs.length ∧
      temp.take (v.tempPFNsIdx + n) = v.tempPFNs.take v.tempPFNsIdx ++ slice st v.PFNsIdx n ∧
      v' = { v with
        tempPFNs := temp
        PFNsIdx := v.PFNsIdx + n
        tempPFNsIdx := v.tempPFNsIdx + n
        itStruct := v.itStruct + 1 }) ∧
      t.ctx = s.ctx ∧ s.mach.Reassigned t.mach refs ∧
      Tabled os refs st (L.set v.itStruct (l.moved (backWord os v.steps))) t) E := by
  have hst := h.words
  obtain ⟨temp, htemp, hlen, htake⟩ := blit_behind hs hd
  rw [keepPages, meets_bind]
  refine (meets_fetch (a := temp) ?_).mpr ?_
  · rw [frames_of_storage h.table]
    exact htemp
  rw [meets_bind]
  refine (h.meets_moveReference hl _).imp fun _ t ht => ?_
  obtain ⟨hctx, hrw, htab⟩ := ht
  refine (meets_pure _).mpr ⟨⟨temp, hlen, htake, ?_⟩, hctx, hrw, htab⟩
  rw [u64_of_lt (by omega), u64_of_lt (by omega)]

/-- The frames `fs` are committed to the frame table from position `S` on, and mapped in place of the
pages up to `N`. -/
structure Committed (os : OS) (refs : List PtrLoc) (s t : State) (S N : ℕ) (l : Container)
    (st fs : List Frame) (L : List Container) : Prop where
  tabled : Tabled os refs (overwrite st S fs) L t
  pfns_num : t.ctx.pfns_num_ = s.ctx.pfns_num_
  size : t.ctx.hypercontainer_size_ = s.ctx.hypercontainer_size_
  mach : ∃ m, s.mach.Quiet m ∧ t.mach = { m with
    pageTable := remapPages s.mach.pageTable (l.mappingAddress os / os.page_size) (N - S) fs }
  region : fs ≠ [] → s.mach.inRegion os (l.mappingAddress os) fs.length = true

theorem Tabled.storage {st' : List Frame} (h : Tabled os refs st L s) (hlen : st'.length = st.length) :
    Tabled os refs st' L { s with ctx := { s.ctx with pfns_storage_ := some st' } } :=
  h.congr rfl fun _ hc => ⟨hc.cells, hc.containers_num, hc.containers_le, hc.containers_words, rfl,
    hlen.trans hc.max, by rw [hlen]; exact hc.words, by rw [hlen]; exact hc.num⟩

theorem Tabled.machine {m : Machine} (h : Tabled os refs st L s) (hv : m.vars = s.mach.vars) :
    Tabled os refs st L { s with mach := m } := h.congr hv fun _ hc => hc

theorem remapPages_nil (pt : ℕ → Option Frame) (first behind : ℕ) :
    remapPages pt first behind [] = unmapPages pt first behind := by
  funext p
  exact if_neg (by simp)

/-- The end of both passes. -/
theorem Tabled.meets_commitPages {start S N post : ℕ} {unmapMessage mapMessage : String}
    (h : Tabled os refs st L s) (hl : L[start]? = some l) (hq : v.PFNsIdx + post ≤ st.length)
    (hd : v.tempPFNsIdx + post ≤ v.tempPFNs.length)
    (hS : S + (v.tempPFNsIdx + post) ≤ st.length) (hN : S ≤ N) (hw : N < 2 ^ 64)
    (hF : F ≤ s.mach.failures) :
    Meets (commitPages os start S N post v unmapMessage mapMessage) s (fun v' t =>
      (∃ temp, v' = { v with tempPFNs := temp }) ∧
      Committed os refs s t S N l st
        (v.tempPFNs.take v.tempPFNsIdx ++ slice st v.PFNsIdx post) L) (Blames G F) := by
  have hst := h.words
  have hsum : u64 (v.tempPFNsIdx + post) = v.tempPFNsIdx + post := u64_of_lt (by omega)
  have hbehind : sub64 N S = N - S := sub64_of_le hN (by omega)
  obtain ⟨temp, htemp, hlen, htake⟩ := blit_behind hq hd
  set fs := v.tempPFNs.take v.tempPFNsIdx ++ slice st v.PFNsIdx post with hfs
  have hfslen : fs.length = v.tempPFNsIdx + post := by
    rw [hfs, List.length_append, length_slice hq, List.length_take]
    omega
  have hblock : blit temp 0 st S (v.tempPFNsIdx + post) = some (overwrite st S fs) := by
    rw [blit_eq (by omega) hS, slice, List.drop_zero, htake]
  have hfit : S + fs.length ≤ st.length := by omega
  have hlen' : (overwrite st S fs).length = st.length := length_overwrite hfit
  have hframes : s.ctx.frames = st := frames_of_storage h.table
  have h₁ := h.storage hlen'
  rw [commitPages, hsum, hbehind]
  rw [meets_bind]
  refine (meets_fetch (a := temp) (by rw [hframes]; exact htemp)).mpr ?_
  rw [meets_bind]
  refine (meets_fetch (a := overwrite st S fs) (by rw [hframes]; exact hblock)).mpr ?_
  rw [meets_bind, meets_modifyCtx, h.table, Option.map_some, meets_bind]
  -- the pages from the first listed container on are unmapped, if there are any
  let P : Unit → State → Prop := fun _ t => ∃ m, s.mach.Quiet m ∧
    t = ⟨{ m with
      pageTable := unmapPages s.mach.pageTable (l.mappingAddress os / os.page_size) (N - S) },
      { s.ctx with pfns_storage_ := some (overwrite st S fs) }⟩
  refine Meets.imp (Q := P) (meets_onlyIf (fun _ => ?_) fun hz => ?_) ?_
  · rw [meets_bind, h₁.meets_containerAt hl, meets_bind, MapUserPhysicalPages, meets_osCall]
    refine meets_ensure (fun hok => ?_) fun hno => Or.inl (Machine.failures_lt_mapCall hno hF)
    rw [Machine.mapCall_eq hok]
    exact ⟨_, (Machine.Quiet.refl s.mach).mapCall (l.mappingAddress os) (N - S), rfl⟩
  · refine ⟨s.mach, .refl _, ?_⟩
    have he : unmapPages s.mach.pageTable (l.mappingAddress os / os.page_size) (N - S) =
        s.mach.pageTable := by
      funext p
      exact if_neg (by omega)
    rw [he]
  rintro _ t ⟨m, hm, rfl⟩
  have hvars : m.vars = s.mach.vars := by rw [hm.eq]
  have hregions : m.regions = s.mach.regions := by rw [hm.eq]
  have h₂ := h₁.machine (m := { m with
    pageTable := unmapPages s.mach.pageTable (l.mappingAddress os / os.page_size) (N - S) }) hvars
  -- and the committed frames are mapped there, if there are any
  let R : Unit → State → Prop := fun _ t => Committed os refs s t S N l st fs L
  rw [meets_bind]
  refine Meets.imp (Q := R) (meets_onlyIf (fun _ => ?_) fun hz => ?_) fun _ t ht =>
    (meets_pure _).mpr ⟨⟨temp, rfl⟩, ht⟩
  · rw [meets_bind, h₂.meets_containerAt hl, meets_bind,
      meets_readPFNs (by rw [frames_of_storage rfl]; omega), frames_of_storage rfl,
      slice_overwrite hfit hfslen, meets_bind, MapUserPhysicalPages, meets_osCall]
    refine meets_ensure (fun hok => ?_) fun hno =>
      Or.inl (Machine.failures_lt_mapCall hno (hF.trans hm.failures.ge))
    rw [Machine.mapCall_eq hok]
    exact {
      tabled := h₁.machine hvars
      pfns_num := rfl
      size := rfl
      mach := ⟨_, hm.mapCall (l.mappingAddress os) (v.tempPFNsIdx + post), by
        rw [remapPages_eq hfslen]⟩
      region := fun hne => by
        have hin := Machine.mapReply_inRegion hok fun h₀ => hne (List.length_eq_zero_iff.mp (by omega))
        rw [hfslen, Machine.inRegion, ← hregions]
        exact hin }
  · have hnil : fs = [] := List.length_eq_zero_iff.mp (by omega)
    exact {
      tabled := h₂
      pfns_num := rfl
      size := rfl
      mach := ⟨m, hm, by rw [hnil, remapPages_nil]⟩
      region := fun hne => absurd hnil hne }

end Steps

end VcmallocBench
