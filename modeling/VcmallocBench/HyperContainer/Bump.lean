import VcmallocBench.HyperContainer.Calls

/-! # Runs of allocations

Successive calls of `ContainerAlloc` on a new hypercontainer, with any pointer
variables. The next address is read back through the last entry of the table
only, so that earlier entries may be stale.
-/

namespace VcmallocBench

open Paging

def ContainerContext.bytes (c : ContainerContext) : ℕ := c.type_size_ * c.elements_num_

def requested (cs : List ContainerContext) : ℕ := (cs.map (·.bytes)).sum

/-- The states after the calls with the given requests have returned. A request is the entry that it
makes. -/
inductive AllocRun (os : OS) (base : ℕ) (s₀ : State) : List ContainerContext → State → Prop
  | fresh : AllocRun os base s₀ [] s₀
  | alloc {cs : List ContainerContext} {c : ContainerContext} {s s' t : State}
      (run : AllocRun os base s₀ cs s) (between : Between os s s' cs.getLast?.toList)
      (call : ContainerAlloc os base c.reference_ c.type_size_ c.elements_num_ s' = .ok () t) :
      AllocRun os base s₀ (cs ++ [c]) t

/-- The table holds the requests, the pages are those that their bytes begin, and the last variable
holds the last address. -/
structure Bumped (os : OS) (s : State) (h R : ℕ) (cs : List ContainerContext) (st : List Frame) :
    Prop where
  core : Core s.ctx cs st
  backed : Backed os s.mach h (st.take s.ctx.pfns_num_)
  pages : s.ctx.pfns_num_ = requested cs ⌈/⌉ os.page_size
  hosts : s.mach.Hosts os h R s.ctx.pfns_num_
  sound : s.mach.Sound
  last : ∀ pre c, cs = pre ++ [c] →
    s.mach.load os c.reference_ = some (h * os.page_size + requested pre)

section Runs

variable {os : OS} {s₀ s t : State} {h R : ℕ} {cs : List ContainerContext} {c : ContainerContext}
  {st : List Frame}

@[simp] theorem requested_nil : requested [] = 0 := rfl

@[simp] theorem requested_append (cs ds : List ContainerContext) :
    requested (cs ++ ds) = requested cs + requested ds := by simp [requested]

@[simp] theorem requested_cons (c : ContainerContext) (cs : List ContainerContext) :
    requested (c :: cs) = c.bytes + requested cs := by simp [requested]

theorem Fresh.bumped (hf : Fresh os s₀ h R) : ∃ st, Bumped os s₀ h R [] st := by
  obtain ⟨st, hcore, hnum⟩ := hf.core
  refine ⟨st, ?_⟩
  constructor
  case core => exact hcore
  case backed =>
    rw [hnum, List.take_zero]
    exact ⟨List.nodup_nil, fun f hf => absurd hf List.not_mem_nil, fun i hi => absurd hi (by simp)⟩
  case pages =>
    rw [hnum, requested_nil]
    exact (zero_ceilDiv _).symm
  case hosts =>
    rw [hnum]
    exact hf.hosts
  case sound => exact hf.sound
  case last =>
    intro pre c he
    simp at he

theorem Bumped.between (hb : Bumped os s h R cs st) (hs : Between os s t cs.getLast?.toList) :
    Bumped os t h R cs st := by
  constructor
  case core =>
    rw [hs.ctx]
    exact hb.core
  case backed =>
    rw [hs.ctx]
    exact hb.backed.congr hs.pageTable hs.allocated
  case pages =>
    rw [hs.ctx]
    exact hb.pages
  case hosts =>
    rw [hs.ctx]
    exact hb.hosts.congr hs.pageTable hs.regions
  case sound => exact hb.sound.congr hs.pageTable hs.allocated
  case last =>
    rintro pre c rfl
    rw [hs.kept c (by simp), hb.last pre c rfl]

theorem Bumped.ceil_eq (hb : Bumped os s h R cs st) :
    (h * os.page_size + requested cs) ⌈/⌉ os.page_size = h + s.ctx.pfns_num_ := by
  rw [add_comm, ceil_add_mul os.page_size_pos, hb.pages, add_comm]

theorem Bumped.end_le (hb : Bumped os s h R cs st) :
    (h + s.ctx.pfns_num_) * os.page_size ≤ 2 ^ 47 :=
  (Nat.mul_le_mul_right _ (Nat.add_le_add_left hb.hosts.le h)).trans hb.hosts.limit

theorem Bumped.meets_nextSlot (hb : Bumped os s h R cs st) {Q : ℕ × ℕ × ℕ → State → Prop}
    {E : Fault → State → Prop}
    (hQ : Q ((h * os.page_size + requested cs) ⌈/⌉ os.page_size * os.page_size,
      h * os.page_size + requested cs, gap os.page_size (h * os.page_size + requested cs)) s) :
    Meets (nextSlot os (h * os.page_size)) s Q E := by
  have hP := os.page_size_pos
  have hend := hb.end_le
  have hceil := hb.ceil_eq
  have hle := le_ceil_mul hP (h * os.page_size + requested cs)
  rw [hceil] at hle
  rcases List.eq_nil_or_concat cs with rfl | ⟨pre, c, rfl⟩
  · refine meets_nextSlot_first (by rw [hb.core.containers_num]; rfl) ?_
    rw [requested_nil, add_zero, ceil_mul_self hP, gap_of_dvd hP (Nat.dvd_mul_left ..)] at hQ
    exact hQ
  · rw [List.concat_eq_append] at hb hQ hceil hle
    have hget : s.ctx.containers[pre.length]? = some c := by
      rw [hb.core.containers_eq, List.getElem?_append_right le_rfl, Nat.sub_self]
      rfl
    have hnum : s.ctx.containers_num_ = pre.length + 1 := by
      rw [hb.core.containers_num, List.length_append, List.length_singleton]
    have hres : c.resolve os s.mach =
        some ⟨h * os.page_size + requested pre, c.type_size_, c.elements_num_⟩ := by
      rw [ContainerContext.resolve, hb.last pre c rfl, Option.map_some]
    refine meets_nextSlot_last hnum hget hres ?_
    have hsum : h * os.page_size + requested (pre ++ [c]) =
        h * os.page_size + requested pre + c.bytes := by
      simp [add_assoc]
    have hbytes : Container.bytes ⟨h * os.page_size + requested pre, c.type_size_, c.elements_num_⟩ =
        c.bytes := rfl
    rw [Container.nextMappingAddress_eq, Container.nextAddress_eq, Container.guestBytes_eq, hbytes]
    dsimp only
    rw [← hsum, u64_of_lt (by rw [hceil]; omega), u64_of_lt (by omega)]
    exact hQ

theorem Bumped.appended (hb : Bumped os s h R cs st)
    (hcall : ContainerAlloc os (h * os.page_size) c.reference_ c.type_size_ c.elements_num_ s =
      .ok () t) : ∃ st' new, Appended os s t (h * os.page_size + requested cs) c.reference_
        c.type_size_ c.elements_num_ cs st st' new := by
  have hmeets : Meets (ContainerAlloc os (h * os.page_size) c.reference_ c.type_size_
      c.elements_num_) s (fun _ t => ∃ st' new, Appended os s t (h * os.page_size + requested cs)
        c.reference_ c.type_size_ c.elements_num_ cs st st' new) fun _ _ => True :=
    meets_ContainerAlloc hb.core hb.hosts.reserved (fun _ _ hQ => hb.meets_nextSlot hQ)
      (fun _ st' new ha => ⟨st', new, ha⟩) fun _ _ _ _ => trivial
  exact hmeets.of_ok hcall

theorem Bumped.alloc (hb : Bumped os s h R cs st) (hov : c.bytes < 2 ^ 64)
    (hcall : ContainerAlloc os (h * os.page_size) c.reference_ c.type_size_ c.elements_num_ s =
      .ok () t) : ∃ st', Bumped os t h R (cs ++ [c]) st' := by
  have hP := os.page_size_pos
  have hceil := hb.ceil_eq
  have hend := hb.end_le
  have hlen : (st.take s.ctx.pfns_num_).length = s.ctx.pfns_num_ := by
    rw [List.length_take, Nat.min_eq_left hb.core.num]
  obtain ⟨st', new, ha⟩ := hb.appended hcall
  obtain ⟨m, m₁, hq, hassign, hext⟩ := ha.mach
  obtain ⟨hpt, hregions, hallocated, -⟩ := assign_fields hassign
  have hpt' : m₁.pageTable = s.mach.pageTable := by rw [hpt, hq.eq]
  have hregions' : m₁.regions = s.mach.regions := by rw [hregions, hq.eq]
  have hallocated' : m₁.allocated = s.mach.allocated := by rw [hallocated, hq.eq]
  have hsound : m₁.Sound := hb.sound.congr hpt' hallocated'
  have hhosts : m₁.Hosts os h R s.ctx.pfns_num_ := hb.hosts.congr hpt' hregions'
  rw [hceil] at hext
  have hhosts' : t.mach.Hosts os h R t.ctx.pfns_num_ := by
    rw [ha.pfns_num]
    refine hhosts.extended hext fun hne => ?_
    have := ha.region hne
    rw [hceil] at this
    rwa [Machine.inRegion, hregions']
  have hfit := hhosts'.le
  rw [ha.pfns_num] at hfit
  refine ⟨st', ?_⟩
  constructor
  case core => exact ha.core
  case backed =>
    rw [ha.frames]
    exact (hb.backed.congr hpt' hallocated').extended (by rw [hlen]; exact hext)
  case pages =>
    have hspan := span_add_ceil hP (h * os.page_size + requested cs) c.bytes
    have hu : u64 (c.type_size_ * c.elements_num_) = c.bytes := u64_of_lt hov
    have hsum : h * os.page_size + requested cs + c.bytes =
        requested (cs ++ [c]) + h * os.page_size := by
      simp
      omega
    rw [hceil, hsum, ceil_add_mul hP] at hspan
    rw [ha.pfns_num, ha.pages, hu]
    omega
  case hosts => exact hhosts'
  case sound => exact hsound.extended hext
  case last =>
    intro pre d he
    obtain ⟨rfl, hd⟩ := List.append_inj' he rfl
    obtain rfl : c = d := List.singleton_inj.mp hd
    have haddr := le_ceil_mul hP (h * os.page_size + requested cs)
    rw [hceil] at haddr
    refine hsound.load_extended hext (fun p h₁ h₂ => hhosts.free p h₁ (by omega)) ?_
    exact (hb.sound.congr (by rw [hq.eq]) (by rw [hq.eq])).load_assign (by omega) hassign

theorem Bumped.load_alloc (hb : Bumped os s h R cs st)
    (hcall : ContainerAlloc os (h * os.page_size) c.reference_ c.type_size_ c.elements_num_ s =
      .ok () t) {l : PtrLoc} {v : ℕ} (hap : c.reference_.Apart l)
    (hc : c.reference_.Within (h * os.page_size) (h * os.page_size + requested cs))
    (hw : l.Within (h * os.page_size) (h * os.page_size + requested cs))
    (hl : s.mach.load os l = some v) : t.mach.load os l = some v := by
  have hP := os.page_size_pos
  have hceil := hb.ceil_eq
  have hend := hb.end_le
  obtain ⟨st', new, ha⟩ := hb.appended hcall
  obtain ⟨m, m₁, hq, hassign, hext⟩ := ha.mach
  obtain ⟨hpt, hregions, hallocated, -⟩ := assign_fields hassign
  have hle := le_ceil_mul hP (h * os.page_size + requested cs)
  rw [hceil] at hle hext
  have hlen : (st.take s.ctx.pfns_num_).length = s.ctx.pfns_num_ := by
    rw [List.length_take, Nat.min_eq_left hb.core.num]
  have hheld := hb.backed.held_range
  rw [hlen] at hheld
  have hheld' : m.Held os (h * os.page_size) ((h + s.ctx.pfns_num_) * os.page_size) := by
    rw [hq.eq]
    exact ⟨hheld.mapped, hheld.inj⟩
  obtain ⟨m₂, hm₂, hrw, -⟩ := Machine.assign_spec (v := h * os.page_size + requested cs) (by omega)
    (hc.mono le_rfl hle) hheld'
  obtain rfl := Option.some.inj (hassign.symm.trans hm₂)
  have hload : m₁.load os l = some v := by
    rw [hrw.load (hw.mono le_rfl hle) hap, hq.eq]
    exact hl
  have hsound : m₁.Sound := hb.sound.congr (hpt.trans (by rw [hq.eq])) (hallocated.trans (by rw [hq.eq]))
  refine hsound.load_extended hext (fun p h₁ h₂ => ?_) hload
  have hfree : m₁.pageTable p = s.mach.pageTable p := by rw [hpt, hq.eq]
  have hhosts : m₁.Hosts os h R s.ctx.pfns_num_ :=
    hb.hosts.congr (by rw [hpt, hq.eq]) (by rw [hregions, hq.eq])
  have hfit := (hhosts.extended hext fun hne => ?_).le
  · exact hhosts.free p h₁ (by omega)
  · have := ha.region hne
    rw [hceil] at this
    rwa [Machine.inRegion, hregions, hq.eq]

theorem AllocRun.bumped (hf : Fresh os s₀ h R) (hrun : AllocRun os (h * os.page_size) s₀ cs s)
    (hov : ∀ c ∈ cs, c.bytes < 2 ^ 64) : ∃ st, Bumped os s h R cs st := by
  induction hrun with
  | fresh => exact hf.bumped
  | alloc run between call ih =>
    obtain ⟨st, hb⟩ := ih fun c hc => hov c (List.mem_append_left _ hc)
    exact (hb.between between).alloc (hov _ (List.mem_append_right _ (List.mem_singleton.mpr rfl))) call

/-- Allocation on a new hypercontainer is an exact bump allocator: the last call stores the sum of
all earlier requests, and the pages that all requests begin are mapped, each once, and no others. -/
theorem AllocRun.bump (hf : Fresh os s₀ h R) (hrun : AllocRun os (h * os.page_size) s₀ cs s)
    (hov : ∀ c ∈ cs, c.bytes < 2 ^ 64) :
    (∀ pre c, cs = pre ++ [c] →
      s.mach.load os c.reference_ = some (h * os.page_size + requested pre)) ∧
    s.ctx.pfns_num_ = requested cs ⌈/⌉ os.page_size ∧
    Backed os s.mach h (s.ctx.frames.take s.ctx.pfns_num_) ∧
    s.ctx.pfns_num_ ≤ R ∧
    (∀ p, h ≤ p → p < h + R → ((s.mach.pageTable p).isSome ↔ p < h + s.ctx.pfns_num_)) ∧
    ∀ p q f, s.mach.pageTable p = some f → s.mach.pageTable q = some f → p = q := by
  obtain ⟨st, hb⟩ := hrun.bumped hf hov
  have hframes : s.ctx.frames = st := frames_of_storage hb.core.table
  refine ⟨hb.last, hb.pages, hframes ▸ hb.backed, hb.hosts.le, fun p h₁ h₂ => ?_, hb.sound.inj⟩
  constructor
  · intro hp
    by_contra hge
    rw [hb.hosts.free p (not_lt.mp hge) h₂] at hp
    cases hp
  · intro hp
    have hlen : (st.take s.ctx.pfns_num_).length = s.ctx.pfns_num_ := by
      rw [List.length_take, Nat.min_eq_left hb.core.num]
    have hpage := hb.backed.page (p - h) (by omega)
    rw [Nat.add_sub_cancel' h₁, List.getElem?_eq_getElem (by omega)] at hpage
    rw [hpage]
    rfl

/-- Three requests of 240, 0 and 120 bytes through one variable. -/
theorem AllocRun.bump_three :
    let os := OS.plain 7 (by decide) fun _ => true
    ∃ s, AllocRun os (16 * os.page_size) (Fresh.state os 16 16)
        [⟨.var 0, 24, 10⟩, ⟨.var 0, 8, 0⟩, ⟨.var 0, 24, 5⟩] s ∧
      s.ctx.pfns_num_ = 3 ∧ s.mach.load os (.var 0) = some (16 * 128 + 240) := by
  intro os
  have hf : Fresh os (Fresh.state os 16 16) 16 16 := Fresh.of_state (by decide) (by decide)
  have h₁ := AllocRun.alloc (c := ⟨.var 0, 24, 10⟩)
    (@AllocRun.fresh os (16 * os.page_size) (Fresh.state os 16 16)) (.refl _ _ _)
    (eq_ok_of_returned (by decide +kernel))
  have h₂ := AllocRun.alloc (c := ⟨.var 0, 8, 0⟩) h₁ (.refl _ _ _)
    (eq_ok_of_returned (by decide +kernel))
  have h₃ := AllocRun.alloc (c := ⟨.var 0, 24, 5⟩) h₂ (.refl _ _ _)
    (eq_ok_of_returned (by decide +kernel))
  obtain ⟨hlast, hnum, -⟩ := AllocRun.bump hf h₃ (by decide)
  refine ⟨_, h₃, hnum.trans (by decide), ?_⟩
  exact hlast [⟨.var 0, 24, 10⟩, ⟨.var 0, 8, 0⟩] ⟨.var 0, 24, 5⟩ rfl

end Runs

end VcmallocBench
