import VcmallocBench.HyperContainer.Reservation
import VcmallocBench.Manager.Ledger

/-! # New hypercontainers

The ranges that a process has reserved are those of its hypercontainers, and it
maps pages in them only. So no page of a range just reserved is mapped, and the
range lies behind all others: a hypercontainer from `vccalloc` is fresh.
-/

namespace VcmallocBench

open Paging

namespace Machine

/-- The calls made in between have neither reserved nor mapped anything, and the frames are the same. -/
structure Still (m m' : Machine) : Prop where
  pageTable : m'.pageTable = m.pageTable
  regions : m'.regions = m.regions
  allocated : m'.allocated = m.allocated

/-- The calls made in between have reserved `n` bytes at `b`. -/
structure Granted (os : OS) (b n : ℕ) (m m' : Machine) : Prop where
  pageTable : m'.pageTable = m.pageTable
  regions : m'.regions = ⟨b, n⟩ :: m.regions
  allocated : m'.allocated = m.allocated
  end_le : b + n ≤ os.addressLimit

structure Frees (m m' : Machine) : Prop where
  regions : m'.regions = m.regions
  mapped : ∀ p f, m'.pageTable p = some f → m.pageTable p = some f
  held : ∀ p f, m'.pageTable p = some f → f ∈ m.allocated → f ∈ m'.allocated

/-- The calls made in between have released the reservation at `b`, and some frames before it. -/
structure Vacated (os : OS) (b : ℕ) (m m' : Machine) : Prop where
  regions : m'.regions = m.regions.filter (·.base != b)
  mapped : ∀ p f, m'.pageTable p = some f → m.pageTable p = some f ∧
    ∀ r ∈ m.regions, r.base = b → ¬ (b ≤ p * os.page_size ∧ p * os.page_size < b + r.size)
  held : ∀ p f, m'.pageTable p = some f → f ∈ m.allocated → f ∈ m'.allocated

/-- The process has reserved ranges of hypercontainers, and mapped pages in these ranges. -/
structure Reserves (os : OS) (live : Entries) (m : Machine) : Prop where
  sound : m.Sound
  reserved : m.Reserved os
  region : ∀ r ∈ m.regions, ∃ e ∈ live, r.base = e.1 ∧ r.size ≤ e.2.hypercontainer_size_
  mapped : ∀ p f, m.pageTable p = some f →
    ∃ r ∈ m.regions, r.base ≤ p * os.page_size ∧ p * os.page_size < r.base + r.size

section Reserves

variable {os : OS} {m m' m'' : Machine} {b n h R i : ℕ} {live : Entries} {ctx : HyperContainerContext}

theorem Still.refl (m : Machine) : m.Still m := ⟨rfl, rfl, rfl⟩

theorem Still.trans (h : m.Still m') (h' : m'.Still m'') : m.Still m'' :=
  ⟨h'.pageTable.trans h.pageTable, h'.regions.trans h.regions, h'.allocated.trans h.allocated⟩

theorem Still.granted (h : m.Still m') (h' : m'.Granted os b n m'') : m.Granted os b n m'' where
  pageTable := h'.pageTable.trans h.pageTable
  regions := by rw [h'.regions, h.regions]
  allocated := h'.allocated.trans h.allocated
  end_le := h'.end_le

theorem Granted.still (h : m.Granted os b n m') (h' : m'.Still m'') : m.Granted os b n m'' where
  pageTable := h'.pageTable.trans h.pageTable
  regions := h'.regions.trans h.regions
  allocated := h'.allocated.trans h.allocated
  end_le := h.end_le

theorem Vacated.still (h : m.Vacated os b m') (h' : m'.Still m'') : m.Vacated os b m'' where
  regions := h'.regions.trans h.regions
  mapped p f hp := by
    rw [h'.pageTable] at hp
    exact h.mapped p f hp
  held p f hp hf := by
    rw [h'.pageTable] at hp
    rw [h'.allocated]
    exact h.held p f hp hf

theorem Reserves.start (hp : ∀ p, m.pageTable p = none) (hr : m.regions = []) :
    m.Reserves os [] := by
  constructor
  case sound =>
    constructor
    · intro p f hf
      simp [hp] at hf
    · intro p q f hf
      simp [hp] at hf
  case reserved => simp [Reserved, hr]
  case region => simp [hr]
  case mapped => simp [hp]

theorem Reserves.granted (hm : m.Reserves os live) (hg : m.Granted os b n m')
    (hn : n ≤ ctx.hypercontainer_size_) : m'.Reserves os (live ++ [(b, ctx)]) := by
  constructor
  case sound => exact hm.sound.congr hg.pageTable hg.allocated
  case reserved =>
    intro r hr
    rw [hg.regions] at hr
    rcases List.mem_cons.mp hr with rfl | hr
    · exact hg.end_le
    · exact hm.reserved r hr
  case region =>
    intro r hr
    rw [hg.regions] at hr
    rcases List.mem_cons.mp hr with rfl | hr
    · exact ⟨(b, ctx), by simp, rfl, hn⟩
    · obtain ⟨e, he, hbase, hsize⟩ := hm.region r hr
      exact ⟨e, by simp [he], hbase, hsize⟩
  case mapped =>
    intro p f hp
    rw [hg.pageTable] at hp
    obtain ⟨r, hr, hin⟩ := hm.mapped p f hp
    exact ⟨r, by simp [hg.regions, hr], hin⟩

theorem Reserves.vacated (hm : m.Reserves os live) (hv : m.Vacated os b m')
    (hi : live[i]? = some (b, ctx)) : m'.Reserves os (live.eraseIdx i) := by
  have hleft : ∀ r ∈ m'.regions, r ∈ m.regions ∧ r.base ≠ b := by
    intro r hr
    rw [hv.regions, List.mem_filter] at hr
    exact ⟨hr.1, by simpa using hr.2⟩
  constructor
  case sound =>
    constructor
    · intro p f hp
      exact hv.held p f hp (hm.sound.held p f (hv.mapped p f hp).1)
    · intro p q f hp hq
      exact hm.sound.inj p q f (hv.mapped p f hp).1 (hv.mapped q f hq).1
  case reserved =>
    intro r hr
    exact hm.reserved r (hleft r hr).1
  case region =>
    intro r hr
    obtain ⟨hr, hne⟩ := hleft r hr
    obtain ⟨e, he, hbase, hsize⟩ := hm.region r hr
    obtain ⟨j, hj⟩ := List.mem_iff_getElem?.mp he
    refine ⟨e, List.mem_eraseIdx_iff_getElem?.mpr ⟨j, ?_, hj⟩, hbase, hsize⟩
    rintro rfl
    obtain rfl := Option.some.inj (hi.symm.trans hj)
    exact hne hbase
  case mapped =>
    intro p f hp
    obtain ⟨hp, hout⟩ := hv.mapped p f hp
    obtain ⟨r, hr, hin⟩ := hm.mapped p f hp
    refine ⟨r, ?_, hin⟩
    rw [hv.regions, List.mem_filter]
    refine ⟨hr, ?_⟩
    rw [bne_iff_ne]
    rintro rfl
    exact hout r hr rfl hin

theorem Reserves.hosts (hm : m.Reserves os live)
    (hg : m.Granted os (h * os.page_size) (R * os.page_size) m') (hh : 0 < h)
    (hbelow : ∀ e ∈ live, e.1 + e.2.hypercontainer_size_ ≤ h * os.page_size) :
    m'.Hosts os h R 0 := by
  have hend : ∀ r ∈ m.regions, r.base + r.size ≤ h * os.page_size := by
    intro r hr
    obtain ⟨e, he, hbase, hsize⟩ := hm.region r hr
    have := hbelow e he
    omega
  constructor
  case base_pos => exact hh
  case own => simp [hg.regions]
  case below =>
    intro r hr
    rw [hg.regions] at hr
    exact (List.mem_cons.mp hr).imp_right (hend r)
  case reserved =>
    intro r hr
    rw [hg.regions] at hr
    rcases List.mem_cons.mp hr with rfl | hr
    · exact hg.end_le
    · exact hm.reserved r hr
  case le => exact Nat.zero_le R
  case free =>
    intro p hp _
    rw [add_zero] at hp
    rw [hg.pageTable, Option.eq_none_iff_forall_ne_some]
    intro f hf
    obtain ⟨r, hr, -, hlt⟩ := hm.mapped p f hf
    have hle := Nat.mul_le_mul_right os.page_size hp
    have := hend r hr
    omega

end Reserves

end Machine

namespace Process

section Calls

variable {os : OS} {s t : Process} {b dwSize : ℕ}

def Stills (s t : Process) : Prop := s.mach.Still t.mach

instance : Std.Refl Stills := ⟨fun s => .refl s.mach⟩

instance : IsTrans Process Stills := ⟨fun _ _ _ h₁ h₂ => h₁.trans h₂⟩

theorem heaps_stills (os : OS) : Heaps os Stills where
  set s _ := .refl s.mach
  heapCall _ _ := ⟨rfl, rfl, rfl⟩
  heapFreeCall _ := ⟨rfl, rfl, rfl⟩

theorem granted_of_reserveCall {m : Machine} {r : ℕ} (h : (m.reserveCall os r dwSize).1 = some b) :
    m.Granted os b (dwSize ⌈/⌉ os.page_size * os.page_size) (m.reserveCall os r dwSize).2 := by
  unfold Machine.reserveCall at h ⊢
  dsimp only at h ⊢
  split at h
  · rename_i a hplace
    obtain rfl := Option.some.inj h
    obtain ⟨-, -, -, hend, -⟩ := os.place_spec _ _ _ _ _ hplace
    exact ⟨rfl, rfl, rfl, hend⟩
  · cases h

theorem still_of_reserveCall {m : Machine} {r : ℕ} (h : (m.reserveCall os r dwSize).1 = none) :
    m.Still (m.reserveCall os r dwSize).2 := by
  unfold Machine.reserveCall at h ⊢
  dsimp only at h ⊢
  split at h
  · cases h
  · rename_i hplace
    exact ⟨rfl, rfl, rfl⟩

/-- The attempts that fail reserve nothing. -/
theorem meets_reserve_granted (attempts r : ℕ) :
    Meets (reserve os dwSize attempts r) s
      (fun b t => s.mach.Granted os b (dwSize ⌈/⌉ os.page_size * os.page_size) t.mach)
      fun _ _ => True := by
  induction attempts generalizing s r with
  | zero => exact (meets_throw _).mpr trivial
  | succ attempts ih =>
    rw [reserve, meets_bind, meets_osCall]
    cases hplace : (s.mach.reserveCall os r dwSize).1 with
    | some b => exact (meets_pure b).mpr (granted_of_reserveCall hplace)
    | none =>
      refine (ih _).mono (fun b t ht => ?_) fun _ _ _ => trivial
      exact (still_of_reserveCall hplace).granted ht

theorem meets_vccalloc_granted (attempts : ℕ) :
    Meets (vccalloc os attempts dwSize) s
      (fun b t => s.mach.Granted os b (dwSize ⌈/⌉ os.page_size * os.page_size) t.mach)
      fun _ _ => True := by
  rw [vccalloc]
  have hrequested : Leads Stills requestedAddress := leads_requestedAddress
  refine ((hrequested s).mono (fun _ _ h => h) fun _ _ _ => trivial).bind fun r t ht => ?_
  refine (meets_reserve_granted attempts r).bind fun b u hu => ?_
  have hinsert := (heaps_stills os).leads_insert b (containerSize os dwSize)
  refine ((hinsert u).mono (fun _ _ h => h) fun _ _ _ => trivial).bind fun _ v hv => ?_
  exact (meets_pure b).mpr (ht.granted (hu.still hv))

theorem frees_freeCall (m : Machine) (fs : List Frame) : m.Frees (m.freeCall os fs).2 := by
  constructor
  · rfl
  · intro p f hp
    exact (Option.filter_eq_some_iff.mp hp).1
  · intro p f hp hf
    exact List.mem_filter.mpr ⟨hf, (Option.filter_eq_some_iff.mp hp).2⟩

theorem meets_freeFrames_frees (hcc : HyperContainerContext) :
    Meets (freeFrames os hcc) s (fun _ t => s.mach.Frees t.mach) fun _ _ => True := by
  rw [freeFrames]
  refine meets_ite (fun _ => ?_) fun _ => (meets_pure _).mpr ⟨rfl, fun _ _ => id, fun _ _ _ => id⟩
  rw [meets_bind]
  refine meets_fetch_cases (fun fs _ => ?_) trivial
  rw [meets_bind, meets_osCall, meets_bind]
  exact meets_ensure (fun _ => (meets_pure _).mpr (frees_freeCall _ fs)) fun _ => trivial

theorem vacated_releaseCall {m m' : Machine} (h : m.Frees m') (hok : (m'.releaseCall os b).1 = true) :
    m.Vacated os b (m'.releaseCall os b).2 := by
  have hpage : ∀ p f, (m'.releaseCall os b).2.pageTable p = some f → m'.pageTable p = some f ∧
      ∀ r ∈ m'.regions, r.base = b → ¬ (b ≤ p * os.page_size ∧ p * os.page_size < b + r.size) := by
    intro p f hp
    simp only [Machine.releaseCall] at hok hp
    rw [if_pos hok] at hp
    split at hp
    · cases hp
    · rename_i hgone
      refine ⟨hp, fun r hr hb hin => hgone (List.any_eq_true.mpr ⟨r, hr, ?_⟩)⟩
      simp [hb, hin]
  constructor
  case regions =>
    simp only [Machine.releaseCall] at hok ⊢
    rw [if_pos hok, h.regions]
  case mapped =>
    intro p f hp
    obtain ⟨hp, hout⟩ := hpage p f hp
    rw [h.regions] at hout
    exact ⟨h.mapped p f hp, hout⟩
  case held =>
    intro p f hp
    exact h.held p f (hpage p f hp).1

theorem meets_HyperContainerFree_vacated :
    Meets (HyperContainerFree os b) s (fun _ t => s.mach.Vacated os b t.mach) fun _ _ => True := by
  rw [HyperContainerFree]
  have hsearch : Leads Eq (search b) := leads_search b
  refine ((hsearch s).mono (fun _ _ h => h) fun _ _ _ => trivial).bind fun i t ht => ?_
  subst ht
  cases i with
  | none => exact (meets_throw _).mpr trivial
  | some i =>
    dsimp only
    rw [meets_bind]
    refine meets_fetch_cases (fun hcc _ => ?_) trivial
    refine (meets_freeFrames_frees hcc).bind fun n u hu => ?_
    rw [meets_bind]
    refine meets_ensure (fun _ => ?_) fun _ => trivial
    rw [meets_bind, meets_osCall, meets_bind]
    refine meets_ensure (fun hok => ?_) fun _ => trivial
    have hv := vacated_releaseCall hu hok
    have hrest : Leads Stills (do
        let _ ← osCall (·.heapFreeCall os)
        let _ ← osCall (·.heapFreeCall os)
        remove i) := by
      refine (heaps_stills os).leads_heapFreeCall.bind fun _ => ?_
      exact (heaps_stills os).leads_heapFreeCall.bind fun _ => (heaps_stills os).leads_remove i
    exact (hrest _).mono (fun _ _ hw => hv.still hw) fun _ _ _ => trivial

end Calls

end Process

section Runs

variable {os : OS} {s t : Process} {m : Machine} {live : Entries} {attempts dwSize b : ℕ}

/-- What `vccalloc` and `vccfree` keep: the reservations are the ranges in the table. -/
structure Separate (os : OS) (s : Process) (live : Entries) : Prop where
  ordered : ∃ registry, Ordered os s.manager registry live
  reserves : s.mach.Reserves os live

theorem Separate.between (h : Separate os s live) (hm : s.Between os m) :
    Separate os ⟨m, s.manager⟩ live where
  ordered := h.ordered
  reserves := by
    obtain ⟨hsound, hreserved, hregion, hmapped⟩ := h.reserves
    constructor
    · exact hsound.congr hm.pageTable hm.allocated
    · rwa [Machine.Reserved, hm.regions]
    · rwa [hm.regions]
    · rwa [hm.pageTable, hm.regions]

/-- A returning `vccalloc` enters a fresh hypercontainer behind all others. -/
theorem Separate.vccalloc (h : Separate os s live) (hfit : attempts * os.granularity ≤ 2 ^ 63)
    (hrun : Process.vccalloc os attempts dwSize s = .ok b t)
    (hheap : ∀ c ∈ t.mach.calls, c.heapOk = true) :
    ∃ ctx h, Separate os t (live ++ [(b, ctx)]) ∧ b = h * os.page_size ∧
      Fresh os ⟨t.mach, ctx⟩ h (dwSize ⌈/⌉ os.page_size) := by
  obtain ⟨registry, ho⟩ := h.ordered
  obtain ⟨pfns, containers, ⟨_, h₁⟩, ⟨_, h₂⟩, hk, hplaced, hbelow⟩ :=
    (Process.meets_vccalloc ho.keeps ho.successive ho.whole hfit).of_ok hrun
  obtain rfl := heapOk_of_mem hheap h₁
  obtain rfl := heapOk_of_mem hheap h₂
  have hg := (Process.meets_vccalloc_granted attempts).of_ok hrun
  have hpage : os.page_size ∣ os.granularity := os.page_dvd_granularity
  have hwhole := hplaced.whole true true
  have hsize : dwSize ⌈/⌉ os.page_size * os.page_size ≤ Process.containerSize os dwSize := by
    obtain ⟨hdvd, hle, -⟩ := hplaced.containerSize_eq
    obtain ⟨k, hk⟩ := hpage.trans hdvd
    rw [hk, mul_comm os.page_size k] at hle ⊢
    rw [mul_comm k] at hle
    exact Nat.mul_le_mul_right _ ((ceilDiv_le_iff_le_mul os.page_size_pos).mpr hle)
  obtain ⟨h', rfl⟩ := hpage.trans hplaced.aligned
  rw [mul_comm os.page_size h'] at *
  refine ⟨_, h', ⟨⟨_, ho.append hk hwhole hbelow⟩, h.reserves.granted hg hsize⟩, rfl, ⟨_, rfl⟩, ?_, ?_⟩
  · exact h.reserves.hosts hg (Nat.pos_of_mul_pos_right hplaced.base_pos) hbelow
  · exact h.reserves.sound.congr hg.pageTable hg.allocated

theorem Separate.vccfree (h : Separate os s live) (hb : b < 2 ^ 64)
    (hrun : Process.HyperContainerFree os b s = .ok () t) : ∃ live', Separate os t live' := by
  obtain ⟨registry, ho⟩ := h.ordered
  obtain ⟨i, ctx, hi, hk⟩ := (Process.meets_HyperContainerFree ho.keeps ho.whole hb).of_ok hrun
  have hv := Process.meets_HyperContainerFree_vacated.of_ok hrun
  exact ⟨_, ⟨_, ho.erase hi hk⟩, h.reserves.vacated hv hi⟩

/-- Whatever a process has reserved and freed, a `vccalloc` that returns leaves a fresh hypercontainer
at the address it returns. -/
theorem Run.creates {m₀ : Machine} {requests : List Request} (hpages : ∀ p, m₀.pageTable p = none)
    (hregions : m₀.regions = []) (hrun : Run (Accounts os) ⟨m₀, .new os true true⟩ requests s)
    (hcalls : ∀ b c, Request.call b c ∉ requests) (hm : s.Between os m)
    (hfit : attempts * os.granularity ≤ 2 ^ 63)
    (hlast : Process.vccalloc os attempts dwSize ⟨m, s.manager⟩ = .ok b t)
    (hheap : ∀ c ∈ t.mach.calls, c.heapOk = true) :
    ∃ i ctx h, t.manager.find b = .ok (some i) ∧ t.manager.contexts[i]? = some ctx ∧
      b = h * os.page_size ∧ Fresh os ⟨t.mach, ctx⟩ h (dwSize ⌈/⌉ os.page_size) := by
  have hinv := hrun.indexed (I := fun requests s => (∀ b c, Request.call b c ∉ requests) →
    ∃ live, Separate os s live) (fun _ => ⟨[], ⟨_, .start os⟩, .start hpages hregions⟩) ?_ hcalls
  · obtain ⟨live, hs⟩ := hinv
    obtain ⟨ctx, h, ⟨⟨registry, ho⟩, -⟩, hb, hfresh⟩ := (hs.between hm).vccalloc hfit hlast hheap
    have hi : (live ++ [(b, ctx)])[live.length]? = some (b, ctx) := by simp
    have hfind := ho.keeps.find_eq ho.successive ho.whole hi
    have hctx := ho.keeps.context_eq hi
    exact ⟨live.length, ctx, h, hfind, hctx, hb, hfresh⟩
  · intro requests s request t ih hstep hno
    obtain ⟨live, hs⟩ := ih fun b c hc => hno b c (List.mem_append_left _ hc)
    cases hstep with
    | vccalloc hm hfit hrun hheap =>
      obtain ⟨ctx, -, hs', -⟩ := (hs.between hm).vccalloc hfit hrun hheap
      exact ⟨_, hs'⟩
    | vccfree hm hb hrun => exact (hs.between hm).vccfree hb hrun
    | call hm hb hok hrun hfail =>
      exact absurd (List.mem_append_right _ (List.mem_singleton_self _)) (hno _ _)

/-- A third hypercontainer, when the first one is freed. -/
theorem Run.creates_third :
    let os := OS.plain 7 (by decide) fun _ => true
    ∃ s t i ctx, Run (Accounts os) ⟨.initial, .new os true true⟩
        [.vccalloc 1 2048, .vccalloc 1 100, .vccfree 2048] s ∧
      Process.vccalloc os 1 200 s = .ok 6144 t ∧ t.manager.find 6144 = .ok (some i) ∧
      t.manager.contexts[i]? = some ctx ∧ Fresh os ⟨t.mach, ctx⟩ 48 2 := by
  intro os
  let s₀ : Process := ⟨.initial, .new os true true⟩
  let s₁ := endState (Process.vccalloc os 1 2048 s₀)
  let s₂ := endState (Process.vccalloc os 1 100 s₁)
  let s₃ := endState (Process.HyperContainerFree os 2048 s₂)
  let s₄ := endState (Process.vccalloc os 1 200 s₃)
  have h₁ : Process.vccalloc os 1 2048 s₀ = .ok 2048 s₁ := eq_ok_of_value (by decide +kernel)
  have h₂ : Process.vccalloc os 1 100 s₁ = .ok 4096 s₂ := eq_ok_of_value (by decide +kernel)
  have h₃ : Process.HyperContainerFree os 2048 s₂ = .ok () s₃ := eq_ok_of_returned (by decide +kernel)
  have h₄ : Process.vccalloc os 1 200 s₃ = .ok 6144 s₄ := eq_ok_of_value (by decide +kernel)
  have hrun₁ := Run.start.next (@Accounts.vccalloc os s₀ s₁ s₀.mach 1 2048 2048 (.refl os s₀)
    (by decide) h₁ (by decide +kernel))
  have hrun₂ := hrun₁.next (@Accounts.vccalloc os s₁ s₂ s₁.mach 1 100 4096 (.refl os s₁)
    (by decide) h₂ (by decide +kernel))
  have hrun := hrun₂.next (@Accounts.vccfree os s₂ s₃ s₂.mach 2048 (.refl os s₂) (by decide) h₃)
  have hcalls : ∀ b c, Request.call b c ∉ [Request.vccalloc 1 2048, .vccalloc 1 100, .vccfree 2048] := by
    simp
  have hheap : ∀ c ∈ s₄.mach.calls, c.heapOk = true := by decide +kernel
  have hpage : os.page_size = 128 := rfl
  have hpages : 200 ⌈/⌉ os.page_size = 2 := by decide
  clear_value s₄ s₃
  obtain ⟨i, ctx, h, hfind, hctx, hb, hfresh⟩ := Run.creates (fun _ => rfl) rfl hrun hcalls
    (.refl os s₃) (by decide) h₄ hheap
  rw [hpage] at hb
  rw [hpages] at hfresh
  obtain rfl : h = 48 := by omega
  exact ⟨s₃, s₄, i, ctx, hrun, h₄, hfind, hctx, hfresh⟩

end Runs

end VcmallocBench
