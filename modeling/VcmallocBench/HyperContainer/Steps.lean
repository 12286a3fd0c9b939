import VcmallocBench.HyperContainer.Calls
import VcmallocBench.HyperContainer.Tiling

/-! # Layouts of a run

What one call does to the layout of a hypercontainer whose variables lie outside
memory: an allocation appends a container, a resize moves those behind it.
-/

namespace VcmallocBench

open Paging

def endOf (base : ℕ) (L : List Container) : ℕ :=
  (L.getLast?.map fun l => l.reference_ + l.bytes).getD base

def reallocList (os : OS) (L : List Container) (k : ℕ) (l : Container) (sizeofT n : ℕ) :
    List Container :=
  if l.requestedPages os sizeofT n = l.nbrOfPages os then L
  else resizedList os L k l (l.requestedPages os sizeofT n) sizeofT

/-- The containers are tiled and backed, in the reservation of `R` pages from page `h` on. -/
structure Laid (os : OS) (s : State) (h R : ℕ) (cs : List ContainerContext) (st : List Frame)
    (L : List Container) : Prop where
  counted : Counted os s (h * os.page_size) (h * os.page_size) cs st L
  placed : Placed os s h st L
  hosts : s.mach.Hosts os h R s.ctx.pfns_num_

section Lookup

variable {os : OS} {s : State} {lo hi k h : ℕ} {c : ContainerContext} {l : Container}
  {cs : List ContainerContext} {st : List Frame} {L : List Container}

theorem Views.var {m : Machine} (hv : Views os m lo lo cs L) (hc : c ∈ cs) : ∃ x, c.reference_ = .var x := by
  have := hv.within c hc
  cases hr : c.reference_ with
  | var x => exact ⟨x, rfl⟩
  | mem a =>
    rw [hr] at this
    have h₁ := this.1
    have h₂ := this.2
    omega

/-- A resize is one of a container at the address that the variable holds. -/
theorem Counted.meets_ContainerRealloc {sizeofT n : ℕ} {Q : Unit → State → Prop}
    {E : Fault → State → Prop} (hc : Counted os s lo hi cs st L) (hasc : Ascending L)
    (hlt : ∀ l ∈ L, l.reference_ < 2 ^ 63) (hk : cs[k]? = some c) (hl : L[k]? = some l)
    (hQ : ∀ k' c' l', s.find os l.reference_ = .ok (some k') → cs[k']? = some c' →
      L[k']? = some l' → l'.reference_ = l.reference_ →
      Meets (ContainerReallocAt os k' sizeofT n) s Q E) :
    Meets (ContainerRealloc os c.reference_ sizeofT n) s Q E := by
  obtain ⟨-, -, hload⟩ := hc.views.sizes hk hl
  rw [ContainerRealloc, meets_bind, meets_loadPtr hload, meets_bind]
  refine hc.views'.meets_lookup hc.num_eq hc.length_le hasc hlt hl fun k' l' hf hl' he => ?_
  obtain ⟨c', hc', -⟩ := hc.views.get hl'
  exact hQ k' c' l' hf hc' hl' he

theorem Placed.end_le (hp : Placed os s h st L) (hc : Counted os s lo hi cs st L)
    (hl : L[k]? = some l) : l.reference_ + l.bytes ≤ (h + s.ctx.pfns_num_) * os.page_size := by
  have hP := os.page_size_pos
  have hf := hc.fits l (List.mem_of_getElem? hl)
  have h₁ := hp.tiled.page_eq hc.fits hl
  have h₂ := @pagesOf_eq os _ _ _ hl
  refine (le_ceil_mul hP _).trans (Nat.mul_le_mul_right _ ?_)
  rw [← span_add_ceil hP, h₁, ← Container.nbrOfPages_eq hf, ← hp.pages]
  omega

theorem Placed.reference_lt (hp : Placed os s h st L) (hc : Counted os s lo hi cs st L) :
    ∀ l ∈ L, l.reference_ < 2 ^ 63 := by
  intro l hl
  obtain ⟨k, hk⟩ := List.mem_iff_getElem?.mp hl
  have h₁ := hp.end_le hc hk
  have h₂ := hp.limit
  omega

theorem Placed.pages_pos (hp : Placed os s h st L) (hc : Counted os s lo hi cs st L)
    (hl : L[k]? = some l) (hpos : 0 < l.bytes) : 0 < s.ctx.pfns_num_ := by
  have h₁ := hp.end_le hc hl
  have h₂ := hp.tiled.spaced.le_reference hl
  by_contra h₀
  rw [Nat.eq_zero_of_not_pos h₀, add_zero] at h₁
  omega

end Lookup

section Append

variable {os : OS} {s t : State} {base h a x sizeofT n : ℕ} {cs : List ContainerContext}
  {st st' new : List Frame} {L : List Container} {l : Container}

theorem endOf_cons (base : ℕ) (l : Container) (L : List Container) :
    endOf base (l :: L) = endOf (l.reference_ + l.bytes) L := by
  cases L with
  | nil => rfl
  | cons d L => rw [endOf, endOf, List.getLast?_cons_cons, List.getLast?_cons, Option.map_some,
      Option.getD_some, Option.getD_some]

theorem Tiled.endOf_eq : ∀ {a : ℕ} {L : List Container}, Tiled a L → endOf a L = a + bytesOf L
  | _, [] => fun _ => rfl
  | a, l :: L => by
    rintro ⟨rfl, ht⟩
    rw [endOf_cons, ht.endOf_eq, bytesOf_cons, add_assoc]

theorem Counted.meets_nextSlot {lo hi : ℕ} (hc : Counted os s lo hi cs st L)
    (hbase : os.page_size ∣ base) (hlt : endOf base L ⌈/⌉ os.page_size * os.page_size < 2 ^ 64)
    {Q : ℕ × ℕ × ℕ → State → Prop} {E : Fault → State → Prop}
    (hQ : Q (endOf base L ⌈/⌉ os.page_size * os.page_size, endOf base L,
      gap os.page_size (endOf base L)) s) : Meets (nextSlot os base) s Q E := by
  have hP := os.page_size_pos
  have hle := le_ceil_mul hP (endOf base L)
  rcases List.eq_nil_or_concat L with rfl | ⟨pre, l, rfl⟩
  · refine meets_nextSlot_first (by rw [hc.num_eq]; rfl) ?_
    obtain ⟨b, rfl⟩ := hbase
    have he : endOf (os.page_size * b) [] = b * os.page_size := mul_comm _ _
    rw [he, ceil_mul_self hP, gap_of_dvd hP (Nat.dvd_mul_left ..)] at hQ
    rw [mul_comm]
    exact hQ
  · rw [List.concat_eq_append] at hc hQ hlt hle
    have hl : (pre ++ [l])[pre.length]? = some l := by
      rw [List.getElem?_append_right le_rfl, Nat.sub_self]
      rfl
    have he : endOf base (pre ++ [l]) = l.reference_ + l.bytes := by simp [endOf]
    obtain ⟨c, hk, hr⟩ := hc.views'.get hl
    have hnum : s.ctx.containers_num_ = pre.length + 1 := by
      rw [hc.num_eq, List.length_append, List.length_singleton]
    refine meets_nextSlot_last hnum hk hr ?_
    rw [he] at hQ hlt hle
    rw [Container.nextMappingAddress_eq, Container.nextAddress_eq, Container.guestBytes_eq,
      u64_of_lt hlt, u64_of_lt (by omega)]
    exact hQ

theorem Views.append {m m₁ : Machine} {lo : ℕ} (hv : Views os m lo lo cs L)
    (hx : ∀ c ∈ cs, c.reference_ ≠ .var x) (hm : m.assign os (.var x) a = some m₁) :
    Views os m₁ lo lo (cs ++ [⟨.var x, sizeofT, n⟩]) (L ++ [⟨a, sizeofT, n⟩]) := by
  obtain rfl := Option.some.inj hm
  have hold : Views os { m with vars := Function.update m.vars x a } lo lo cs L := by
    refine hv.congr (fun c hc y hy => ?_) fun _ h₁ h₂ => absurd h₂ (by omega)
    refine Function.update_of_ne ?_ _ _
    rintro rfl
    exact hx c hc hy
  constructor
  case length_eq => simp [hv.length_eq]
  case resolve =>
    intro j c hj
    rcases Nat.lt_or_ge j cs.length with hlt | hge
    · rw [List.getElem?_append_left hlt] at hj
      rw [hold.resolve j c hj, List.getElem?_append_left (by rw [← hv.length_eq]; exact hlt)]
    · have hj' := (List.getElem?_eq_some_iff.mp hj).1
      rw [List.length_append, List.length_singleton] at hj'
      obtain rfl : j = cs.length := by omega
      rw [List.getElem?_append_right le_rfl, Nat.sub_self] at hj
      obtain rfl := Option.some.inj hj
      rw [hv.length_eq, List.getElem?_append_right le_rfl, Nat.sub_self, ContainerContext.resolve,
        Machine.load_var, Option.map_some]
      dsimp only
      rw [Function.update_self]
      rfl
  case within =>
    intro c hc
    rcases List.mem_append.mp hc with hc | hc
    · exact hold.within c hc
    · obtain rfl := List.mem_singleton.mp hc
      trivial
  case apart =>
    rw [List.pairwise_append]
    refine ⟨hold.apart, List.pairwise_singleton _ _, fun c hc d hd => ?_⟩
    obtain rfl := List.mem_singleton.mp hd
    obtain ⟨y, hy⟩ := hv.var hc
    have hne := hx c hc
    rw [hy] at hne ⊢
    exact fun heq => hne (by rw [heq])

theorem Counted.append (hc : Counted os s (h * os.page_size) (h * os.page_size) cs st L)
    (hx : ∀ c ∈ cs, c.reference_ ≠ .var x) (hov : sizeofT * n < 2 ^ 64)
    (ha : Appended os s t a (.var x) sizeofT n cs st st' new)
    (hf : Container.Fits os ⟨a, sizeofT, n⟩) :
    Counted os t (h * os.page_size) (h * os.page_size) (cs ++ [⟨.var x, sizeofT, n⟩]) st'
      (L ++ [⟨a, sizeofT, n⟩]) := by
  obtain ⟨m, m₁, hq, hassign, hext⟩ := ha.mach
  constructor
  case core => exact ha.core
  case views =>
    have hv : Views os m (h * os.page_size) (h * os.page_size) cs L :=
      hc.views.congr (fun _ _ _ _ => by rw [hq.eq]) fun _ h₁ h₂ => absurd h₂ (by omega)
    refine (hv.append hx hassign).congr (fun _ _ _ _ => by rw [hext.vars]) fun _ h₁ h₂ =>
      absurd h₂ (by omega)
  case fits =>
    intro d hd
    rcases List.mem_append.mp hd with hd | hd
    · exact hc.fits d hd
    · obtain rfl := List.mem_singleton.mp hd
      exact hf
  case pages =>
    have h₁ := hc.pages
    have hu : u64 (sizeofT * n) = sizeofT * n := u64_of_lt hov
    have h₂ := ha.pages
    rw [hu] at h₂
    rw [pagesOf_append, pagesOf_cons, pagesOf_nil, Container.nbrOfPages_eq hf, ha.pfns_num, h₂]
    exact Nat.add_le_add_right h₁ _

end Append

section Steps

variable {os : OS} {s t : State} {h R k x sizeofT n : ℕ} {cs : List ContainerContext}
  {st : List Frame} {L : List Container} {c : ContainerContext} {l : Container}

theorem Fresh.laid (hf : Fresh os s h R) : ∃ st, Laid os s h R [] st [] := by
  obtain ⟨st, hcore, hnum⟩ := hf.core
  refine ⟨st, ?_, ?_, by rw [hnum]; exact hf.hosts⟩
  · constructor
    case core => exact hcore
    case views => exact ⟨rfl, fun j c hc => by simp at hc, by simp, List.Pairwise.nil⟩
    case fits => simp
    case pages => exact Nat.zero_le _
  · constructor
    case tiled => trivial
    case pages => exact hnum.symm
    case backed =>
      rw [hnum, List.take_zero]
      exact ⟨List.nodup_nil, by simp, by simp⟩
    case base_pos => exact hf.hosts.base_pos
    case limit =>
      have h₁ := hf.hosts.limit
      rw [add_mul] at h₁
      rw [hnum, add_zero]
      omega

/-- The program may write to what is not a variable of the table. -/
theorem Counted.between {lo : ℕ} (hc : Counted os s lo lo cs st L)
    (hs : Between os s t s.ctx.containers) : Counted os t lo lo cs st L := by
  have hcs := hc.core.containers_eq
  constructor
  case core =>
    rw [hs.ctx]
    exact hc.core
  case views =>
    refine hc.views.congr (fun c hm y hy => ?_) fun _ h₁ h₂ => absurd h₂ (by omega)
    have := hs.kept c (by rw [hcs]; exact hm)
    rw [hy, Machine.load_var, Machine.load_var] at this
    exact Option.some.inj this
  case fits => exact hc.fits
  case pages =>
    rw [hs.ctx]
    exact hc.pages

theorem Laid.between (hb : Laid os s h R cs st L) (hs : Between os s t s.ctx.containers) :
    Laid os t h R cs st L := by
  constructor
  case counted => exact hb.counted.between hs
  case placed =>
    have hp := hb.placed
    constructor
    case tiled => exact hp.tiled
    case pages =>
      rw [hs.ctx]
      exact hp.pages
    case backed =>
      rw [hs.ctx]
      exact hp.backed.congr hs.pageTable hs.allocated
    case base_pos => exact hp.base_pos
    case limit =>
      rw [hs.ctx]
      exact hp.limit
  case hosts =>
    rw [hs.ctx]
    exact hb.hosts.congr hs.pageTable hs.regions

theorem Laid.end_le (hb : Laid os s h R cs st L) :
    (h + s.ctx.pfns_num_) * os.page_size ≤ 2 ^ 47 :=
  (Nat.mul_le_mul_right _ (Nat.add_le_add_left hb.hosts.le h)).trans hb.hosts.limit

theorem Laid.endOf_ceil (hb : Laid os s h R cs st L) :
    endOf (h * os.page_size) L ⌈/⌉ os.page_size = h + s.ctx.pfns_num_ := by
  rw [hb.placed.tiled.endOf_eq, hb.placed.tiled.ceil_eq hb.counted.fits,
    ceil_mul_self os.page_size_pos, hb.placed.pages]

theorem Laid.meets_ContainerAlloc (hb : Laid os s h R cs st L)
    (hx : ∀ c ∈ cs, c.reference_ ≠ .var x) (hov : sizeofT * n < 2 ^ 64) :
    Meets (ContainerAlloc os (h * os.page_size) (.var x) sizeofT n) s
      (fun _ t => ∃ st', Laid os t h R (cs ++ [⟨.var x, sizeofT, n⟩]) st'
        (L ++ [⟨h * os.page_size + bytesOf L, sizeofT, n⟩])) (Blamed s.mach.failures) := by
  have hP := os.page_size_pos
  have hc := hb.counted
  have hp := hb.placed
  have hend := hb.end_le
  have hceil := hb.endOf_ceil
  have heq := hp.tiled.endOf_eq
  have hlen : (st.take s.ctx.pfns_num_).length = s.ctx.pfns_num_ := by
    rw [List.length_take, Nat.min_eq_left hc.core.num]
  refine VcmallocBench.meets_ContainerAlloc hc.core hb.hosts.reserved
    (fun Q E hQ => hc.meets_nextSlot (Nat.dvd_mul_left ..) (by rw [hceil]; omega) hQ)
    (fun t st' new ha => ⟨st', ?_⟩) fun e t hE _ message he => (hE message he).1
  have hspan := span_add_ceil hP (endOf (h * os.page_size) L) (sizeofT * n)
  have hpages := ha.pages
  rw [u64_of_lt hov] at hpages
  rw [hceil, ← hpages] at hspan
  obtain ⟨m, m₁, hq, hassign, hext⟩ := ha.mach
  obtain ⟨hpt, hregions, hallocated, -⟩ := assign_fields hassign
  have hpt' : m₁.pageTable = s.mach.pageTable := by rw [hpt, hq.eq]
  have hregions' : m₁.regions = s.mach.regions := by rw [hregions, hq.eq]
  have hallocated' : m₁.allocated = s.mach.allocated := by rw [hallocated, hq.eq]
  rw [hceil] at hext
  have hhosts : t.mach.Hosts os h R t.ctx.pfns_num_ := by
    have hm₁ : m₁.Hosts os h R s.ctx.pfns_num_ := hb.hosts.congr hpt' hregions'
    rw [ha.pfns_num]
    refine hm₁.extended hext fun hne => ?_
    have := ha.region hne
    rw [hceil] at this
    rwa [Machine.inRegion, hregions']
  have hlim : (h + t.ctx.pfns_num_) * os.page_size ≤ 2 ^ 47 :=
    (Nat.mul_le_mul_right _ (Nat.add_le_add_left hhosts.le h)).trans hhosts.limit
  have hsum := le_ceil_mul hP (endOf (h * os.page_size) L + sizeofT * n)
  rw [← hspan, add_assoc, ← ha.pfns_num] at hsum
  have hPlt := os.page_size_lt
  have hfit : Container.Fits os ⟨endOf (h * os.page_size) L, sizeofT, n⟩ := by
    constructor
    · dsimp only
      omega
    · rw [Container.bytes]
      dsimp only
      omega
  rw [← heq]
  have hcount := hc.append hx hov ha hfit
  refine ⟨hcount, ?_, hhosts⟩
  constructor
  case tiled =>
    rw [tiled_append, ← heq]
    exact ⟨hp.tiled, rfl, trivial⟩
  case pages =>
    rw [pagesOf_append, pagesOf_cons, pagesOf_nil, Container.nbrOfPages_eq hfit, hp.pages,
      ha.pfns_num, hpages]
    rfl
  case backed =>
    rw [ha.frames]
    exact (hp.backed.congr hpt' hallocated').extended (by rw [hlen]; exact hext)
  case base_pos => exact hp.base_pos
  case limit => omega

/-- A frame table without room never grows, and a call that needs it to does not end. -/
theorem Counted.meets_ContainerReallocAt_empty {F : ℕ} {Q : Unit → State → Prop} {lo hi : ℕ}
    (hc : Counted os s lo hi cs st L) (hl : L[k]? = some l) (hmax : s.ctx.pfns_max_ = 0)
    (hu : Unwrapped os s l sizeofT n) (hF : F ≤ s.mach.failures)
    (hQ : l.requestedPages os sizeofT n = l.nbrOfPages os → Q () s) :
    Meets (ContainerReallocAt os k sizeofT n) s Q (Blamed F) := by
  have hnum := hc.core.num
  have hlen := hc.core.max
  have hpages := hc.pages
  have htable := hu.table
  rw [pagesOf_eq hl] at hpages
  rw [ContainerReallocAt, meets_bind]
  refine hc.views'.reads.meets_getPFNsPosition (List.getElem?_eq_some_iff.mp hl).1.le
    (hc.pages_lt.trans (by decide)) ?_
  rw [meets_bind, hc.views'.meets_containerAt hl]
  generalize l.requestedPages os sizeofT n = req at *
  dsimp only
  refine meets_ite (fun hlt => absurd hlt (by omega)) fun _ => meets_ite (fun hlt => ?_) fun hge =>
    (meets_pure _).mpr (hQ (by omega))
  have hsteps : sub64 req (l.nbrOfPages os) = req - l.nbrOfPages os :=
    sub64_of_le hlt.le (by omega)
  have hneed : 0 < u64 (s.ctx.pfns_num_ + (req - l.nbrOfPages os)) := by
    rw [u64_of_lt (by omega)]
    omega
  rw [reallocGrow, meets_bind, growMapping, meets_bind, growFrames, hsteps, meets_bind]
  refine meets_AssertPfnsStorage_words hc.core.table (fun h => absurd h (by omega)) (fun _ _ => ?_)
    (fun m _ hm _ => ?_) fun m _ hr message _ => ?_
  · intro message he
    cases he
  · rw [hmax, doubledMax_zero hneed] at hm
    cases hm
  · dsimp only
    rw [Machine.failures_heapCall, hr]
    exact Nat.lt_succ_of_le hF

/-- A resize that keeps the neighbours adjacent leaves the containers tiled. -/
theorem Laid.meets_ContainerReallocAt (hb : Laid os s h R cs st L) (hk : cs[k]? = some c)
    (hl : L[k]? = some l) (hs : sizeofT = l.type_size_) (hu : Unwrapped os s l sizeofT n)
    (hexact : l.requestedPages os sizeofT n = l.nbrOfPages os ∨
      Exact os L.length k l (l.requestedPages os sizeofT n) sizeofT) :
    Meets (ContainerReallocAt os k sizeofT n) s
      (fun _ t => ∃ cs' st', cs'.map (·.reference_) = cs.map (·.reference_) ∧
        Laid os t h R cs' st' (reallocList os L k l sizeofT n)) (Blamed s.mach.failures) := by
  have hP := os.page_size_pos
  have hPlt := os.page_size_lt
  have hc := hb.counted
  have hp := hb.placed
  have hf := hc.fits l (List.mem_of_getElem? hl)
  have hend := hb.end_le
  have hg := hu.guest_le hf
  have hcap := hu.capacity_le hf
  have hsame : l.requestedPages os sizeofT n = l.nbrOfPages os →
      ∃ cs' st', cs'.map (·.reference_) = cs.map (·.reference_) ∧
        Laid os s h R cs' st' (reallocList os L k l sizeofT n) := fun he =>
    ⟨cs, st, rfl, by rw [reallocList, if_pos he]; exact hb⟩
  rcases Nat.eq_zero_or_pos s.ctx.pfns_max_ with hz | hmax
  · exact hc.meets_ContainerReallocAt_empty hl hz hu le_rfl hsame
  have hlim : (h + s.ctx.pfns_num_ + l.requestedPages os sizeofT n) * os.page_size < 2 ^ 64 := by
    rw [add_mul]
    have := requestedPages_le (s := sizeofT) (n := n) hf.reference_lt hu.bytes
    omega
  refine (hc.meets_ContainerReallocAt (G := True) (fun _ => hp) hk hl
    (Or.inr (hc.views.var (List.mem_of_getElem? hk))) (Or.inl rfl) hu.bytes hu.table (fun _ => hmax)
    (fun _ => hlim) le_rfl).mono (fun _ t ht => ?_) fun e t hE _ _ =>
      hE.resolve_right fun h => h.1 trivial
  rcases ht with ⟨he, rfl⟩ | ⟨hne, st', new, hr⟩
  · exact hsame he
  have hex := hexact.resolve_left hne
  obtain ⟨hfit, hpages⟩ := resized_fits hf hg hcap (hu.resized_le hf hs)
  have hcount := hr.counted hc hl hfit hpages
  have hnum := hr.pfns_num
  have hstart : pagesOf os (L.take k) + l.nbrOfPages os ≤ s.ctx.pfns_num_ := by
    rw [← hp.pages, pagesOf_eq hl]
    omega
  -- the new pages were mapped inside the reservation
  have hle : t.ctx.pfns_num_ ≤ R := by
    rcases Nat.lt_or_ge (pagesOf os (L.take k)) t.ctx.pfns_num_ with hlt | hge
    · have hmap : l.mappingAddress os = (h + pagesOf os (L.take k)) * os.page_size := by
        have := Nat.mul_le_mul_right os.page_size
          (show h + pagesOf os (L.take k) ≤ h + s.ctx.pfns_num_ by omega)
        rw [Container.mappingAddress_eq hf.reference_lt, hp.tiled.page_eq hc.fits hl]
        exact u64_of_lt (by omega)
      have hin := hr.region hlt.ne'
      rw [hmap] at hin
      have hrange := hb.hosts.range_le (Nat.mul_le_mul_right _ (Nat.le_add_right h _)) (by omega) hin
      rw [← add_mul] at hrange
      have := Nat.le_of_mul_le_mul_right hrange hP
      omega
    · have := hb.hosts.le
      omega
  have hhosts : t.mach.Hosts os h R t.ctx.pfns_num_ := by
    constructor
    case base_pos => exact hb.hosts.base_pos
    case own =>
      rw [hr.regions]
      exact hb.hosts.own
    case below =>
      rw [hr.regions]
      exact hb.hosts.below
    case reserved =>
      rw [Machine.Reserved, hr.regions]
      exact hb.hosts.reserved
    case le => exact hle
    case free =>
      intro p h₁ h₂
      rw [hr.rest trivial p (Or.inr h₁)]
      split
      · rfl
      · rename_i hout
        rw [hb.hosts.free p (by omega) h₂]
        rfl
  have hlim' := hhosts.limit
  have hle' := Nat.mul_le_mul_right os.page_size (Nat.add_le_add_left hle h)
  have hplaced := hr.placed hc hp hl hg hex hlim (by omega)
  have hlist : reallocList os L k l sizeofT n =
      resizedList os L k l (l.requestedPages os sizeofT n) sizeofT := if_neg hne
  exact ⟨_, st', map_reference_set hk _, by rw [hlist]; exact ⟨hcount, hplaced, hhosts⟩⟩

theorem Laid.meets_ContainerRealloc (hb : Laid os s h R cs st L) (hk : cs[k]? = some c)
    (hl : L[k]? = some l) (hok : ∀ k' l', s.find os l.reference_ = .ok (some k') →
      L[k']? = some l' → l'.reference_ = l.reference_ → sizeofT = l'.type_size_ ∧
        Unwrapped os s l' sizeofT n ∧ (l'.requestedPages os sizeofT n = l'.nbrOfPages os ∨
          Exact os L.length k' l' (l'.requestedPages os sizeofT n) sizeofT)) :
    Meets (ContainerRealloc os c.reference_ sizeofT n) s
      (fun _ t => ∃ k' l' cs' st', L[k']? = some l' ∧ l'.reference_ = l.reference_ ∧
        cs'.map (·.reference_) = cs.map (·.reference_) ∧
        Laid os t h R cs' st' (reallocList os L k' l' sizeofT n)) (Blamed s.mach.failures) := by
  have hc := hb.counted
  refine hc.meets_ContainerRealloc hb.placed.tiled.ascending (hb.placed.reference_lt hc) hk hl
    fun k' c' l' hf hk' hl' he => ?_
  obtain ⟨hs, hu, hex⟩ := hok k' l' hf hl' he
  refine (hb.meets_ContainerReallocAt hk' hl' hs hu hex).imp fun _ t ht => ?_
  obtain ⟨cs', st', hcs', hb'⟩ := ht
  exact ⟨k', l', cs', st', hl', he, hcs', hb'⟩

end Steps

end VcmallocBench
