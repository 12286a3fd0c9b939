import VcmallocBench.HyperContainer.GrowPass
import VcmallocBench.Manager.Continues

/-! # A whole batch

What `ContainerRealloc2` leaves when no call fails. Some calls to the heap go
unchecked, so that a batch may also return after one of them has failed.
-/

namespace VcmallocBench

open Paging

section Unless

variable {s : State} {F : ℕ} {G : Prop} {α β : Type}

theorem Continues.failures_le {s t : State} (h : Continues s t) :
    s.mach.failures ≤ t.mach.failures := h.calls.sublist.countP_le

/-- A failure that went unchecked is still there in the end. -/
theorem meets_bind_unless {p : Op β} {f : β → Op α} {P : β → State → Prop} {Q : α → State → Prop}
    (hp : Meets p s (fun b t => F < t.mach.failures ∨ P b t) (Blames G F))
    (hc : ∀ b, Leads Continues (f b))
    (hf : ∀ b t, P b t → Meets (f b) t (fun a u => F < u.mach.failures ∨ Q a u) (Blames G F)) :
    Meets (p >>= f) s (fun a u => F < u.mach.failures ∨ Q a u) (Blames G F) := by
  refine (meets_bind p f).mpr (hp.imp fun b t ht => ?_)
  rcases ht with hlt | hP
  · exact ((hc b) t).mono (fun _ u hu => Or.inl (hlt.trans_le hu.failures_le))
      fun _ u hu => Or.inl (hlt.trans_le hu.failures_le)
  · exact hf b t hP

variable {os : OS}

theorem meets_HeapAlloc {n : ℕ} (hn : n < 2 ^ 61) (hF : F ≤ s.mach.failures) :
    Meets (HeapAlloc os (u64 (n * sizeofFrame))) s (fun block t => F < t.mach.failures ∨
      block.length = n ∧ ∃ m, s.mach.Quiet m ∧ t = { s with mach := m }) (Blames G F) := by
  have hbytes : u64 (n * sizeofFrame) = n * sizeofFrame := by
    rw [sizeofFrame]
    exact u64_of_lt (by omega)
  rw [hbytes, HeapAlloc, meets_bind, meets_osCall, meets_pure]
  cases hr : s.mach.reply os with
  | false =>
    left
    dsimp only
    rw [Machine.failures_heapCall, hr]
    exact Nat.lt_succ_of_le hF
  | true =>
    right
    have hok : (s.mach.heapCall os (n * sizeofFrame)).1 = true := hr
    refine ⟨?_, _, .heapCall hr, rfl⟩
    rw [hok, if_pos rfl, List.length_map, List.length_range, Nat.mul_div_cancel _ (by decide)]

/-- A page reserved for copies, away from all other reservations. -/
structure Buffer (os : OS) (m : Machine) (buffer : ℕ) : Prop where
  pos : 0 < buffer
  dvd : os.page_size ∣ buffer
  le : buffer + os.page_size ≤ os.addressLimit
  apart : ∀ g ∈ m.regions, buffer + os.page_size ≤ g.base ∨ g.base + g.size ≤ buffer

theorem meets_reservePage (hF : F ≤ s.mach.failures) :
    Meets (osCall (·.reserveCall os 0 os.page_size)) s (fun b t => F < t.mach.failures ∨
      ∃ buffer, b = some buffer ∧ Buffer os s.mach buffer ∧ t = { s with mach := { s.mach with
        regions := ⟨buffer, os.page_size⟩ :: s.mach.regions
        calls := .reserve os.page_size true :: s.mach.calls } }) (Blames G F) := by
  have hbytes : os.page_size ⌈/⌉ os.page_size * os.page_size = os.page_size := by
    have := ceil_mul_self os.page_size_pos 1
    rw [one_mul] at this
    rw [this, one_mul]
  rw [meets_osCall, Machine.reserveCall, hbytes]
  cases hp : os.place s.mach.calls.length s.mach.regions 0 os.page_size with
  | none =>
    left
    dsimp only
    rw [Machine.failures_cons, OsCall.success, if_neg Bool.false_ne_true]
    exact Nat.lt_succ_of_le hF
  | some b =>
    right
    obtain ⟨h₁, -, h₃, h₄, h₅, -⟩ := os.place_spec _ _ _ _ _ hp
    exact ⟨b, rfl, ⟨h₁, os.page_dvd_granularity.trans h₃, h₄, h₅⟩, rfl⟩

end Unless

section Counts

variable {os : OS} {L : List Container} {l : Container} {sizeofT start S N n w : ℕ} {array : List ℕ}
  {p r : ℕ → ℕ}

theorem dvd_backWord (os : OS) (n : ℕ) : os.page_size ∣ backWord os n := by
  have hP := os.page_size_dvd
  have hu : os.page_size ∣ u64 (n * os.page_size) :=
    (Nat.dvd_mod_iff hP).mpr (Nat.dvd_mul_left _ _)
  rw [backWord, sub64]
  refine (Nat.dvd_mod_iff hP).mpr ?_
  rw [zero_add]
  exact Nat.dvd_sub hP hu

theorem Container.moved_counts (hf : l.Fits os) (hw : os.page_size ∣ w) :
    (l.moved w).nbrOfPages os = l.nbrOfPages os ∧ (l.moved w).guestBytes os = l.guestBytes os ∧
      (l.moved w).priorFreeBytes os = l.priorFreeBytes os := by
  refine Container.counts_shift hf (Container.moved_reference_lt w l) ?_
    (Container.moved_bytes w l)
  rw [Container.moved_reference_eq, Container.u64_mod_page, Nat.add_mod, Nat.mod_eq_zero_of_dvd hw, add_zero,
    Nat.mod_mod]

theorem Container.wanted_moved (hf : l.Fits os) (hw : os.page_size ∣ w) (a : ℕ) :
    (l.moved w).wanted os sizeofT a = l.wanted os sizeofT a := by
  obtain ⟨h₁, h₂, h₃⟩ := Container.moved_counts hf hw
  rw [Container.wanted, Container.wanted, Container.requestedPages, Container.requestedPages, h₁, h₂,
    h₃, Container.moved_elements_num]

/-- A container that is cut has the pages that are left to it. -/
structure Cuts (os : OS) (sizeofT start n : ℕ) (p r : ℕ → ℕ) (L : List Container) : Prop where
  fits : ∀ j l, L[start + j]? = some l → j < n → r j < p j → (l.resized os (r j) sizeofT).Fits os
  pages : ∀ j l, L[start + j]? = some l → j < n → r j < p j →
    (l.resized os (r j) sizeofT).nbrOfPages os = r j

theorem getElem?_shrunkList {j : ℕ} (hj : j < n) :
    (shrunkList os sizeofT start n p r L)[start + j]? = L[start + j]?.map
      (Container.cut os sizeofT (p j) (r j) (sumTo (fun k => p k - r k) j)) := by
  rw [shrunkList, getElem?_moveFrom, if_neg (by omega), firstPass, getElem?_passOver]
  cases L[start + j]? with
  | none => rfl
  | some l => rw [Option.map_some, Option.map_some, if_pos (by omega), Nat.add_sub_cancel_left]

theorem Cuts.cut (hc : Cuts os sizeofT start n p r L) {j : ℕ} (hj : j < n) (hf : l.Fits os)
    (hl : L[start + j]? = some l) (hp : p j = l.nbrOfPages os) (steps : ℕ) :
    (l.cut os sizeofT (p j) (r j) steps).Fits os ∧
      (l.cut os sizeofT (p j) (r j) steps).nbrOfPages os = min (p j) (r j) := by
  rw [Container.cut]
  split
  · rename_i hr
    have hfit := hc.fits j l hl hj hr
    rw [(Container.moved_counts hfit (dvd_backWord os steps)).1, hc.pages j l hl hj hr]
    exact ⟨moved_fits _ hfit, (min_eq_right hr.le).symm⟩
  · rename_i hr
    rw [(Container.moved_counts hf (dvd_backWord os steps)).1, ← hp]
    exact ⟨moved_fits _ hf, (min_eq_left (not_lt.mp hr)).symm⟩

theorem min_add_sub (a b : ℕ) : min a b + (a - b) = a := by omega

theorem sub_min (a b : ℕ) : b - min a b = b - a := by omega

theorem sumTo_sub_min (p r : ℕ → ℕ) (n : ℕ) :
    sumTo (fun j => r j - min (p j) (r j)) n = sumTo (fun j => r j - p j) n :=
  sumTo_congr fun j _ => sub_min (p j) (r j)

theorem sumTo_min_add (p r : ℕ → ℕ) (n : ℕ) :
    sumTo (fun j => min (p j) (r j)) n + sumTo (fun j => p j - r j) n = sumTo p n := by
  rw [← sumTo_add]
  exact sumTo_congr fun j _ => min_add_sub (p j) (r j)

theorem Listed.shrunk (hl : Listed os sizeofT start S N array p r L)
    (hc : Cuts os sizeofT start array.length p r L) :
    Listed os sizeofT start S (N - sumTo (fun j => p j - r j) array.length)
      (markedEntries p r array.length array) (fun j => min (p j) (r j)) r
      (shrunkList os sizeofT start array.length p r L) := by
  have hlen : (markedEntries p r array.length array).length = array.length := List.length_mapIdx
  have hmin := sumTo_min_add p r array.length
  have hsub := sumTo_sub_min p r array.length
  have hend := hl.end_le
  have hwords := hl.words
  have hentry : ∀ j d, L[start + j]? = some d → j < array.length →
      p j = d.nbrOfPages os ∧ ∃ a, array[j]? = some a ∧ r j = d.wanted os sizeofT a := by
    intro j d hd hj
    have ha := List.getElem?_eq_getElem hj
    exact ⟨hl.has j d _ hd ha, _, ha, hl.wants j d _ hd ha⟩
  constructor
  case length_le =>
    rw [hlen, shrunkList, length_moveFrom, firstPass, length_passOver]
    exact hl.length_le
  case fits =>
    intro d hd
    obtain ⟨k, hk⟩ := List.mem_iff_getElem?.mp hd
    rw [shrunkList, getElem?_moveFrom, firstPass, getElem?_passOver] at hk
    cases hL : L[k]? with
    | none =>
      rw [hL] at hk
      split at hk <;> cases hk
    | some d₀ =>
      have hf := hl.fits d₀ (List.mem_of_getElem? hL)
      rw [hL, Option.map_some] at hk
      split at hk
      · rw [if_neg (by omega), Option.map_some, Option.some_inj] at hk
        rw [← hk]
        exact moved_fits _ hf
      · split at hk
        · rename_i h₁ h₂
          rw [Option.some_inj] at hk
          rw [← hk]
          have hL' : L[start + (k - start)]? = some d₀ := by rwa [Nat.add_sub_cancel' h₂.1]
          have hlt : k - start < array.length := by omega
          exact (hc.cut hlt hf hL' (hentry _ _ hL' hlt).1 _).1
        · rw [Option.some_inj] at hk
          rw [← hk]
          exact hf
  case has =>
    intro j d a hd ha
    have hj : j < array.length := hlen ▸ (List.getElem?_eq_some_iff.mp ha).1
    rw [getElem?_shrunkList hj, Option.map_eq_some_iff] at hd
    obtain ⟨d₀, hL, rfl⟩ := hd
    have hf := hl.fits d₀ (List.mem_of_getElem? hL)
    exact (hc.cut hj hf hL (hentry j d₀ hL hj).1 _).2.symm
  case wants =>
    intro j d a hd ha
    have hj : j < array.length := hlen ▸ (List.getElem?_eq_some_iff.mp ha).1
    rw [getElem?_shrunkList hj, Option.map_eq_some_iff] at hd
    obtain ⟨d₀, hL, rfl⟩ := hd
    have hf := hl.fits d₀ (List.mem_of_getElem? hL)
    obtain ⟨hp, a₀, ha₀, hr⟩ := hentry j d₀ hL hj
    rw [getElem?_markedEntries, ha₀, Option.map_some, Option.some_inj] at ha
    by_cases hlt : r j < p j
    · -- the entry has become one that keeps the container
      rw [if_pos ⟨hj, hlt⟩] at ha
      rw [← ha, Container.wanted, if_pos (Or.inr rfl), (hc.cut hj hf hL hp _).2, min_eq_right hlt.le]
    · rw [if_neg fun h => hlt h.2] at ha
      rw [← ha, Container.cut, if_neg hlt, Container.wanted_moved hf (dvd_backWord os _), hr]
  case end_le =>
    rw [hlen]
    omega
  case words =>
    rw [hlen]
    omega

end Counts

/-- The pages from an address on lie in one reservation of `m`, or are the one page that was reserved
for copies, which is unmapped again in `m'`. -/
def MapsInto (os : OS) (m m' : Machine) (address pages : ℕ) : Prop :=
  (∃ g ∈ m.regions, g.base ≤ address ∧ address + pages * os.page_size ≤ g.base + g.size) ∨
    pages = 1 ∧ Buffer os m address ∧ m'.pageTable (address / os.page_size) = none

/-- What the second pass leaves, with the frames `new` allocated for it. Some page away from all
reservations has been in use. -/
structure Regrown (os : OS) (s t : State) (refs : List PtrLoc) (st spare : List Frame)
    (L : List Container) (sizeofT start S N : ℕ) (l : Container) (n : ℕ) (p r : ℕ → ℕ)
    (new : List Frame) : Prop where
  tabled : ∃ st', Tabled os refs st' (grownList os sizeofT start n p r L) t ∧
    st'.take t.ctx.pfns_num_ = st.take S ++
      grownFrames (st.take s.ctx.pfns_num_) spare S s.ctx.pfns_num_ n p r
  pfns_num : t.ctx.pfns_num_ = s.ctx.pfns_num_ + sumTo (fun j => r j - p j) n
  size : t.ctx.hypercontainer_size_ = s.ctx.hypercontainer_size_
  pageTable : ∃ q, (∀ g ∈ s.mach.regions,
      (q + 1) * os.page_size ≤ g.base ∨ g.base + g.size ≤ q * os.page_size) ∧
    ∀ x ≠ q, t.mach.pageTable x = remapPages s.mach.pageTable (l.mappingAddress os / os.page_size)
      (N - S) (grownFrames (st.take s.ctx.pfns_num_) spare S s.ctx.pfns_num_ n p r) x
  regions : ∀ g ∈ t.mach.regions, g ∈ s.mach.regions
  regions_keep : ∀ g ∈ s.mach.regions, 0 < g.size → g ∈ t.mach.regions
  region : grownFrames (st.take s.ctx.pfns_num_) spare S s.ctx.pfns_num_ n p r ≠ [] →
    MapsInto os s.mach t.mach (l.mappingAddress os)
      (grownFrames (st.take s.ctx.pfns_num_) spare S s.ctx.pfns_num_ n p r).length
  vars : ∀ x, .var x ∉ refs → t.mach.vars x = s.mach.vars x
  allocated : t.mach.allocated = new ++ s.mach.allocated
  failures : t.mach.failures = s.mach.failures
  legal : ∀ c ∈ t.mach.calls, c ∈ s.mach.calls ∨ c.Legal
  data : ∃ buffer d, Buffer os s.mach buffer ∧ (∀ f ∉ new, d f = s.mach.frameData f) ∧
    (∀ f ∈ new, ∃ k, d f = os.contents k f) ∧
    t.mach.frameData = grownData os s.mach.pageTable buffer start n p r spare L d n

section Growth

variable {os : OS} {s : State} {refs : List PtrLoc} {st : List Frame} {L : List Container}
  {sizeofT start S N F D : ℕ} {array : List ℕ} {p r : ℕ → ℕ} {v : Pass} {l : Container} {G : Prop}

theorem continues_growTail (sizeofT start S N size post num : ℕ) (v : Pass) (temp : List Frame)
    (buffer : ℕ) : Leads Continues (growTail os sizeofT start S N size post num v temp buffer) := by
  refine (continues_AssertPfnsStorage os _).bind fun _ => ?_
  refine (Leads.foldlM (fun _ _ => continues_growRound os _ _ _ _) _ _).bind fun v => ?_
  refine (continues_shiftReferences os _ _).bind fun _ => ?_
  refine (continues_commitPages os _ _ _ _ _ _ _).bind fun v => ?_
  refine (continues_HeapFree os).bind fun _ => (continues_ensure _ _).bind fun _ => ?_
  exact (continues_releaseCall os _).bind fun _ => continues_ensure _ _

/-- The second pass takes no frame behind those asked for. -/
theorem grownFrames_take (fs spare : List Frame) (S N n : ℕ) (p r : ℕ → ℕ) :
    grownFrames fs (spare.take (sumTo (fun j => r j - p j) n)) S N n p r =
      grownFrames fs spare S N n p r := by
  rw [grownFrames, grownFrames, joined_congr_right fun j hj => ?_]
  have h₁ := sumTo_le (fun j => r j - p j) hj
  have h₂ := sumTo_succ (fun j => r j - p j) j
  exact slice_take (by omega)

theorem Buffer.page {m : Machine} {q x : ℕ} (h : Buffer os m (os.page_size * q)) (hx : x ≠ q) :
    ∀ g ∈ (⟨os.page_size * q, os.page_size⟩ :: m.regions : List Region), g.base = os.page_size * q →
      ¬ (os.page_size * q ≤ x * os.page_size ∧ x * os.page_size < os.page_size * q + g.size) := by
  rintro g hg hb ⟨h₁, h₂⟩
  rcases List.mem_cons.mp hg with rfl | hg
  · dsimp only at h₂
    rw [mul_comm x] at h₁ h₂
    rw [← Nat.mul_succ] at h₂
    have h₃ := Nat.le_of_mul_le_mul_left h₁ os.page_size_pos
    have h₄ := Nat.lt_of_mul_lt_mul_left h₂
    omega
  · have := h.apart g hg
    have := os.page_size_pos
    omega

/-- The buffer was away from all reservations, and is gone again. -/
theorem Grown.regrown {t : State} {v' : Pass} {m m₂ : Machine} {buffer : ℕ} {new : List Frame}
    (ht : ToppedUp os s ⟨m, s.ctx⟩ v v' D (sumTo (fun j => r j - p j) array.length) new)
    (hm₂ : m.Quiet m₂) (hbuf : Buffer os m₂ buffer)
    (hgr : Grown os ⟨{ m₂ with
        regions := ⟨buffer, os.page_size⟩ :: m₂.regions
        calls := .reserve os.page_size true :: m₂.calls }, s.ctx⟩ t refs st v'.sparePFNs L sizeofT
      start S N buffer l array.length p r) :
    Regrown os s t refs st ((v.sparePFNs.take D).take (sumTo (fun j => r j - p j) array.length) ++ new)
      L sizeofT start S N l array.length p r new := by
  obtain ⟨d, calls, hmach, hcalls, hd, hcontents⟩ := ht.mach
  dsimp only at hmach
  have heq := hm₂.eq
  have hvars : m₂.vars = s.mach.vars := by rw [heq, hmach]
  have hpt : m₂.pageTable = s.mach.pageTable := by rw [heq, hmach]
  have hregions : m₂.regions = s.mach.regions := by rw [heq, hmach]
  have halloc : m₂.allocated = new ++ s.mach.allocated := by rw [heq, hmach]
  have hdata : m₂.frameData = d := by rw [heq, hmach]
  have hbuf' : Buffer os s.mach buffer := ⟨hbuf.pos, hbuf.dvd, hbuf.le, hregions ▸ hbuf.apart⟩
  obtain ⟨q, rfl⟩ := hbuf.dvd
  have hdiv : os.page_size * q / os.page_size = q := Nat.mul_div_cancel_left _ os.page_size_pos
  have hfs := grownFrames_take (st.take s.ctx.pfns_num_) v'.sparePFNs S s.ctx.pfns_num_ array.length p r
  rw [ht.spare] at hfs
  constructor
  case tabled =>
    obtain ⟨st', htab, htake⟩ := hgr.tabled
    exact ⟨st', htab, by rw [htake, hfs]⟩
  case pfns_num => exact hgr.pfns_num
  case size => exact hgr.size
  case pageTable =>
    refine ⟨q, fun g hg => ?_, fun x hx => ?_⟩
    · have := hbuf'.apart g hg
      rw [add_mul, one_mul, mul_comm q]
      exact this
    · rw [hgr.pageTable x (by rwa [hdiv]) (hbuf.page hx), hfs]
      dsimp only
      rw [hpt]
  case regions =>
    intro g hg
    rw [hgr.regions, List.mem_filter, List.mem_cons] at hg
    obtain ⟨rfl | hg, hne⟩ := hg
    · simp at hne
    · rwa [hregions] at hg
  case regions_keep =>
    intro g hg hpos
    rw [hgr.regions, List.mem_filter]
    refine ⟨List.mem_cons_of_mem _ (by rwa [hregions]), ?_⟩
    have := hbuf'.apart g hg
    have := os.page_size_pos
    rw [bne_iff_ne]
    intro he
    omega
  case region =>
    intro hne
    rw [hfs] at hne ⊢
    obtain ⟨g, hg, hin⟩ := List.any_eq_true.mp (hgr.region hne)
    obtain ⟨hlow, hhigh⟩ := of_decide_eq_true hin
    rcases List.mem_cons.mp hg with rfl | hg
    · have hpos := List.length_pos_iff.mpr hne
      have hP := os.page_size_pos
      generalize (grownFrames (st.take s.ctx.pfns_num_) v'.sparePFNs S s.ctx.pfns_num_ array.length p
        r).length = k at *
      have hk : k = 1 := by
        refine le_antisymm (Nat.le_of_mul_le_mul_right ?_ hP) hpos
        dsimp only at hlow hhigh
        omega
      subst hk
      have haddr : l.mappingAddress os = os.page_size * q := by
        dsimp only at hlow hhigh
        omega
      refine Or.inr ⟨rfl, haddr ▸ hbuf', hgr.gone _ ⟨_, List.mem_cons_self, rfl, ?_⟩⟩
      rw [haddr, hdiv, mul_comm q]
      dsimp only
      omega
    · exact Or.inl ⟨g, hregions ▸ hg, hlow, hhigh⟩
  case vars =>
    intro x hx
    exact (hgr.mach.vars x hx).trans (congrFun hvars x)
  case allocated => exact hgr.mach.allocated.trans halloc
  case failures =>
    refine (hgr.mach.failures.trans (Machine.failures_cons m₂ (.reserve _ true))).trans ?_
    rw [hmach] at hm₂
    exact hm₂.failures.trans hcalls.failures
  case legal =>
    intro c hc
    rw [hmach] at hm₂
    rcases hgr.mach.legal c hc with hc | hc
    · rcases List.mem_cons.mp hc with rfl | hc
      · exact Or.inr trivial
      · rcases hm₂.legal c hc with hc | hc
        · exact hcalls.legal List.nodup_nil (fun f hf => absurd hf List.not_mem_nil) c hc
        · exact Or.inr hc
    · exact Or.inr hc
  case data =>
    refine ⟨_, d, hbuf', hd, hcontents, ?_⟩
    have hgrown := hgr.data
    dsimp only at hgrown
    rw [hpt, hdata] at hgrown
    rw [hgrown, ← ht.spare]
    exact (grownData_take _ _ _ _ _ _ _ _ _ _ le_rfl).symm

theorem Tabled.meets_growPass (h : Tabled os refs st L s)
    (hl : Listed os sizeofT start S s.ctx.pfns_num_ array p r L) (hle : ∀ j < array.length, p j ≤ r j)
    (hget : L[start]? = some l) (hnum : s.ctx.pfns_num_ ≤ st.length) (hmax : G → 0 < s.ctx.pfns_max_)
    (hN : s.ctx.pfns_num_ ≤ N) (hw : N < 2 ^ 64) (hsteps : v.steps = D) (hD : D < 2 ^ 59)
    (hreq : v.requested_pages = sumTo (fun j => r j - p j) array.length)
    (hlen : D ≤ v.sparePFNs.length) (hentries : v.elements_num_array = array)
    (hcopy : G → ∀ buffer, Buffer os s.mach buffer → ∀ j d, L[start + j]? = some d →
      j < array.length → p j < r j → CopiesUp os s.mach.pageTable buffer d)
    (hF : F ≤ s.mach.failures) :
    Meets (growPass os sizeofT start S N array.length
      (s.ctx.pfns_num_ - (S + sumTo p array.length)) v) s
      (fun _ t => F < t.mach.failures ∨ ∃ new,
        new.length = sumTo (fun j => r j - p j) array.length - D ∧ new.Nodup ∧
        (∀ f ∈ new, f ∉ s.mach.allocated) ∧
        Regrown os s t refs st ((v.sparePFNs.take D).take
          (sumTo (fun j => r j - p j) array.length) ++ new) L sizeofT start S N l array.length p r
          new) (Blames G F) := by
  have hwords := hl.words
  rw [growPass_eq, meets_bind]
  refine (meets_topUpSpare hsteps hreq hD (by omega) hlen hF).imp fun v' t ht => ?_
  obtain ⟨new, ht⟩ := ht
  have hreq' : v'.requested_pages = sumTo (fun j => r j - p j) array.length := by
    rw [ht.pass]
    exact hreq
  have hentries' : v'.elements_num_array = array := by
    rw [ht.pass]
    exact hentries
  obtain ⟨m, ctx⟩ := t
  obtain rfl : ctx = s.ctx := ht.ctx
  obtain ⟨d, calls, hmach, hcalls, -, -⟩ := ht.mach
  dsimp only at hmach
  have hsum : u64 (s.ctx.pfns_num_ + sumTo (fun j => r j - p j) array.length) =
      s.ctx.pfns_num_ + sumTo (fun j => r j - p j) array.length := u64_of_lt (by omega)
  have hF₁ : F ≤ m.failures := by
    rw [hmach]
    exact hF.trans hcalls.failures.ge
  rw [meets_bind, meets_getCtx]
  dsimp only
  rw [hreq', hsum]
  refine meets_bind_unless (meets_HeapAlloc (by omega) hF₁)
    (fun temp => (continues_reserveCall os _ _).bind fun b => continues_growTail _ _ _ _ _ _ _ _ _ _)
    fun temp t₂ ht₂ => ?_
  obtain ⟨htemp, m₂, hm₂, rfl⟩ := ht₂
  refine meets_bind_unless (meets_reservePage (hF₁.trans hm₂.failures.ge))
    (fun b => continues_growTail _ _ _ _ _ _ _ _ _ _) fun b t₃ ht₃ => ?_
  obtain ⟨buffer, rfl, hbuf, rfl⟩ := ht₃
  rw [Option.getD_some]
  have hvars : m₂.vars = s.mach.vars := by rw [hm₂.eq, hmach]
  have hpt : m₂.pageTable = s.mach.pageTable := by rw [hm₂.eq, hmach]
  have hregions : m₂.regions = s.mach.regions := by rw [hm₂.eq, hmach]
  have htab : Tabled os refs st L ⟨{ m₂ with
      regions := ⟨buffer, os.page_size⟩ :: m₂.regions
      calls := .reserve os.page_size true :: m₂.calls }, s.ctx⟩ := h.machine hvars
  refine (htab.meets_growTail hl hle hget hnum hmax hN hw hreq' rfl ht.length hentries' htemp
    (fun hg j d' hd hj hlt => ?_) ?_).imp fun _ t hgr =>
      Or.inr ⟨new, ht.new_length, ht.new_nodup, ht.new_fresh, hgr.regrown ht hm₂ hbuf⟩
  · dsimp only
    rw [hpt]
    exact hcopy hg _ ⟨hbuf.pos, hbuf.dvd, hbuf.le, hregions ▸ hbuf.apart⟩ j d' hd hj hlt
  · exact (hF₁.trans hm₂.failures.ge).trans (Machine.failures_cons m₂ (.reserve _ true)).ge

end Growth

def surplusFrames (fs : List Frame) (S n : ℕ) (p r : ℕ → ℕ) : List Frame :=
  (lostFrames fs S n p r).drop (sumTo (fun j => r j - p j) n)

def spareFrames (fs new : List Frame) (S n : ℕ) (p r : ℕ → ℕ) : List Frame :=
  (lostFrames fs S n p r).take (sumTo (fun j => r j - p j) n) ++ new

/-- The frame table from the first listed container on, after a batch. Each container has the frames
that it keeps and then those that it gets. -/
def batchFrames (fs new : List Frame) (S N n : ℕ) (p r : ℕ → ℕ) : List Frame :=
  joined fs (spareFrames fs new S n p r) (fun j => S + sumTo p j) (fun j => min (p j) (r j))
    (fun j => sumTo (fun j => r j - p j) n - sumTo (fun j => r j - p j) (j + 1))
    (fun j => r j - p j) n ++ slice fs (S + sumTo p n) (N - (S + sumTo p n))

/-- The containers after a batch over `n` of them from index `start` on. -/
def batchList (os : OS) (sizeofT start n : ℕ) (p r : ℕ → ℕ) (L : List Container) : List Container :=
  grownList os sizeofT start n (fun j => min (p j) (r j)) r (shrunkList os sizeofT start n p r L)

section Frames

variable {os : OS} {fs st new : List Frame} {S N n sizeofT start : ℕ} {p r : ℕ → ℕ}
  {L : List Container}

theorem listed_le (h : S + sumTo p n ≤ fs.length) {j : ℕ} (hj : j < n) :
    S + sumTo p j + p j ≤ fs.length := by
  have := sumTo_le p hj
  omega

theorem lostFrames_eq : lostFrames fs S n p r =
    pieces fs (fun j => S + sumTo p j + min (p j) (r j)) (fun j => p j - min (p j) (r j)) n := by
  refine List.flatMap_congr fun j _ => ?_
  dsimp only
  rcases Nat.le_total (p j) (r j) with hj | hj
  · rw [min_eq_left hj, Nat.sub_self, Nat.sub_eq_zero_of_le hj, slice_zero, slice_zero]
  · rw [min_eq_right hj]

theorem length_lostFrames (h : S + sumTo p n ≤ fs.length) :
    (lostFrames fs S n p r).length = sumTo (fun j => p j - r j) n := by
  rw [lostFrames_eq, length_pieces fun j hj => ?_]
  · exact sumTo_congr fun j _ => by omega
  · have := listed_le h hj
    omega

theorem length_keptPieces (h : S + sumTo p n ≤ fs.length) :
    (pieces fs (fun j => S + sumTo p j) (fun j => min (p j) (r j)) n).length =
      sumTo (fun j => min (p j) (r j)) n := by
  refine length_pieces fun j hj => ?_
  have := listed_le h hj
  omega

theorem length_keptFrames (r : ℕ → ℕ) (hle : S + sumTo p n ≤ N) (h : N ≤ fs.length) :
    S + (keptFrames fs S N n p r).length = N - sumTo (fun j => p j - r j) n := by
  have hmin := sumTo_min_add p r n
  rw [keptFrames, List.length_append, length_keptPieces (hle.trans h), length_slice (by omega)]
  omega

theorem keptFrames_perm (hle : S + sumTo p n ≤ N) (h : fs.length = N) :
    (fs.take S ++ keptFrames fs S N n p r ++ lostFrames fs S n p r).Perm fs := by
  have hcut := pieces_cut fs S (i := n) (p := p) (r := fun j => min (p j) (r j))
    fun j _ => min_le_left _ _
  rw [← lostFrames_eq] at hcut
  have hall : fs.take S ++ (slice fs S (sumTo p n) ++ slice fs (S + sumTo p n) (N - (S + sumTo p n))) =
      fs := by
    rw [slice_append_slice, take_append_slice, List.take_of_length_le (by omega)]
  refine List.Perm.trans ?_ (List.Perm.of_eq hall)
  rw [List.append_assoc, keptFrames, List.append_assoc]
  refine List.Perm.append_left _ ?_
  refine ((List.perm_append_comm).append_left _).trans ?_
  rw [← List.append_assoc]
  exact hcut.append_right _

theorem grownFrames_keptFrames (hle : S + sumTo p n ≤ N) (h : fs.length = N) (spare : List Frame) :
    grownFrames (fs.take S ++ keptFrames fs S N n p r) spare S (N - sumTo (fun j => p j - r j) n) n
      (fun j => min (p j) (r j)) r =
    joined fs spare (fun j => S + sumTo p j) (fun j => min (p j) (r j))
      (fun j => sumTo (fun j => r j - p j) n - sumTo (fun j => r j - p j) (j + 1))
      (fun j => r j - p j) n ++ slice fs (S + sumTo p n) (N - (S + sumTo p n)) := by
  have hS : (fs.take S).length = S := by
    rw [List.length_take]
    omega
  have hlen := length_keptPieces (r := r) (hle.trans h.ge)
  have hmin := sumTo_min_add p r n
  have hread : ∀ i m, slice (fs.take S ++ keptFrames fs S N n p r) (S + i) m =
      slice (keptFrames fs S N n p r) i m := fun i m => by
    have := slice_append_right (fs.take S) (keptFrames fs S N n p r) i m
    rwa [hS] at this
  rw [grownFrames]
  simp only [sub_min, hread]
  congr 1
  · refine List.flatMap_congr fun j hj => ?_
    have hj' := List.mem_range.mp hj
    have := sumTo_le (fun j => min (p j) (r j)) hj'
    dsimp only at this ⊢
    rw [hread, keptFrames, slice_append_left (by omega), slice_pieces (fun k hk => ?_) hj']
    have := listed_le (hle.trans h.ge) hk
    omega
  · have hend := slice_append_right (pieces fs (fun j => S + sumTo p j) (fun j => min (p j) (r j)) n)
      (slice fs (S + sumTo p n) (N - (S + sumTo p n))) 0 (N - (S + sumTo p n))
    rw [hlen, add_zero] at hend
    rw [keptFrames, show N - sumTo (fun j => p j - r j) n - (S + sumTo (fun j => min (p j) (r j)) n) =
      N - (S + sumTo p n) by omega, hend, slice, List.drop_zero, slice, List.take_take, Nat.min_self]

/-- Without a container that grows, the second pass would change nothing. -/
theorem grownList_none (h : sumTo (fun j => r j - p j) n = 0)
    (hlt : ∀ d ∈ L, d.reference_ < 2 ^ 64) : grownList os sizeofT start n p r L = L := by
  have hz : ∀ j ≤ n, sumTo (fun j => r j - p j) j = 0 := fun j hj =>
    Nat.eq_zero_of_le_zero (h ▸ sumTo_mono _ hj)
  refine List.ext_getElem? fun j => ?_
  rw [grownList, getElem?_moveFrom, secondPass, getElem?_passOver, h]
  cases hj : L[j]? with
  | none => split <;> rfl
  | some d =>
    have hd := hlt d (List.mem_of_getElem? hj)
    rw [Option.map_some]
    split
    · rw [if_neg (by omega), Option.map_some, zero_mul]
      exact congrArg some (Container.moved_zero hd)
    · split
      · rename_i h₁ h₂
        have hle := sumTo_le (fun j => r j - p j) (i := j - start) (j := n) (by omega)
        rw [Container.grown, if_neg (by omega), hz _ (by omega), backWord_zero]
        exact congrArg some (Container.moved_zero hd)
      · rfl

end Frames

/-- The pages that hold the frames of a table which a batch keeps. -/
def keptTable (os : OS) (s : State) (st : List Frame) (S : ℕ) (l : Container) (n : ℕ) (p r : ℕ → ℕ) :
    ℕ → Option Frame := fun x =>
  (remapPages s.mach.pageTable (l.mappingAddress os / os.page_size) (s.ctx.pfns_num_ - S)
    (keptFrames (st.take s.ctx.pfns_num_) S s.ctx.pfns_num_ n p r) x).filter
      (· ∉ surplusFrames (st.take s.ctx.pfns_num_) S n p r)

/-- What a batch leaves, with the frames `new` allocated for it. Some page away from all reservations
may have been in use. -/
structure Batched (os : OS) (s t : State) (refs : List PtrLoc) (st : List Frame)
    (L : List Container) (sizeofT start S : ℕ) (l : Container) (n : ℕ) (p r : ℕ → ℕ)
    (new : List Frame) : Prop where
  tabled : ∃ st', Tabled os refs st' (batchList os sizeofT start n p r L) t ∧
    st'.take t.ctx.pfns_num_ = st.take S ++
      batchFrames (st.take s.ctx.pfns_num_) new S s.ctx.pfns_num_ n p r
  pfns_num : t.ctx.pfns_num_ =
    s.ctx.pfns_num_ - sumTo (fun j => p j - r j) n + sumTo (fun j => r j - p j) n
  size : t.ctx.hypercontainer_size_ = s.ctx.hypercontainer_size_
  new_length : new.length = sumTo (fun j => r j - p j) n - sumTo (fun j => p j - r j) n
  new_nodup : new.Nodup
  new_fresh : ∀ f ∈ new, f ∉ s.mach.allocated
  allocated : t.mach.allocated = new ++ s.mach.allocated.filter
    (· ∉ surplusFrames (st.take s.ctx.pfns_num_) S n p r)
  pageTable : (st.take s.ctx.pfns_num_).Nodup → ∃ away : Set ℕ, (∀ q ∈ away, ∀ g ∈ s.mach.regions,
      (q + 1) * os.page_size ≤ g.base ∨ g.base + g.size ≤ q * os.page_size) ∧
    ∀ x ∉ away, t.mach.pageTable x = remapPages
      (fun y => (s.mach.pageTable y).filter (· ∉ surplusFrames (st.take s.ctx.pfns_num_) S n p r))
      (l.mappingAddress os / os.page_size) (s.ctx.pfns_num_ - S)
      (batchFrames (st.take s.ctx.pfns_num_) new S s.ctx.pfns_num_ n p r) x
  regions : ∀ g ∈ t.mach.regions, g ∈ s.mach.regions
  regions_keep : ∀ g ∈ s.mach.regions, 0 < g.size → g ∈ t.mach.regions
  region : batchFrames (st.take s.ctx.pfns_num_) new S s.ctx.pfns_num_ n p r ≠ [] →
    MapsInto os s.mach t.mach (l.mappingAddress os)
      (batchFrames (st.take s.ctx.pfns_num_) new S s.ctx.pfns_num_ n p r).length
  vars : ∀ x, .var x ∉ refs → t.mach.vars x = s.mach.vars x
  legal : (st.take s.ctx.pfns_num_).Nodup → (∀ f ∈ st.take s.ctx.pfns_num_, f ∈ s.mach.allocated) →
    ∀ call ∈ t.mach.calls, call ∈ s.mach.calls ∨ call.Legal
  data : ∃ buffer d, (0 < sumTo (fun j => r j - p j) n → Buffer os s.mach buffer) ∧
    (∀ f ∉ new, d f = shrunkData os s.mach.pageTable start p r L s.mach.frameData n f) ∧
    (∀ f ∈ new, ∃ k, d f = os.contents k f) ∧
    t.mach.frameData = grownData os (keptTable os s st S l n p r) buffer start n
      (fun j => min (p j) (r j)) r (spareFrames (st.take s.ctx.pfns_num_) new S n p r)
      (shrunkList os sizeofT start n p r L) d n

section Batch

variable {os : OS} {s : State} {refs : List PtrLoc} {st temp spare : List Frame} {L : List Container}
  {sizeofT start F : ℕ} {array : List ℕ} {p r : ℕ → ℕ} {l : Container} {G : Prop}

section Remapped

variable {pt : ℕ → Option Frame} {first behind : ℕ} {fs gs sp : List Frame}

/-- Frames that are not mapped may be freed before or after others are mapped. -/
theorem filter_remapPages (h : ∀ f ∈ fs, f ∉ sp) (x : ℕ) :
    (remapPages pt first behind fs x).filter (· ∉ sp) =
      remapPages (fun y => (pt y).filter (· ∉ sp)) first behind fs x := by
  rw [remapPages, remapPages, unmapPages, unmapPages]
  split
  · cases hf : fs[x - first]? with
    | none => rfl
    | some f => rw [Option.filter_some, if_pos (by simpa using h f (List.mem_of_getElem? hf))]
  · split
    · rfl
    · rfl

theorem remapPages_remapPages (h : gs.length ≤ behind) (x : ℕ) :
    remapPages (fun y => (remapPages pt first behind gs y).filter (· ∉ sp)) first behind fs x =
      remapPages (fun y => (pt y).filter (· ∉ sp)) first behind fs x := by
  rw [remapPages, remapPages, unmapPages, unmapPages]
  split
  · rfl
  · split
    · rfl
    · rename_i h₁ h₂
      rw [remapPages, if_neg (by omega), unmapPages, if_neg h₂]

end Remapped

section Outcome

variable {S : ℕ} {v : Pass} {t u : State} {calls : List OsCall} {new : List Frame}

theorem lostFrames_take {N n : ℕ} (hle : S + sumTo p n ≤ N) :
    lostFrames st S n p r = lostFrames (st.take N) S n p r := by
  rw [lostFrames_eq, lostFrames_eq]
  refine pieces_congr fun j hj => (slice_take ?_).symm
  have := sumTo_le p hj
  omega

theorem keptFrames_take (st : List Frame) (r : ℕ → ℕ) {N n : ℕ} (hle : S + sumTo p n ≤ N) :
    keptFrames st S N n p r = keptFrames (st.take N) S N n p r := by
  rw [keptFrames, keptFrames, slice_take (by omega), pieces_congr fun j hj => (slice_take ?_).symm]
  have := sumTo_le p hj
  omega

theorem Shrunk.surplus (hs : Shrunk os s t refs st L sizeofT start S l array p r v)
    (hl : Listed os sizeofT start S s.ctx.pfns_num_ array p r L) :
    slice v.sparePFNs (sumTo (fun j => r j - p j) array.length)
      (sumTo (fun j => p j - r j) array.length - sumTo (fun j => r j - p j) array.length) =
      surplusFrames (st.take s.ctx.pfns_num_) S array.length p r := by
  have hspare := hs.spare
  rw [hs.steps, lostFrames_take hl.end_le] at hspare
  rw [surplusFrames, ← hspare, List.drop_take, slice]

/-- The frames of the containers are held, each once, and those cut off are some of them. -/
theorem surplusFrames_spec {fs : List Frame} {N n : ℕ} (hle : S + sumTo p n ≤ N)
    (hlen : fs.length = N) (hnd : fs.Nodup) : (surplusFrames fs S n p r).Nodup ∧
    (∀ f ∈ surplusFrames fs S n p r, f ∈ fs) ∧
    ∀ f ∈ fs.take S ++ keptFrames fs S N n p r, f ∉ surplusFrames fs S n p r := by
  have hperm := keptFrames_perm (r := r) hle hlen
  have hall := hperm.nodup_iff.mpr hnd
  rw [List.nodup_append] at hall
  obtain ⟨-, hlost, hdis⟩ := hall
  have hsub : (surplusFrames fs S n p r).Sublist (lostFrames fs S n p r) := List.drop_sublist _ _
  exact ⟨hsub.nodup hlost, fun f hf => hperm.subset (List.mem_append_right _ (hsub.subset hf)),
    fun f hf hs => hdis f hf f (hsub.subset hs) rfl⟩

/-- A batch in which no container grows ends here. -/
theorem Shrunk.batched (hs : Shrunk os s t refs st L sizeofT start S l array p r v)
    (hl : Listed os sizeofT start S s.ctx.pfns_num_ array p r L)
    (hc : Cuts os sizeofT start array.length p r L) (hnum : s.ctx.pfns_num_ ≤ st.length)
    (hcalls : t.mach.Calls (surplusFrames (st.take s.ctx.pfns_num_) S array.length p r) calls)
    (hT : sumTo (fun j => r j - p j) array.length = 0) :
    Batched os s ⟨t.mach.freed (surplusFrames (st.take s.ctx.pfns_num_) S array.length p r) calls,
      t.ctx⟩ refs st L sizeofT start S l array.length p r [] := by
  have hend := hl.end_le
  have hlen : (st.take s.ctx.pfns_num_).length = s.ctx.pfns_num_ := by
    rw [List.length_take, Nat.min_eq_left hnum]
  have hkept := keptFrames_take st r hend
  have hklen := length_keptFrames r hend hlen.ge
  have hlist : batchList os sizeofT start array.length p r L =
      shrunkList os sizeofT start array.length p r L :=
    grownList_none (by rw [sumTo_sub_min, hT]) fun d hd => ((hl.shrunk hc).fits d hd).reference_lt
  have hframes : batchFrames (st.take s.ctx.pfns_num_) [] S s.ctx.pfns_num_ array.length p r =
      keptFrames (st.take s.ctx.pfns_num_) S s.ctx.pfns_num_ array.length p r := by
    rw [batchFrames, keptFrames, joined_eq_pieces fun j hj => ?_]
    have := sumTo_le (fun j => r j - p j) hj
    omega
  have halloc : t.mach.allocated = s.mach.allocated := hs.mach.allocated
  have hregions : t.mach.regions = s.mach.regions := hs.mach.regions
  constructor
  case tabled =>
    refine ⟨_, (hlist ▸ hs.tabled).machine rfl, ?_⟩
    have hfit : S + (keptFrames st S s.ctx.pfns_num_ array.length p r).length ≤ st.length := by
      rw [hkept]
      omega
    dsimp only
    rw [hs.pfns_num, hframes, take_overwrite hfit (by rw [hkept, hklen]), hkept]
  case pfns_num =>
    rw [hT, add_zero]
    exact hs.pfns_num
  case size => exact hs.size
  case new_length => rw [hT, Nat.zero_sub, List.length_nil]
  case new_nodup => exact List.nodup_nil
  case new_fresh => exact fun f hf => absurd hf List.not_mem_nil
  case allocated =>
    rw [List.nil_append, ← halloc]
    rfl
  case pageTable =>
    intro hnd
    refine ⟨∅, fun q hq => absurd hq (Set.notMem_empty q), fun x _ => ?_⟩
    have hout := (surplusFrames_spec (p := p) (r := r) hend hlen hnd).2.2
    have hpt : (t.mach.freed (surplusFrames (st.take s.ctx.pfns_num_) S array.length p r)
      calls).pageTable x = (t.mach.pageTable x).filter
        (· ∉ surplusFrames (st.take s.ctx.pfns_num_) S array.length p r) := rfl
    dsimp only
    rw [hpt, hs.pageTable, hkept, hframes]
    exact filter_remapPages (fun f hf => hout f (List.mem_append_right _ hf)) x
  case regions =>
    intro g hg
    rwa [← hregions]
  case regions_keep =>
    intro g hg _
    rwa [← hregions] at hg
  case region =>
    intro hne
    rw [hframes, ← hkept] at hne ⊢
    obtain ⟨g, hg, hin⟩ := List.any_eq_true.mp (hs.region hne)
    exact Or.inl ⟨g, hg, of_decide_eq_true hin⟩
  case vars => exact hs.mach.vars
  case legal =>
    intro hnd hheld call hcall
    obtain ⟨h₁, h₂, -⟩ := surplusFrames_spec (p := p) (r := r) hend hlen hnd
    rcases hcalls.legal h₁ (fun f hf => by rw [halloc]; exact hheld f (h₂ f hf)) call hcall with hc | hc
    · exact hs.mach.legal call hc
    · exact Or.inr hc
  case data =>
    refine ⟨0, _, fun hpos => absurd hT hpos.ne', fun _ _ => congrFun hs.data _,
      fun f hf => absurd hf List.not_mem_nil, ?_⟩
    rw [grownData_none]
    · rfl
    · intro j hj
      have := sumTo_le (fun j => r j - p j) hj
      omega

theorem Regrown.batched {w : State} {l' : Container}
    (h : Regrown os ⟨t.mach.freed (surplusFrames (st.take s.ctx.pfns_num_) S array.length p r) calls,
      t.ctx⟩ w refs (overwrite st S (keptFrames st S s.ctx.pfns_num_ array.length p r))
      ((v.sparePFNs.take v.steps).take (sumTo (fun j => r j - min (p j) (r j)) array.length) ++ new)
      (shrunkList os sizeofT start array.length p r L) sizeofT start S s.ctx.pfns_num_ l'
      array.length (fun j => min (p j) (r j)) r new)
    (hs : Shrunk os s t refs st L sizeofT start S l array p r v)
    (hl : Listed os sizeofT start S s.ctx.pfns_num_ array p r L) (hnum : s.ctx.pfns_num_ ≤ st.length)
    (hmap : l'.mappingAddress os = l.mappingAddress os)
    (hcalls : t.mach.Calls (surplusFrames (st.take s.ctx.pfns_num_) S array.length p r) calls)
    (hlength : new.length =
      sumTo (fun j => r j - p j) array.length - sumTo (fun j => p j - r j) array.length)
    (hnodup : new.Nodup)
    (hfresh : ∀ f ∈ new, f ∉ (t.mach.freed
      (surplusFrames (st.take s.ctx.pfns_num_) S array.length p r) calls).allocated) :
    Batched os s w refs st L sizeofT start S l array.length p r new := by
  have hend := hl.end_le
  have hlen : (st.take s.ctx.pfns_num_).length = s.ctx.pfns_num_ := by
    rw [List.length_take, Nat.min_eq_left hnum]
  have hkept := keptFrames_take st r hend
  have hklen := length_keptFrames r hend hlen.ge
  have halloc : t.mach.allocated = s.mach.allocated := hs.mach.allocated
  have hregions : t.mach.regions = s.mach.regions := hs.mach.regions
  have hfit : S + (keptFrames st S s.ctx.pfns_num_ array.length p r).length ≤ st.length := by
    rw [hkept]
    omega
  have htable : (overwrite st S (keptFrames st S s.ctx.pfns_num_ array.length p r)).take
      t.ctx.pfns_num_ = (st.take s.ctx.pfns_num_).take S ++
        keptFrames (st.take s.ctx.pfns_num_) S s.ctx.pfns_num_ array.length p r := by
    rw [hs.pfns_num, take_overwrite hfit (by rw [hkept, hklen]), hkept, List.take_take,
      Nat.min_eq_left (by omega)]
  have hspare := hs.spare
  rw [lostFrames_take hend] at hspare
  have hframes : grownFrames ((overwrite st S (keptFrames st S s.ctx.pfns_num_ array.length p r)).take
      t.ctx.pfns_num_) ((v.sparePFNs.take v.steps).take
        (sumTo (fun j => r j - min (p j) (r j)) array.length) ++ new) S t.ctx.pfns_num_ array.length
        (fun j => min (p j) (r j)) r =
      batchFrames (st.take s.ctx.pfns_num_) new S s.ctx.pfns_num_ array.length p r := by
    rw [htable, hspare, sumTo_sub_min, hs.pfns_num, grownFrames_keptFrames hend hlen, batchFrames,
      spareFrames]
  have hsurplus : (surplusFrames (st.take s.ctx.pfns_num_) S array.length p r).length =
      sumTo (fun j => p j - r j) array.length - sumTo (fun j => r j - p j) array.length := by
    rw [surplusFrames, List.length_drop, length_lostFrames (hend.trans hlen.ge)]
  constructor
  case tabled =>
    obtain ⟨st', htab, htake⟩ := h.tabled
    refine ⟨st', htab, ?_⟩
    dsimp only at htake
    rw [htake, hframes, take_overwrite_of_le le_rfl (by omega)]
  case pfns_num =>
    have hsum := h.pfns_num
    dsimp only at hsum
    rw [hsum, hs.pfns_num, sumTo_sub_min]
  case size => exact h.size.trans hs.size
  case new_length => exact hlength
  case new_nodup => exact hnodup
  case new_fresh =>
    -- frames are allocated only if none was left over
    intro f hf hheld
    have hpos := List.length_pos_of_mem hf
    have hnil : surplusFrames (st.take s.ctx.pfns_num_) S array.length p r = [] :=
      List.length_eq_zero_iff.mp (by omega)
    refine hfresh f hf ?_
    rw [hnil]
    exact List.mem_filter.mpr ⟨halloc ▸ hheld, by simp⟩
  case allocated =>
    rw [← halloc]
    exact h.allocated
  case pageTable =>
    intro _
    obtain ⟨q, hq, hpt⟩ := h.pageTable
    dsimp only at hq hpt
    refine ⟨{q}, fun x hx g hg => ?_, fun x hx => ?_⟩
    · rw [Set.mem_singleton_iff.mp hx]
      exact hq g (show g ∈ t.mach.regions from hregions ▸ hg)
    · rw [hpt x hx, hframes, hmap]
      have hfreed : (t.mach.freed (surplusFrames (st.take s.ctx.pfns_num_) S array.length p r)
        calls).pageTable = fun y => (t.mach.pageTable y).filter
          (· ∉ surplusFrames (st.take s.ctx.pfns_num_) S array.length p r) := rfl
      rw [hfreed, hs.pageTable]
      refine remapPages_remapPages ?_ x
      rw [hkept]
      omega
  case regions =>
    intro g hg
    have hg' := h.regions g hg
    rwa [← hregions]
  case regions_keep =>
    intro g hg hpos
    rw [← hregions] at hg
    exact h.regions_keep g hg hpos
  case region =>
    intro hne
    rw [← hframes] at hne ⊢
    rw [← hmap]
    rcases h.region hne with ⟨g, hg, hin⟩ | ⟨hone, hbuf, hnone⟩
    · exact Or.inl ⟨g, hregions ▸ hg, hin⟩
    · exact Or.inr ⟨hone, ⟨hbuf.pos, hbuf.dvd, hbuf.le, hregions ▸ hbuf.apart⟩, hnone⟩
  case vars => exact fun x hx => (h.vars x hx).trans (hs.mach.vars x hx)
  case legal =>
    intro hnd hheld call hcall
    obtain ⟨h₁, h₂, -⟩ := surplusFrames_spec (p := p) (r := r) hend hlen hnd
    rcases h.legal call hcall with hc | hc
    · rcases hcalls.legal h₁ (fun f hf => by rw [halloc]; exact hheld f (h₂ f hf)) call hc with hc | hc
      · exact hs.mach.legal call hc
      · exact Or.inr hc
    · exact Or.inr hc
  case data =>
    obtain ⟨buffer, d, hbuf, hd, hcontents, hdata⟩ := h.data
    refine ⟨buffer, d, fun _ => ⟨hbuf.pos, hbuf.dvd, hbuf.le, ?_⟩, fun f hf => ?_, hcontents, ?_⟩
    · rw [← hregions]
      exact hbuf.apart
    · rw [hd f hf]
      exact congrFun hs.data f
    · have htab : (t.mach.freed (surplusFrames (st.take s.ctx.pfns_num_) S array.length p r)
          calls).pageTable = keptTable os s st S l array.length p r := by
        funext x
        rw [keptTable, ← keptFrames_take st r hend, ← hs.pageTable]
        rfl
      dsimp only at hdata
      rw [hdata, htab, hspare, sumTo_sub_min, spareFrames]

end Outcome

theorem Batched.heapFree {S : ℕ} {t : State} {new : List Frame}
    (h : Batched os s t refs st L sizeofT start S l array.length p r new) :
    Batched os s { t with mach := { t.mach with calls := .heapFree true :: t.mach.calls } } refs st L
      sizeofT start S l array.length p r new :=
  { h with
    tabled := by
      obtain ⟨st', htab, htake⟩ := h.tabled
      exact ⟨st', htab.machine rfl, htake⟩
    legal := fun hnd hheld call hcall => by
      rcases List.mem_cons.mp hcall with rfl | hcall
      · exact Or.inr trivial
      · exact h.legal hnd hheld call hcall }

/-- The second pass of a batch, from what the first one has left. -/
theorem Tabled.meets_secondPass {S : ℕ} {v : Pass} {t u : State} {calls : List OsCall}
    (h : Tabled os refs st L s) (hs : Shrunk os s t refs st L sizeofT start S l array p r v)
    (hl : Listed os sizeofT start S s.ctx.pfns_num_ array p r L)
    (hc : Cuts os sizeofT start array.length p r L) (hget : L[start]? = some l)
    (hnum : s.ctx.pfns_num_ ≤ st.length) (hw : s.ctx.pfns_num_ < 2 ^ 64)
    (hmax : G → 0 < s.ctx.pfns_max_)
    (hup : G → ∀ buffer, Buffer os s.mach buffer → ∀ j d, L[start + j]? = some d →
      j < array.length → p j < r j → CopiesUp os (keptTable os s st S l array.length p r) buffer
        (d.moved (backWord os (sumTo (fun j => p j - r j) j))))
    (hcalls : t.mach.Calls (surplusFrames (st.take s.ctx.pfns_num_) S array.length p r) calls)
    (hu : u = ⟨t.mach.freed (surplusFrames (st.take s.ctx.pfns_num_) S array.length p r) calls,
      t.ctx⟩) (hF : F ≤ u.mach.failures) :
    Meets (growPass os sizeofT start S s.ctx.pfns_num_ array.length
      (sub64 s.ctx.pfns_num_ v.PFNsIdx) v) u (fun _ w => F < w.mach.failures ∨
        (∃ new, Batched os s w refs st L sizeofT start S l array.length p r new) ∧
        F ≤ w.mach.failures) (Blames G F) := by
  have hend := hl.end_le
  have hwords := hl.words
  have hctx : u.ctx = t.ctx := by rw [hu]
  have hregions : u.mach.regions = s.mach.regions := by
    rw [hu]
    exact hs.mach.regions
  have hcutlen : sumTo (fun j => p j - r j) array.length ≤ sumTo p array.length :=
    sumTo_le_sumTo fun _ _ => Nat.sub_le _ _
  have hmarked : (markedEntries p r array.length array).length = array.length := List.length_mapIdx
  have hlen : (st.take s.ctx.pfns_num_).length = s.ctx.pfns_num_ := by
    rw [List.length_take, Nat.min_eq_left hnum]
  obtain ⟨l', hl', hmap⟩ := mappingAddress_shrunkList hl.fits hget sizeofT p r array.length
  have hlist := hl.shrunk hc
  rw [← hs.pfns_num, ← hctx] at hlist
  have hpost : sub64 s.ctx.pfns_num_ v.PFNsIdx = u.ctx.pfns_num_ -
      (S + sumTo (fun j => min (p j) (r j)) array.length) := by
    have := sumTo_min_add p r array.length
    rw [hs.PFNsIdx, hctx, hs.pfns_num, sub64_of_le hend (by omega)]
    omega
  have htab : Tabled os refs (overwrite st S (keptFrames st S s.ctx.pfns_num_ array.length p r))
      (shrunkList os sizeofT start array.length p r L) u := by
    rw [hu]
    exact hs.tabled.machine rfl
  have hst₁ : (overwrite st S (keptFrames st S s.ctx.pfns_num_ array.length p r)).length =
      st.length := by
    refine length_overwrite ?_
    rw [keptFrames_take st r hend, length_keptFrames r hend hlen.ge]
    omega
  have hlost : sumTo (fun j => r j - min (p j) (r j)) (markedEntries p r array.length array).length =
      sumTo (fun j => r j - p j) array.length := by
    rw [hmarked, sumTo_sub_min]
  have hcopy : G → ∀ buffer, Buffer os u.mach buffer → ∀ j d,
      (shrunkList os sizeofT start array.length p r L)[start + j]? = some d →
      j < (markedEntries p r array.length array).length → min (p j) (r j) < r j →
      CopiesUp os u.mach.pageTable buffer d := by
    intro hg buffer hbuf j d hd hj hlt
    have hbuf' : Buffer os s.mach buffer := ⟨hbuf.pos, hbuf.dvd, hbuf.le, by
      rw [← hregions]
      exact hbuf.apart⟩
    rw [hmarked] at hj
    rw [getElem?_shrunkList hj, Option.map_eq_some_iff] at hd
    obtain ⟨d₀, hL, rfl⟩ := hd
    have hlt' : p j < r j := (min_lt_iff.mp hlt).resolve_right (lt_irrefl _)
    have htable : u.mach.pageTable = keptTable os s st S l array.length p r := by
      funext x
      rw [hu, keptTable, ← keptFrames_take st r hend, ← hs.pageTable]
      rfl
    rw [Container.cut, if_neg hlt'.not_gt, htable]
    exact hup hg buffer hbuf' j d₀ hL hj hlt'
  have hroom : u.ctx.pfns_num_ ≤
      (overwrite st S (keptFrames st S s.ctx.pfns_num_ array.length p r)).length := by
    rw [hst₁, hctx, hs.pfns_num]
    omega
  have hle : u.ctx.pfns_num_ ≤ s.ctx.pfns_num_ := by
    rw [hctx, hs.pfns_num]
    omega
  have hspare : sumTo (fun j => p j - r j) array.length ≤ v.sparePFNs.length := by
    rw [hs.spare_length]
    omega
  have hmax' : G → 0 < u.ctx.pfns_max_ := fun hg => by
    rw [htab.max, hst₁, ← h.max]
    exact hmax hg
  have hpass := htab.meets_growPass hlist (fun j _ => min_le_right _ _) hl' hroom hmax' hle hw
    hs.steps (by omega) (hs.requested_pages.trans hlost.symm) hspare hs.entries hcopy hF
  rw [hmarked] at hpass
  rw [hpost]
  refine hpass.imp fun _ w hw => ?_
  rcases hw with hlt | ⟨new, hlength, hnodup, hfresh, hgr⟩
  · exact Or.inl hlt
  have hfail := hgr.failures
  rw [sumTo_sub_min] at hlength
  rw [← hs.steps] at hgr
  subst hu
  exact Or.inr ⟨⟨new, hgr.batched hs hl hnum hmap hcalls hlength hnodup hfresh⟩, hF.trans hfail.ge⟩

/-- A batch over the containers from index `start` on. It accesses no table out of bounds, and fails
only after a call has failed or, unless `G` holds, in a copy to memory that is not mapped. -/
theorem Tabled.meets_ContainerRealloc2At (h : Tabled os refs st L s)
    (hl : Listed os sizeofT start (pagesOf os (L.take start)) s.ctx.pfns_num_ array p r L)
    (hc : Cuts os sizeofT start array.length p r L) (hget : L[start]? = some l)
    (hnum : s.ctx.pfns_num_ ≤ st.length) (hsum : pagesOf os L < 2 ^ 64)
    (hmax : G → 0 < s.ctx.pfns_max_) (htemp : temp.length = s.ctx.pfns_num_)
    (hspare : spare.length = s.ctx.pfns_num_)
    (hdown : G → ∀ j d, L[start + j]? = some d → j < array.length → r j < p j →
      CopiesDown os s.mach.pageTable (p j - r j) d)
    (hup : G → ∀ buffer, Buffer os s.mach buffer → ∀ j d, L[start + j]? = some d →
      j < array.length → p j < r j → CopiesUp os
        (keptTable os s st (pagesOf os (L.take start)) l array.length p r) buffer
        (d.moved (backWord os (sumTo (fun j => p j - r j) j))))
    (hF : F ≤ s.mach.failures) :
    Meets (ContainerRealloc2At os start sizeofT spare temp array) s
      (fun _ t => F < t.mach.failures ∨ ∃ new, Batched os s t refs st L sizeofT start
        (pagesOf os (L.take start)) l array.length p r new) (Blames G F) := by
  have hend := hl.end_le
  have hwords := hl.words
  have hcutlen : sumTo (fun j => p j - r j) array.length ≤ sumTo p array.length :=
    sumTo_le_sumTo fun _ _ => Nat.sub_le _ _
  rw [ContainerRealloc2At, meets_bind]
  refine h.reads.meets_getPFNsPosition (List.getElem?_eq_some_iff.mp hget).1.le hsum ?_
  generalize hS : pagesOf os (L.take start) = S at *
  rw [meets_bind, meets_getCtx, meets_bind]
  refine (h.meets_shrinkPass hl hget hnum hdown htemp hspare hF).imp fun v t hs => ?_
  have hF₁ : F ≤ t.mach.failures := hF.trans hs.mach.failures.ge
  rw [meets_bind]
  refine (meets_freeSpare hs.steps hs.requested_pages (by omega) (by omega)
    (by rw [hs.spare_length]; omega) hF₁).imp fun _ u hu => ?_
  rw [hs.surplus hl] at hu
  obtain ⟨calls, hcalls, hu⟩ := hu
  have hF₂ : F ≤ u.mach.failures := by
    rw [hu]
    exact hF₁.trans hcalls.failures.ge
  refine meets_bind_unless (P := fun _ u => (∃ new, Batched os s u refs st L sizeofT start S l
    array.length p r new) ∧ F ≤ u.mach.failures) ?_ (fun _ => (continues_HeapFree os).bind fun _ =>
      continues_ensure _ _) ?_
  · refine meets_onlyIf (fun _ => ?_) fun hnone => ?_
    · exact h.meets_secondPass hs hl hc hget hnum (by omega) hmax hup hcalls hu hF₂
    · rw [hs.requested_pages, Nat.pos_iff_ne_zero, not_not] at hnone
      subst hu
      exact Or.inr ⟨⟨[], hs.batched hl hc hnum hcalls hnone⟩, hF₂⟩
  · rintro _ w ⟨⟨new, hw⟩, hF₃⟩
    rw [meets_bind, HeapFree, meets_osCall]
    refine meets_ensure (fun hok => ?_) fun hno => Or.inl (Machine.failures_lt_heapFree hno hF₃)
    rw [Machine.heapFreeCall_eq hok]
    exact Or.inr ⟨new, hw.heapFree⟩

end Batch

end VcmallocBench
