import VcmallocBench.HyperContainer.Resize

/-! # Resizing one container

What the two branches of `ContainerRealloc` do up to the update of the
references. The frame table and the counts need no assumption on the memory; that
the data moves along needs the containers to be backed by their frames.
-/

namespace VcmallocBench

open Paging

/-- What a resize of container `k` at position `start` finds: the tables, the container, and, if `G`
holds, its backing from page `h` on. -/
structure Site (os : OS) (G : Prop) (s : State) (h k start : ℕ) (c : ContainerContext)
    (l : Container) (cs : List ContainerContext) (room : ℕ) (st : List Frame) : Prop where
  cells : s.ctx.containercontext_storage_ = some ⟨cs, room⟩
  length_le : cs.length ≤ room
  entry : cs[k]? = some c
  resolve : ∀ m' : Machine, m'.vars = s.mach.vars →
    (G → ∀ a, h * os.page_size ≤ a → a < l.reference_ → m'.read os a = s.mach.read os a) →
    c.resolve os m' = some l
  table : s.ctx.pfns_storage_ = some st
  max : st.length = s.ctx.pfns_max_
  words : 8 * st.length < 2 ^ 64
  num : s.ctx.pfns_num_ ≤ st.length
  fits : l.Fits os
  bound : start + l.nbrOfPages os ≤ s.ctx.pfns_num_
  backed : G → Backed os s.mach h (st.take s.ctx.pfns_num_)
  page : G → l.reference_ ⌈/⌉ os.page_size = h + start
  base : G → h * os.page_size ≤ l.reference_
  base_pos : G → 0 < h
  limit : G → (h + s.ctx.pfns_num_) * os.page_size < 2 ^ 64

/-- What a resize leaves: the counts and the frame table, and the bytes if `G` holds. -/
structure Resized (os : OS) (G : Prop) (s t : State) (h k start req : ℕ) (c : ContainerContext)
    (l : Container) (cs : List ContainerContext) (room : ℕ) (st : List Frame) (elements : ℕ)
    (new : List Frame) : Prop where
  cells : t.ctx.containercontext_storage_ =
    some ⟨cs.set k { c with elements_num_ := elements }, room⟩
  containers_num : t.ctx.containers_num_ = s.ctx.containers_num_
  containers_max : t.ctx.containers_max_ = s.ctx.containers_max_
  pfns_num : t.ctx.pfns_num_ = s.ctx.pfns_num_
  size : t.ctx.hypercontainer_size_ = s.ctx.hypercontainer_size_
  table : ∃ st', t.ctx.pfns_storage_ = some st' ∧ st'.length = t.ctx.pfns_max_ ∧
    8 * st'.length < 2 ^ 64 ∧ s.ctx.pfns_num_ + req ≤ st'.length + l.nbrOfPages os ∧
    st'.take (s.ctx.pfns_num_ + req - l.nbrOfPages os) =
      splice (st.take s.ctx.pfns_num_) start (l.nbrOfPages os) req new
  vars : t.mach.vars = s.mach.vars
  regions : t.mach.regions = s.mach.regions
  failures : s.mach.failures ≤ t.mach.failures
  new_length : new.length = req - l.nbrOfPages os
  new_nodup : new.Nodup
  new_fresh : ∀ f ∈ new, f ∉ s.mach.allocated
  allocated : t.mach.allocated = new ++ s.mach.allocated.filter
    (· ∉ slice (st.take s.ctx.pfns_num_) (start + req) (l.nbrOfPages os - req))
  legal : (st.take s.ctx.pfns_num_).Nodup → (∀ f ∈ st.take s.ctx.pfns_num_, f ∈ s.mach.allocated) →
    ∀ call ∈ t.mach.calls, call ∈ s.mach.calls ∨ call.Legal
  remapped : G → Remapped os s.mach t.mach h start (l.nbrOfPages os) req (l.reference_ + l.bytes)
    (st.take s.ctx.pfns_num_) (splice (st.take s.ctx.pfns_num_) start (l.nbrOfPages os) req new)
  rest : G → ∀ p, p < h ∨ h + (s.ctx.pfns_num_ + req - l.nbrOfPages os) ≤ p →
    t.mach.pageTable p = if h ≤ p ∧ p < h + s.ctx.pfns_num_ then none
      else (s.mach.pageTable p).filter
        (· ∉ slice (st.take s.ctx.pfns_num_) (start + req) (l.nbrOfPages os - req))
  region : s.ctx.pfns_num_ + req - l.nbrOfPages os ≠ start →
    s.mach.inRegion os (l.mappingAddress os)
      (s.ctx.pfns_num_ + req - l.nbrOfPages os - start) = true

namespace Site

variable {os : OS} {G : Prop} {F : ℕ} {s : State} {h k start req : ℕ} {c : ContainerContext}
  {l : Container} {cs : List ContainerContext} {room : ℕ} {st : List Frame}

theorem containers_eq (site : Site os G s h k start c l cs room st) : s.ctx.containers = cs := by
  rw [HyperContainerContext.containers, site.cells]; rfl

theorem length_take (site : Site os G s h k start c l cs room st) :
    (st.take s.ctx.pfns_num_).length = s.ctx.pfns_num_ := by
  rw [List.length_take, Nat.min_eq_left site.num]

theorem frame_exists (site : Site os G s h k start c l cs room st) {i : ℕ}
    (hi : i < s.ctx.pfns_num_) : ∃ f, (st.take s.ctx.pfns_num_)[i]? = some f :=
  ⟨_, List.getElem?_eq_getElem (by rw [site.length_take]; exact hi)⟩

theorem next_page (site : Site os G s h k start c l cs room st) (hG : G) :
    (l.reference_ + l.bytes) ⌈/⌉ os.page_size = h + start + l.nbrOfPages os := by
  rw [← span_add_ceil os.page_size_pos, site.page hG, Container.nbrOfPages_eq site.fits]

theorem next_le (site : Site os G s h k start c l cs room st) (hG : G) :
    l.reference_ + l.bytes ≤ (h + s.ctx.pfns_num_) * os.page_size := by
  have hb := site.bound
  refine (le_ceil_mul os.page_size_pos _).trans (Nat.mul_le_mul_right _ ?_)
  rw [site.next_page hG]
  omega

theorem nextAddress_eq (site : Site os G s h k start c l cs room st) (hG : G) :
    l.nextAddress = l.reference_ + l.bytes := by
  rw [Container.nextAddress_eq]
  exact u64_of_lt ((site.next_le hG).trans_lt (site.limit hG))

theorem mapping_page (site : Site os G s h k start c l cs room st) (hG : G) :
    l.mappingAddress os = (h + start) * os.page_size ∧
      l.mappingAddress os / os.page_size = h + start := by
  have hb := site.bound
  have hle : (h + start) * os.page_size ≤ (h + s.ctx.pfns_num_) * os.page_size :=
    Nat.mul_le_mul_right _ (by omega)
  have he : l.mappingAddress os = (h + start) * os.page_size := by
    rw [Container.mappingAddress_eq site.fits.reference_lt, site.page hG]
    exact u64_of_lt (hle.trans_lt (site.limit hG))
  exact ⟨he, by rw [he, Nat.mul_div_cancel _ os.page_size_pos]⟩

theorem reference_le (site : Site os G s h k start c l cs room st)
    (hg : l.guestBytes os ≤ req * os.page_size + l.priorFreeBytes os) :
    l.nbrOfPages os * os.page_size ≤ l.bytes + req * os.page_size := by
  have := Container.bytes_add_guestBytes site.fits
  omega

/-- The container is still found when the bytes before it are unchanged. -/
theorem resolve_of (site : Site os G s h k start c l cs room st) {m' : Machine}
    (hv : m'.vars = s.mach.vars)
    (hp : G → ∀ i < start, m'.pageTable (h + i) = s.mach.pageTable (h + i))
    (hd : G → ∀ (i : ℕ) f o, i < start → (st.take s.ctx.pfns_num_)[i]? = some f →
      (h + i) * os.page_size + o < l.reference_ → o < os.page_size →
      m'.frameData f o = s.mach.frameData f o) : c.resolve os m' = some l := by
  have hP := os.page_size_pos
  have hb := site.bound
  refine site.resolve m' hv fun hG a h₁ h₂ => ?_
  have hlt := div_lt_ceil hP h₂
  rw [site.page hG] at hlt
  have hle : h ≤ a / os.page_size := (Nat.le_div_iff_mul_le hP).mpr h₁
  obtain ⟨i, hi⟩ := Nat.exists_eq_add_of_le hle
  have hlen := site.length_take
  have hget := List.getElem?_eq_getElem (l := st.take s.ctx.pfns_num_) (i := i) (by omega)
  have hpage := (site.backed hG).page_eq hget
  have ha := Nat.div_add_mod a os.page_size
  rw [mul_comm, hi] at ha
  rw [Machine.read, Machine.read, hi, hp hG i (by omega), hpage, Option.map_some, Option.map_some,
    hd hG i _ _ (by omega) hget (by omega) (Nat.mod_lt a hP)]

theorem guest_pages (site : Site os G s h k start c l cs room st) (hG : G)
    (hg : l.guestBytes os ≤ req * os.page_size + l.priorFreeBytes os)
    (hpos : 0 < gap os.page_size (l.reference_ + l.bytes)) :
    0 < start + l.nbrOfPages os ∧ 0 < start + req ∧
      (l.reference_ + l.bytes) / os.page_size = h + (start + l.nbrOfPages os - 1) ∧
      (l.reference_ + l.bytes + req * os.page_size - l.nbrOfPages os * os.page_size) /
        os.page_size = h + (start + req - 1) := by
  have hP := os.page_size_pos
  have hle := site.reference_le hg
  have hbase := site.base hG
  obtain ⟨hq, -⟩ := page_of_gap hP hpos
  rw [site.next_page hG] at hq
  obtain ⟨hdiv, -⟩ := move_pages hP (a := l.reference_ + l.bytes) (m := l.nbrOfPages os) (n := req)
    (by omega)
  have h₁ : h ≤ (l.reference_ + l.bytes) / os.page_size :=
    (Nat.le_div_iff_mul_le hP).mpr (by omega)
  have h₂ : h ≤ (l.reference_ + l.bytes + req * os.page_size - l.nbrOfPages os * os.page_size) /
      os.page_size := (Nat.le_div_iff_mul_le hP).mpr (by omega)
  omega

end Site

section Tables

variable {pt : ℕ → Option Frame} {h start behind N : ℕ} {fs st : List Frame}

theorem remapPages_page (hfs : st.take N = fs) (hN : N ≤ st.length) (hs : start ≤ N)
    (hlow : ∀ i < start, pt (h + i) = fs[i]?) {i : ℕ} (hi : i < N) :
    remapPages pt (h + start) behind (slice st start (N - start)) (h + i) = fs[i]? := by
  have hlen : (slice st start (N - start)).length = N - start := length_slice (by omega)
  rw [remapPages, hlen]
  rcases Nat.lt_or_ge i start with hlt | hge
  · rw [if_neg (by omega), unmapPages, if_neg (by omega), hlow i hlt]
  · rw [if_pos (by omega), getElem?_slice, if_pos (by omega), ← hfs, List.getElem?_take_of_lt hi]
    congr 1
    omega

theorem remapPages_rest (hN : N ≤ st.length) (hs : start ≤ N) {p : ℕ}
    (hp : p < h ∨ h + N ≤ p) :
    remapPages pt (h + start) behind (slice st start (N - start)) p =
      if h ≤ p ∧ p < h + (start + behind) then none else pt p := by
  have hlen : (slice st start (N - start)).length = N - start := length_slice (by omega)
  rw [remapPages, hlen, if_neg (by omega), unmapPages]
  by_cases hc : h ≤ p ∧ p < h + (start + behind)
  · rw [if_pos hc, if_pos (by omega)]
  · rw [if_neg hc, if_neg (by omega)]

end Tables

section Branches

variable {os : OS} {G : Prop} {F : ℕ} {s : State} {h k start req : ℕ} {c : ContainerContext}
  {l : Container} {cs : List ContainerContext} {room : ℕ} {st : List Frame}

/-- The guest bytes of the container are copied to the last frame of its new pages. All else in the
frames of the old table is as before. -/
structure Copied (os : OS) (G : Prop) (s : State) (start req : ℕ) (l : Container)
    (st new : List Frame) (d : Frame → ℕ → Byte) : Prop where
  kept : G → ∀ f ∈ st.take s.ctx.pfns_num_, ∀ o, (0 < gap os.page_size (l.reference_ + l.bytes) →
    (splice (st.take s.ctx.pfns_num_) start (l.nbrOfPages os) req new)[start + req - 1]? = some f →
    o < (l.reference_ + l.bytes) % os.page_size) → d f o = s.mach.frameData f o
  guest : G → 0 < gap os.page_size (l.reference_ + l.bytes) → ∀ f g o,
    (splice (st.take s.ctx.pfns_num_) start (l.nbrOfPages os) req new)[start + req - 1]? = some f →
    (st.take s.ctx.pfns_num_)[start + l.nbrOfPages os - 1]? = some g →
    (l.reference_ + l.bytes) % os.page_size ≤ o → o < os.page_size → d f o = s.mach.frameData g o

theorem Site.remapped (site : Site os G s h k start c l cs room st) (hG : G) {m' : Machine}
    {new : List Frame} (hg : l.guestBytes os ≤ req * os.page_size + l.priorFreeBytes os)
    (hd : Copied os G s start req l st new m'.frameData)
    (hn : new.length = req - l.nbrOfPages os) (hnd : new.Nodup)
    (hfresh : ∀ f ∈ new, f ∉ s.mach.allocated)
    (hheld : ∀ f ∈ splice (st.take s.ctx.pfns_num_) start (l.nbrOfPages os) req new,
      f ∈ m'.allocated)
    (hpage : ∀ i < s.ctx.pfns_num_ + req - l.nbrOfPages os, m'.pageTable (h + i) =
      (splice (st.take s.ctx.pfns_num_) start (l.nbrOfPages os) req new)[i]?) :
    Remapped os s.mach m' h start (l.nbrOfPages os) req (l.reference_ + l.bytes)
      (st.take s.ctx.pfns_num_) (splice (st.take s.ctx.pfns_num_) start (l.nbrOfPages os) req new) := by
  have hlen := site.length_take
  have hb : start + l.nbrOfPages os ≤ (st.take s.ctx.pfns_num_).length := by
    rw [hlen]; exact site.bound
  have hsp := length_splice (m := req) hb hn
  have hnodup := nodup_splice (i := start) (n := l.nbrOfPages os) (m := req) (site.backed hG).nodup
    hnd fun a ha ha' => hfresh a ha ((site.backed hG).held a ha')
  exact {
    backed := site.backed hG
    backed' := ⟨hnodup, hheld, fun i hi => hpage i (by omega)⟩
    bound := hb
    length := hsp
    low := fun i hi => getElem?_splice_low hb hi
    high := fun i hi => getElem?_splice_high hb hn hi
    next_page := site.next_page hG
    base := by
      have := site.base hG
      have := site.reference_le hg
      omega
    data := fun i f o hf hmem ho => hd.kept hG f hmem o fun hpos hlast => ho hpos (by
      obtain ⟨-, hp, -, -⟩ := site.guest_pages hG hg hpos
      have := (List.getElem?_inj (List.getElem?_eq_some_iff.mp hf).1 hnodup).mp (hf.trans hlast.symm)
      omega)
    guest := hd.guest hG }

theorem Site.meets_copyGuest (site : Site os G s h k start c l cs room st) {t : State}
    {new : List Frame} {dst : ℕ → ℕ} {message : String} {R : Unit → State → Prop}
    (hg : l.guestBytes os ≤ req * os.page_size + l.priorFreeBytes os)
    (hc : t.ctx.containers[k]? = some c) (hl : c.resolve os t.mach = some l)
    (hdst : G → dst l.nextAddress =
      l.reference_ + l.bytes + req * os.page_size - l.nbrOfPages os * os.page_size)
    (hdata : G → ∀ f ∈ st.take s.ctx.pfns_num_, ∀ o, t.mach.frameData f o = s.mach.frameData f o)
    (hto : G → 0 < gap os.page_size (l.reference_ + l.bytes) → ∃ f,
      (splice (st.take s.ctx.pfns_num_) start (l.nbrOfPages os) req new)[start + req - 1]? = some f ∧
        t.mach.pageTable (h + (start + req - 1)) = some f)
    (hfrom : G → 0 < gap os.page_size (l.reference_ + l.bytes) →
      t.mach.pageTable (h + (start + l.nbrOfPages os - 1)) =
        (st.take s.ctx.pfns_num_)[start + l.nbrOfPages os - 1]?)
    (hR : ∀ d, Copied os G s start req l st new d →
      R () { t with mach := { t.mach with frameData := d } }) :
    Meets (copyGuest os k dst message) t R (Blames G F) := by
  have hb := site.bound
  have hle := site.reference_le hg
  obtain ⟨-, hmod⟩ := move_pages os.page_size_pos (a := l.reference_ + l.bytes)
    (m := l.nbrOfPages os) (n := req) (by omega)
  -- both frames
  have hpages : G → 0 < gap os.page_size (l.reference_ + l.bytes) → ∃ f g,
      (splice (st.take s.ctx.pfns_num_) start (l.nbrOfPages os) req new)[start + req - 1]? = some f ∧
      (st.take s.ctx.pfns_num_)[start + l.nbrOfPages os - 1]? = some g ∧
      t.mach.pageTable (dst l.nextAddress / os.page_size) = some f ∧
      t.mach.pageTable ((l.reference_ + l.bytes) / os.page_size) = some g := by
    intro hG hpos
    obtain ⟨hp₁, -, hq₁, hq₂⟩ := site.guest_pages hG hg hpos
    obtain ⟨f, hf, hpf⟩ := hto hG hpos
    obtain ⟨g, hg'⟩ := site.frame_exists (i := start + l.nbrOfPages os - 1) (by omega)
    refine ⟨f, g, hf, hg', ?_, ?_⟩
    · rw [hdst hG, hq₂, hpf]
    · rw [hq₁, hfrom hG hpos, hg']
  refine VcmallocBench.meets_copyGuest hc hl (fun hG => ⟨site.nextAddress_eq hG, ?_, ?_⟩)
    (fun hG hpos => ?_) fun d hd₀ hd => hR d ⟨fun hG x hx o ho => ?_, fun hG hpos f g o hf hg' ho hoP => ?_⟩
  · have h₁ := site.base hG
    have h₂ := Nat.mul_le_mul_right os.page_size (site.base_pos hG)
    have h₃ := os.page_size_pos
    rw [hdst hG]
    omega
  · rw [hdst hG, hmod]
  · obtain ⟨f, g, -, -, hf, hg'⟩ := hpages hG hpos
    exact ⟨f, g, hf, hg'⟩
  · rw [← hdata hG x hx]
    rcases Nat.eq_zero_or_pos (gap os.page_size (l.reference_ + l.bytes)) with h₀ | hpos
    · rw [hd₀ hG h₀]
    · obtain ⟨f, g, hf, -, hpf, hpg⟩ := hpages hG hpos
      rw [hd hG hpos f g hpf hpg]
      by_cases he : x = f
      · exact Machine.tailCopy_of_lt (ho hpos (he ▸ hf))
      · exact Machine.tailCopy_of_ne he
  · obtain ⟨f', g', hf', hg'', hpf, hpg⟩ := hpages hG hpos
    obtain rfl := Option.some.inj (hf'.symm.trans hf)
    obtain rfl := Option.some.inj (hg''.symm.trans hg')
    rw [hd hG hpos f' g' hpf hpg, Machine.tailCopy_self ho hoP,
      hdata hG g' (List.mem_of_getElem? hg')]

theorem Site.resolve_copied (site : Site os G s h k start c l cs room st) {new : List Frame}
    {d : Frame → ℕ → Byte} {m' : Machine}
    (hg : l.guestBytes os ≤ req * os.page_size + l.priorFreeBytes os)
    (hnodup : G → (splice (st.take s.ctx.pfns_num_) start (l.nbrOfPages os) req new).Nodup)
    (hd : Copied os G s start req l st new d) (hv : m'.vars = s.mach.vars) (hfd : m'.frameData = d)
    (hp : G → ∀ i < start, m'.pageTable (h + i) = s.mach.pageTable (h + i)) :
    c.resolve os m' = some l := by
  have hle := site.reference_le hg
  have hb : start + l.nbrOfPages os ≤ (st.take s.ctx.pfns_num_).length := by
    rw [site.length_take]
    exact site.bound
  obtain ⟨-, hmod⟩ := move_pages os.page_size_pos (a := l.reference_ + l.bytes)
    (m := l.nbrOfPages os) (n := req) (by omega)
  refine site.resolve_of hv hp fun hG i f o hi hf hlt ho => ?_
  rw [hfd]
  refine hd.kept hG f (List.mem_of_getElem? hf) o fun hpos hlast => ?_
  -- the last new frame is the one in front of the container
  obtain ⟨-, -, -, hq₂⟩ := site.guest_pages hG hg hpos
  have hin : i < start + min (l.nbrOfPages os) req := Nat.lt_add_right _ hi
  have hf' : (splice (st.take s.ctx.pfns_num_) start (l.nbrOfPages os) req new)[i]? = some f :=
    (getElem?_splice_low hb hin).trans hf
  have hi' := (List.getElem?_inj (List.getElem?_eq_some_iff.mp hlast).1 (hnodup hG)).mp
    (hlast.trans hf'.symm)
  have := Nat.div_add_mod (l.reference_ + l.bytes + req * os.page_size -
    l.nbrOfPages os * os.page_size) os.page_size
  rw [hq₂, hmod, mul_comm, hi'] at this
  omega

theorem Site.filter_page (site : Site os G s h k start c l cs room st) (hG : G) {i : ℕ}
    (hi : i < start + min (l.nbrOfPages os) req) :
    (s.mach.pageTable (h + i)).filter
      (· ∉ slice (st.take s.ctx.pfns_num_) (start + req) (l.nbrOfPages os - req)) =
        s.mach.pageTable (h + i) := by
  have hb := site.bound
  have hget := List.getElem?_eq_getElem (l := st.take s.ctx.pfns_num_) (i := i)
    (by rw [site.length_take]; omega)
  have hout := not_mem_slice (site.backed hG).nodup hget (i := start + req)
    (n := l.nbrOfPages os - req) (Or.inl (by omega))
  rw [(site.backed hG).page_eq hget, Option.filter_some, if_pos (by simpa using hout)]

/-- A new table that is mapped in place of the old one, once the guest bytes are copied. -/
theorem Site.resized (site : Site os G s h k start c l cs room st) {t : State}
    {st' new : List Frame} {d : Frame → ℕ → Byte} {elements : ℕ}
    (hg : l.guestBytes os ≤ req * os.page_size + l.priorFreeBytes os)
    (hctx : t.ctx = { s.ctx with
      containercontext_storage_ := some ⟨cs.set k { c with elements_num_ := elements }, room⟩
      pfns_storage_ := some st'
      pfns_max_ := st'.length })
    (hd : Copied os G s start req l st new d) (hdata : t.mach.frameData = d)
    (hn : new.length = req - l.nbrOfPages os) (hnd : new.Nodup)
    (hfresh : ∀ f ∈ new, f ∉ s.mach.allocated)
    (hlen : s.ctx.pfns_num_ + req - l.nbrOfPages os ≤ st'.length) (hw : 8 * st'.length < 2 ^ 64)
    (htake : st'.take (s.ctx.pfns_num_ + req - l.nbrOfPages os) =
      splice (st.take s.ctx.pfns_num_) start (l.nbrOfPages os) req new)
    (hvars : t.mach.vars = s.mach.vars) (hregions : t.mach.regions = s.mach.regions)
    (hfail : s.mach.failures ≤ t.mach.failures)
    (hallocated : t.mach.allocated = new ++ s.mach.allocated.filter
      (· ∉ slice (st.take s.ctx.pfns_num_) (start + req) (l.nbrOfPages os - req)))
    (hlegal : (st.take s.ctx.pfns_num_).Nodup →
      (∀ f ∈ st.take s.ctx.pfns_num_, f ∈ s.mach.allocated) →
      ∀ call ∈ t.mach.calls, call ∈ s.mach.calls ∨ call.Legal)
    (hpages : t.mach.pageTable = remapPages (fun p => (s.mach.pageTable p).filter
        (· ∉ slice (st.take s.ctx.pfns_num_) (start + req) (l.nbrOfPages os - req)))
      (l.mappingAddress os / os.page_size) (s.ctx.pfns_num_ - start)
      (slice st' start (s.ctx.pfns_num_ + req - l.nbrOfPages os - start)))
    (hregion : s.ctx.pfns_num_ + req - l.nbrOfPages os - start ≠ 0 →
      s.mach.inRegion os (l.mappingAddress os)
        (s.ctx.pfns_num_ + req - l.nbrOfPages os - start) = true) :
    Resized os G s t h k start req c l cs room st elements new := by
  have hb := site.bound
  have hbl : start + l.nbrOfPages os ≤ (st.take s.ctx.pfns_num_).length := by
    rw [site.length_take]
    exact hb
  have hs : start ≤ s.ctx.pfns_num_ + req - l.nbrOfPages os := by omega
  constructor
  case cells => rw [hctx]
  case containers_num => rw [hctx]
  case containers_max => rw [hctx]
  case pfns_num => rw [hctx]
  case size => rw [hctx]
  case table =>
    rw [hctx]
    exact ⟨st', rfl, rfl, hw, by omega, htake⟩
  case vars => exact hvars
  case regions => exact hregions
  case failures => exact hfail
  case new_length => exact hn
  case new_nodup => exact hnd
  case new_fresh => exact hfresh
  case allocated => exact hallocated
  case legal => exact hlegal
  case remapped =>
    intro hG
    refine site.remapped hG hg (hdata ▸ hd) hn hnd hfresh (fun f hf => ?_) fun i hi => ?_
    · rw [hallocated, List.mem_append]
      rcases mem_splice_of_nodup (site.backed hG).nodup hf with hf | ⟨hf, hout⟩
      · exact Or.inl hf
      · exact Or.inr (List.mem_filter.mpr ⟨(site.backed hG).held f hf, by simpa using hout⟩)
    · rw [hpages, (site.mapping_page hG).2]
      refine remapPages_page htake hlen hs (fun i hi => ?_) hi
      have hin : i < start + min (l.nbrOfPages os) req := Nat.lt_add_right _ hi
      obtain ⟨f, hf⟩ := site.frame_exists (i := i) (by omega)
      rw [site.filter_page hG hin, (site.backed hG).page_eq hf, getElem?_splice_low hbl hin, hf]
  case rest =>
    intro hG p hp
    rw [hpages, (site.mapping_page hG).2, remapPages_rest hlen hs hp, Nat.add_sub_cancel' (by omega)]
  case region => exact fun hne => hregion (by omega)

theorem Site.shrink_target (site : Site os G s h k start c l cs room st) (hG : G)
    (hreq : req ≤ l.nbrOfPages os)
    (hg : l.guestBytes os ≤ req * os.page_size + l.priorFreeBytes os) :
    sub64 l.nextAddress (u64 ((l.nbrOfPages os - req) * os.page_size)) =
      l.reference_ + l.bytes + req * os.page_size - l.nbrOfPages os * os.page_size := by
  have h₁ := (site.next_le hG).trans_lt (site.limit hG)
  have h₂ : (l.nbrOfPages os - req) * os.page_size =
      l.nbrOfPages os * os.page_size - req * os.page_size := Nat.sub_mul _ _ _
  have h₃ : req * os.page_size ≤ l.nbrOfPages os * os.page_size := Nat.mul_le_mul_right _ hreq
  have hle := site.reference_le hg
  rw [site.nextAddress_eq hG, u64_of_lt (by omega), sub64_of_le (by omega) h₁]
  omega

theorem Site.grow_target (site : Site os G s h k start c l cs room st) (hG : G)
    (hreq : l.nbrOfPages os ≤ req)
    (hlim : (h + s.ctx.pfns_num_ + req) * os.page_size < 2 ^ 64) :
    u64 (l.nextAddress + u64 ((req - l.nbrOfPages os) * os.page_size)) =
      l.reference_ + l.bytes + req * os.page_size - l.nbrOfPages os * os.page_size := by
  have h₁ := site.next_le hG
  have h₂ := Nat.mul_le_mul_right os.page_size hreq
  rw [site.nextAddress_eq hG, u64_add_u64, Nat.sub_mul, ← Nat.add_sub_assoc h₂]
  refine u64_of_lt ?_
  rw [add_mul] at hlim
  omega

theorem Site.meets_shrinkMapping (site : Site os G s h k start c l cs room st) {sizeofT : ℕ}
    (hreq : req < l.nbrOfPages os)
    (hg : l.guestBytes os ≤ req * os.page_size + l.priorFreeBytes os)
    (hF : F ≤ s.mach.failures) :
    Meets (shrinkMapping os k sizeofT start req (l.nbrOfPages os)) s
      (fun _ t => Resized os G s t h k start req c l cs room st
        (resizedElements os req (l.priorFreeBytes os) (l.guestBytes os) sizeofT) [])
      (Blames G F) := by
  have hb := site.bound
  have hw := site.words
  have hnum := site.num
  have hcs := site.containers_eq ▸ site.entry
  have hbl : start + l.nbrOfPages os ≤ (st.take s.ctx.pfns_num_).length := by
    rw [site.length_take]
    exact hb
  have hnil : ([] : List Frame).length = req - l.nbrOfPages os := by
    rw [List.length_nil]
    omega
  have hsteps : sub64 (l.nbrOfPages os) req = l.nbrOfPages os - req :=
    sub64_of_le hreq.le (by omega)
  rw [shrinkMapping, hsteps, meets_bind]
  refine site.meets_copyGuest hg hcs (site.resolve _ rfl fun _ _ _ _ => rfl)
    (fun hG => site.shrink_target hG hreq.le hg) (fun _ _ _ _ => rfl) (fun hG hpos => ?_)
    (fun hG hpos => ?_) fun d (hd : Copied os G s start req l st [] d) => ?_
  · have hp := (site.guest_pages hG hg hpos).2.1
    have hin : start + req - 1 < start + min (l.nbrOfPages os) req := by
      rw [Nat.min_eq_right hreq.le]
      omega
    obtain ⟨f, hf⟩ := site.frame_exists (i := start + req - 1) (by omega)
    exact ⟨f, (getElem?_splice_low hbl hin).trans hf, (site.backed hG).page_eq hf⟩
  · have hp := (site.guest_pages hG hg hpos).1
    exact (site.backed hG).page _ (by omega)
  rw [meets_bind]
  refine meets_shrinkFrames (s := ⟨{ s.mach with frameData := d }, s.ctx⟩) site.table hw hnum hreq
    hb hF fun m₂ hm₂ => ?_
  have hlen₁ : (slice st (start + l.nbrOfPages os)
      (s.ctx.pfns_num_ - start - l.nbrOfPages os)).length =
      s.ctx.pfns_num_ - start - l.nbrOfPages os := length_slice (by omega)
  dsimp only at hm₂ ⊢
  rw [← slice_take (n := l.nbrOfPages os - req) (l := st) (m := s.ctx.pfns_num_) (by omega)] at hm₂
  generalize hst₂ : overwrite st (start + req)
    (slice st (start + l.nbrOfPages os) (s.ctx.pfns_num_ - start - l.nbrOfPages os)) = st₂
  have hlen₂ : st₂.length = st.length := by rw [← hst₂]; exact length_overwrite (by omega)
  have htake : st₂.take (s.ctx.pfns_num_ + req - l.nbrOfPages os) =
      splice (st.take s.ctx.pfns_num_) start (l.nbrOfPages os) req [] := by
    rw [← hst₂]; exact take_moveDown hreq.le hb hnum
  -- the frames before the container stay mapped, so that its reference is still read
  have hresolve : ∀ m' : Machine, m'.vars = s.mach.vars → m'.frameData = d →
      (∀ p, p < l.mappingAddress os / os.page_size → m'.pageTable p = m₂.pageTable p) →
      c.resolve os m' = some l := by
    intro m' hv hfd hp
    refine site.resolve_copied hg (fun hG => ?_) hd hv hfd fun hG i hi => ?_
    · exact nodup_splice (site.backed hG).nodup List.nodup_nil fun _ hf => absurd hf List.not_mem_nil
    · rw [hp _ (by rw [(site.mapping_page hG).2]; omega), hm₂]
      exact site.filter_page hG (Nat.lt_add_right _ hi)
  have hcalls : m₂.calls = .free (slice (st.take s.ctx.pfns_num_) (start + req)
      (l.nbrOfPages os - req)) s.mach.allocated (l.nbrOfPages os - req) true :: s.mach.calls := by
    rw [hm₂]
  have hfail : s.mach.failures ≤ m₂.failures := by
    rw [Machine.failures_of_calls hcalls]
    omega
  rw [meets_bind]
  refine meets_shrinkRemap (s := ⟨m₂, { s.ctx with pfns_storage_ := some st₂ }⟩) hcs
    (fun m' hv hfd => hresolve m' (by rw [hv, hm₂]) (by rw [hfd, hm₂]))
    rfl (by omega) (by rw [hlen₂]; exact hnum) (by dsimp only; omega) (hF.trans hfail)
    fun m' hq hin => ?_
  have hm' := hq.eq
  have hcount : s.ctx.pfns_num_ - start - (l.nbrOfPages os - req) =
      s.ctx.pfns_num_ + req - l.nbrOfPages os - start := by omega
  dsimp only at hin hm' ⊢
  rw [hcount] at hin ⊢
  refine meets_updateStruct site.cells site.length_le site.entry
    (hresolve _ (by rw [hm', hm₂]) (by rw [hm', hm₂]) fun p hp => ?_) ?_
  · exact (if_neg (by omega)).trans (if_neg (by omega))
  · have hregions : m₂.regions = s.mach.regions := by rw [hm₂]
    refine site.resized hg (by rw [hlen₂, site.max]) hd (by rw [hm', hm₂]) hnil List.nodup_nil
      (fun _ hf => absurd hf List.not_mem_nil) (by omega) (by omega) htake (by rw [hm', hm₂])
      (by rw [hm', hm₂]) (hfail.trans hq.failures.ge) (by rw [hm', hm₂]; rfl)
      (fun hnd hheld call hcall => ?_) (by rw [hm₂]) fun hne => ?_
    · rcases hq.legal call hcall with hc | hc
      · rw [hcalls] at hc
        rcases List.mem_cons.mp hc with rfl | hc
        · refine Or.inr ⟨?_, fun f hf => hheld f (mem_of_mem_slice hf)⟩
          exact (hnd.sublist (List.drop_sublist _ _)).sublist (List.take_sublist _ _)
        · exact Or.inl hc
      · exact Or.inr hc
    · have hr := hin hne
      rwa [Machine.inRegion, hregions] at hr

theorem Site.meets_growMapping (site : Site os G s h k start c l cs room st) {sizeofT : ℕ}
    (hreq : l.nbrOfPages os < req)
    (hg : l.guestBytes os ≤ req * os.page_size + l.priorFreeBytes os)
    (hov : 16 * (s.ctx.pfns_num_ + req) < 2 ^ 64) (hmax : G → 0 < s.ctx.pfns_max_)
    (hlim : G → (h + s.ctx.pfns_num_ + req) * os.page_size < 2 ^ 64)
    (hF : F ≤ s.mach.failures) :
    Meets (growMapping os k sizeofT start req (l.nbrOfPages os)) s
      (fun _ t => ∃ new, Resized os G s t h k start req c l cs room st
        (resizedElements os req (l.priorFreeBytes os) (l.guestBytes os) sizeofT) new)
      (Blames G F) := by
  have hb := site.bound
  have hw := site.words
  have hnum := site.num
  have hcs := site.containers_eq ▸ site.entry
  have hbl : start + l.nbrOfPages os ≤ (st.take s.ctx.pfns_num_).length := by
    rw [site.length_take]
    exact hb
  have hsteps : sub64 req (l.nbrOfPages os) = req - l.nbrOfPages os :=
    sub64_of_le hreq.le (by omega)
  have hpages : l.nbrOfPages os - req = 0 := Nat.sub_eq_zero_of_le hreq.le
  rw [growMapping, hsteps, meets_bind]
  refine meets_growFrames site.table site.max hw hov hnum hreq hb hmax hF
    fun m m₁ st₁ new d₁ hq hm₁ hlen₁ hw₁ htake hn hnd hfresh hd₁ => ?_
  have hcount : s.ctx.pfns_num_ + (req - l.nbrOfPages os) = s.ctx.pfns_num_ + req - l.nbrOfPages os := by
    omega
  rw [hcount] at hlen₁ htake
  have hcalls₁ : m₁.calls = .allocate (req - l.nbrOfPages os) new true :: m.calls := by rw [hm₁]
  have hfail₁ : s.mach.failures ≤ m₁.failures := by
    rw [Machine.failures_of_calls hcalls₁, hq.failures]
    omega
  -- old frames are not new
  have hdata₁ : G → ∀ f ∈ st.take s.ctx.pfns_num_, ∀ o, m₁.frameData f o = s.mach.frameData f o := by
    intro hG f hf o
    rw [hm₁]
    exact congrFun (hd₁ f fun hf' => hfresh f hf' ((site.backed hG).held f hf)) o
  have hresolve : ∀ m' : Machine, m'.vars = s.mach.vars → m'.frameData = m₁.frameData →
      (∀ p, p < l.mappingAddress os / os.page_size → m'.pageTable p = m₁.pageTable p) →
      c.resolve os m' = some l := by
    intro m' hv hfd hp
    refine site.resolve_of hv (fun hG i hi => ?_) fun hG i f o hi hf _ _ => ?_
    · rw [hp _ (by rw [(site.mapping_page hG).2]; omega), hm₁]
    · rw [hfd]
      exact hdata₁ hG f (List.mem_of_getElem? hf) o
  rw [meets_bind]
  refine meets_growRemap (s := ⟨m₁, { s.ctx with pfns_storage_ := some st₁, pfns_max_ := st₁.length }⟩)
    (c := c) (l := l) hcs (fun m' hv hfd => hresolve m' (by rw [hv, hm₁]) hfd)
    rfl hw₁ (hcount.trans_le hlen₁) (by dsimp only; omega) (hF.trans hfail₁) fun m₂ hq₂ hin => ?_
  have hm₂ := hq₂.eq
  have hcount' : s.ctx.pfns_num_ - start + (req - l.nbrOfPages os) =
      s.ctx.pfns_num_ + req - l.nbrOfPages os - start := by omega
  dsimp only at hm₂ hin ⊢
  rw [hcount'] at hin ⊢
  generalize hpt₂ : remapPages m₁.pageTable (l.mappingAddress os / os.page_size)
    (s.ctx.pfns_num_ - start) (slice st₁ start (s.ctx.pfns_num_ + req - l.nbrOfPages os - start)) = pt₂
  have hlow : ∀ p, p < l.mappingAddress os / os.page_size → pt₂ p = m₁.pageTable p := by
    intro p hp
    rw [← hpt₂]
    exact (if_neg (by omega)).trans (if_neg (by omega))
  have hpage : G → ∀ i < s.ctx.pfns_num_ + req - l.nbrOfPages os, pt₂ (h + i) =
      (splice (st.take s.ctx.pfns_num_) start (l.nbrOfPages os) req new)[i]? := by
    intro hG i hi
    rw [← hpt₂, (site.mapping_page hG).2]
    refine remapPages_page htake hlen₁ (by omega) (fun i hi => ?_) hi
    obtain ⟨f, hf⟩ := site.frame_exists (i := i) (by omega)
    rw [hm₁, getElem?_splice_keep hbl hreq.le (by omega), hf]
    exact (site.backed hG).page_eq hf
  rw [meets_bind]
  refine site.meets_copyGuest
    (t := ⟨{ m₂ with pageTable := pt₂ }, { s.ctx with pfns_storage_ := some st₁, pfns_max_ := st₁.length }⟩)
    hg hcs (hresolve _ (by rw [hm₂, hm₁]) (by rw [hm₂]) hlow)
    (fun hG => site.grow_target hG hreq.le (hlim hG)) (fun hG f hf o => ?_) (fun hG hpos => ?_)
    (fun hG hpos => ?_) fun d (hd : Copied os G s start req l st new d) => ?_
  · rw [hm₂]
    exact hdata₁ hG f hf o
  · have hp := (site.guest_pages hG hg hpos).2.1
    obtain ⟨f, hf⟩ : ∃ f, new[req - l.nbrOfPages os - 1]? = some f :=
      ⟨_, List.getElem?_eq_getElem (by omega)⟩
    have hf' : (splice (st.take s.ctx.pfns_num_) start (l.nbrOfPages os) req new)[start + req - 1]? =
        some f := by
      rw [getElem?_splice_new hbl hn (by omega) (by omega), ← hf]
      congr 1
      omega
    exact ⟨f, hf', (hpage hG _ (by omega)).trans hf'⟩
  · have hp := (site.guest_pages hG hg hpos).1
    exact (hpage hG _ (by omega)).trans (getElem?_splice_keep hbl hreq.le (by omega))
  have hnodup : G → (splice (st.take s.ctx.pfns_num_) start (l.nbrOfPages os) req new).Nodup := fun hG =>
    nodup_splice (site.backed hG).nodup hnd fun f hf hf' => hfresh f hf ((site.backed hG).held f hf')
  have hregions : m₁.regions = s.mach.regions := by rw [hm₁]
  refine meets_updateStruct site.cells site.length_le site.entry
    (site.resolve_copied hg hnodup hd (by dsimp only; rw [hm₂, hm₁]) rfl fun hG i hi => ?_) ⟨new, ?_⟩
  · dsimp only
    rw [hlow _ (by rw [(site.mapping_page hG).2]; omega), hm₁]
  · refine site.resized hg rfl hd rfl hn hnd hfresh hlen₁ hw₁ htake (by dsimp only; rw [hm₂, hm₁])
      (by dsimp only; rw [hm₂, hm₁]) (hfail₁.trans hq₂.failures.ge) ?_ (fun _ _ call hcall => ?_) ?_
      fun hne => ?_
    · dsimp only
      rw [hm₂, hm₁, hpages, slice_zero]
      simp
    · rcases hq₂.legal call hcall with hc | hc
      · rw [hm₁] at hc
        rcases List.mem_cons.mp hc with rfl | hc
        · exact Or.inr trivial
        · exact hq.legal call hc
      · exact Or.inr hc
    · rw [← hpt₂, hm₁, hpages, slice_zero]
      simp only [filter_not_mem_nil]
    · have hr := hin hne
      rwa [Machine.inRegion, hregions] at hr

end Branches

end VcmallocBench
