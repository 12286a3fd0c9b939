import VcmallocBench.HyperContainer.Steps

/-! # Layouts after any history

After any sequence of allocations and resizes the containers follow one another,
account for all pages, and are mapped in order. The layout depends on the last
count asked for each container only.
-/

namespace VcmallocBench

open Paging

/-- The layout of a hypercontainer, in terms of the accessors of its containers. -/
structure Layout (os : OS) (s : State) (h R : ℕ) (L : List Container) : Prop where
  read : s.ctx.containers.map (·.resolve os s.mach) = L.map some
  first : ∀ l, L[0]? = some l → l.reference_ = h * os.page_size
  next : ∀ i l l', L[i]? = some l → L[i + 1]? = some l' → l'.reference_ = l.nextAddress
  pages : (L.map (·.nbrOfPages os)).sum = s.ctx.pfns_num_
  total : s.ctx.pfns_num_ = (L.map (·.bytes)).sum ⌈/⌉ os.page_size
  mapped : ∀ k < s.ctx.pfns_num_, ∃ f, s.ctx.frames[k]? = some f ∧
    s.mach.pageTable (h + k) = some f
  unmapped : ∀ p, h + s.ctx.pfns_num_ ≤ p → p < h + R → s.mach.pageTable p = none

/-- A variable outside memory that no container refers to. -/
def NewVariable (s : State) (user : PtrLoc) : Prop :=
  (∃ x, user = .var x) ∧ ∀ c ∈ s.ctx.containers, c.reference_ ≠ user

/-- The variable is the one of container `k`, and it points to elements of its type. -/
structure Refers (os : OS) (s : State) (user : PtrLoc) (sizeofT k : ℕ) (c : ContainerContext)
    (l : Container) : Prop where
  entry : s.ctx.containers[k]? = some c
  reference : c.reference_ = user
  size : c.type_size_ = sizeofT
  resolve : c.resolve os s.mach = some l

/-- Allocations of new variables and resizes of one or more elements, of sizes that divide a page,
where no sum wraps. -/
def Regular (os : OS) (s : State) : Call → Prop
  | .vcmalloc user sizeofT n => NewVariable s user ∧ 0 < sizeofT ∧ sizeofT ∣ os.page_size ∧ 0 < n ∧
      sizeofT * n < 2 ^ 64
  | .vcrealloc user sizeofT n => 0 < n ∧ ∃ k c l, Refers os s user sizeofT k c l ∧
      Unwrapped os s l sizeofT n
  | .vcrealloc2 .. => False

/-- The elements of `sizeofT` bytes that fit in container `k` of `num` when it has `req` pages leave no
byte between it and the next container, or begin the last page if it is the last container. -/
structure Divides (os : OS) (num k : ℕ) (l : Container) (req sizeofT : ℕ) : Prop where
  next : k + 1 < num → sizeofT ∣ l.capacity os req
  rest : l.capacity os req % sizeofT + l.guestBytes os < os.page_size

/-- Allocations of new variables and resizes of any size, where each resized container keeps its
pages, or its neighbours adjacent and its pages accounted for. -/
def Adjoining (os : OS) (s : State) : Call → Prop
  | .vcmalloc user sizeofT n => NewVariable s user ∧ sizeofT * n < 2 ^ 64
  | .vcrealloc user sizeofT n => ∃ k c l, Refers os s user sizeofT k c l ∧
      ∀ k' l', s.find os l.reference_ = .ok (some k') → s.container? os k' = some l' →
        sizeofT = l'.type_size_ ∧ Unwrapped os s l' sizeofT n ∧
          (l'.requestedPages os sizeofT n = l'.nbrOfPages os ∨
            Divides os s.ctx.containers_num_ k' l' (l'.requestedPages os sizeofT n) sizeofT)
  | .vcrealloc2 .. => False

/-- The containers before and after a call: one is appended, or one at the address of the variable
is resized. -/
def Follows (os : OS) (base : ℕ) (cs cs' : List ContainerContext) (L L' : List Container) :
    Call → Prop
  | .vcmalloc user sizeofT n => cs' = cs ++ [⟨user, sizeofT, n⟩] ∧
      L' = L ++ [⟨base + bytesOf L, sizeofT, n⟩]
  | .vcrealloc user sizeofT n => cs'.map (·.reference_) = cs.map (·.reference_) ∧
      ∃ (k k' : ℕ) (c : ContainerContext) (l l' : Container), cs[k]? = some c ∧
        c.reference_ = user ∧ L[k]? = some l ∧ L[k']? = some l' ∧ l'.reference_ = l.reference_ ∧
        L' = reallocList os L k' l' sizeofT n
  | .vcrealloc2 .. => False

section Layouts

variable {os : OS} {s₀ s t : State} {h R k sizeofT n : ℕ} {calls : List Call} {call : Call}
  {cs : List ContainerContext} {st : List Frame} {L : List Container} {c : ContainerContext}
  {l : Container} {user : PtrLoc}

theorem Laid.to_layout (hb : Laid os s h R cs st L) : Layout os s h R L := by
  have hP := os.page_size_pos
  have hc := hb.counted
  have hp := hb.placed
  have hend := hb.end_le
  obtain ⟨hfirst, hnext⟩ := tiled_iff.mp hp.tiled
  constructor
  case read => exact hc.views'.reads
  case first => exact hfirst
  case next =>
    intro i l l' hl hl'
    have h₁ := hp.end_le hc hl
    rw [hnext i l l' hl hl', Container.nextAddress_eq, u64_of_lt (by omega)]
  case pages => exact hp.pages
  case total =>
    have hceil := hb.endOf_ceil
    rw [hp.tiled.endOf_eq, add_comm, ceil_add_mul hP] at hceil
    exact (show bytesOf L ⌈/⌉ os.page_size = s.ctx.pfns_num_ by omega).symm
  case mapped =>
    intro k hk
    have hlen : (st.take s.ctx.pfns_num_).length = s.ctx.pfns_num_ := by
      rw [List.length_take, Nat.min_eq_left hc.core.num]
    have hget := List.getElem?_eq_getElem (l := st.take s.ctx.pfns_num_) (i := k) (by omega)
    refine ⟨_, ?_, hp.backed.page_eq hget⟩
    rw [frames_of_storage hc.core.table, ← hget, List.getElem?_take_of_lt hk]
  case unmapped => exact hb.hosts.free

theorem Refers.get {lo : ℕ} (hr : Refers os s user sizeofT k c l)
    (hc : Counted os s lo lo cs st L) :
    cs[k]? = some c ∧ L[k]? = some l ∧ sizeofT = l.type_size_ := by
  have hk := hr.entry
  rw [hc.core.containers_eq] at hk
  have hl := hc.views.resolve k c hk
  rw [hr.resolve] at hl
  obtain ⟨h₁, -, -⟩ := hc.views.sizes hk hl.symm
  exact ⟨hk, hl.symm, by rw [← h₁, hr.size]⟩

theorem Divides.exact {num : ℕ} (hf : l.Fits os) (hu : Unwrapped os s l sizeofT n)
    (hs : sizeofT = l.type_size_)
    (hd : Divides os num k l (l.requestedPages os sizeofT n) sizeofT) :
    Exact os num k l (l.requestedPages os sizeofT n) sizeofT := by
  have hP := os.page_size_pos
  have hg := hu.guest_le hf
  have hB := hu.resized_bytes hf hs
  have hrest := hd.rest
  obtain ⟨hfit, -⟩ := resized_fits hf hg (hu.capacity_le hf) (hu.resized_le hf hs)
  have hguest : l.guestBytes os =
      gap os.page_size (l.reference_ + l.capacity os (l.requestedPages os sizeofT n)) := by
    have hmod := congrArg (fun x => (l.reference_ + x) % os.page_size) (capacity_add hf hg)
    simp only [← add_assoc, Nat.add_mul_mod_self_right] at hmod
    rw [Container.guestBytes_eq]
    exact gap_congr hP hmod.symm
  constructor
  case bytes =>
    intro hk
    rw [hB]
    exact Nat.mul_div_cancel' (hd.next hk)
  case pages =>
    have hmod := Nat.mod_add_div (l.capacity os (l.requestedPages os sizeofT n)) sizeofT
    have hsub : (l.resized os (l.requestedPages os sizeofT n) sizeofT).bytes =
        l.capacity os (l.requestedPages os sizeofT n) -
          l.capacity os (l.requestedPages os sizeofT n) % sizeofT := by
      rw [hB]
      omega
    rw [Container.nbrOfPages_eq hfit, Container.resized_reference, hsub,
      span_sub hP (Nat.mod_le _ _) (by rw [← hguest]; exact hrest)]
    exact span_capacity hf hg

/-- One call, from a layout that keeps its containers adjacent. -/
theorem Laid.step (hb : Laid os s h R cs st L) (hok : Adjoining os s call)
    (hcall : Completes (call.run os (h * os.page_size)) s t) :
    ∃ cs' st' L', Laid os t h R cs' st' L' ∧ Follows os (h * os.page_size) cs cs' L L' call := by
  have hcs := hb.counted.core.containers_eq
  cases call with
  | vcmalloc user sizeofT n =>
    obtain ⟨⟨⟨x, rfl⟩, hx⟩, hov⟩ := hok
    rw [hcs] at hx
    obtain ⟨st', hb'⟩ := hcall.of_meets (hb.meets_ContainerAlloc hx hov) fun m hE => hE m rfl
    exact ⟨_, st', _, hb', rfl, rfl⟩
  | vcrealloc user sizeofT n =>
    obtain ⟨k, c, l, hr, hex⟩ := hok
    obtain ⟨hk, hl, -⟩ := hr.get hb.counted
    obtain rfl := hr.reference
    have hmeets := @Laid.meets_ContainerRealloc os s h R k sizeofT n cs st L c l hb hk hl
      fun k' l' hf hl' _ => by
        obtain ⟨hs, hu, hd⟩ := hex k' l' hf (by rw [hb.counted.views'.reads.container?_eq, hl'])
        rw [hb.counted.num_eq] at hd
        exact ⟨hs, hu, hd.imp id (Divides.exact (hb.counted.fits l' (List.mem_of_getElem? hl')) hu hs)⟩
    obtain ⟨k', l', cs', st', hl', he, hrefs, hb'⟩ := hcall.of_meets hmeets fun m hE => hE m rfl
    exact ⟨cs', st', _, hb', hrefs, k, k', c, l, l', hk, rfl, hl, hl', he, rfl⟩
  | vcrealloc2 => exact hok.elim

/-- In every run whose resizes keep the neighbours adjacent, each container starts where the one
before it ends, and the containers account for all pages. -/
theorem Run.adjacent (hf : Fresh os s₀ h R)
    (hrun : Run (Calling os (Adjoining os) fun s call t =>
      Completes (call.run os (h * os.page_size)) s t) s₀ calls s) :
    ∃ L, Layout os s h R L := by
  have hlaid : ∃ cs st L, Laid os s h R cs st L := by
    refine hrun.invariant (I := fun s => ∃ cs st L, Laid os s h R cs st L) ?_ ?_
    · obtain ⟨st, hb⟩ := hf.laid
      exact ⟨[], st, [], hb⟩
    · rintro s call t ⟨cs, st, L, hb⟩ ⟨s', hbetween, hok, hcall⟩
      obtain ⟨cs', st', L', hb', -⟩ := (hb.between hbetween).step hok hcall
      exact ⟨cs', st', L', hb'⟩
  obtain ⟨cs, st, L, hb⟩ := hlaid
  exact ⟨L, hb.to_layout⟩

/-- A last container of 24-byte elements grows. -/
theorem Run.adjacent_last :
    let os := OS.plain 7 (by decide) fun _ => true
    ∃ s L, Run (Calling os (Adjoining os) fun s call t =>
        Completes (call.run os (16 * os.page_size)) s t) (Fresh.state os 16 16)
        [.vcmalloc (.var 0) 24 10, .vcmalloc (.var 1) 24 4, .vcrealloc (.var 1) 24 11] s ∧
      Layout os s 16 16 L := by
  intro os
  have hf : Fresh os (Fresh.state os 16 16) 16 16 := Fresh.of_state (by decide) (by decide)
  have h₁ := Run.start.next (Calling.of_returned os (Adjoining os) (16 * os.page_size)
    (Fresh.state os 16 16) (.vcmalloc (.var 0) 24 10) ⟨⟨⟨0, rfl⟩, by decide +kernel⟩, by decide⟩
    (by decide +kernel))
  have h₂ := h₁.next (Calling.of_returned os (Adjoining os) _ _ (.vcmalloc (.var 1) 24 4)
    ⟨⟨⟨1, rfl⟩, by decide +kernel⟩, by decide⟩ (by decide +kernel))
  have h₃ := h₂.next (Calling.of_returned os (Adjoining os) _ _ (.vcrealloc (.var 1) 24 11)
    ⟨1, ⟨.var 1, 24, 4⟩, ⟨2288, 24, 4⟩, ⟨by decide +kernel, rfl, rfl, by decide +kernel⟩, by
      intro k' l' hk hl
      obtain rfl : 1 = k' := Option.some.inj (Except.ok.inj
        ((show State.find os _ 2288 = .ok (some 1) by decide +kernel).symm.trans hk))
      obtain rfl : ⟨2288, 24, 4⟩ = l' := Option.some.inj
        ((show State.container? os _ 1 = some ⟨2288, 24, 4⟩ by decide +kernel).symm.trans hl)
      exact ⟨rfl, ⟨by decide +kernel, by decide +kernel⟩,
        Or.inr ⟨fun hlt => absurd hlt (by decide +kernel), by decide +kernel⟩⟩⟩ (by decide +kernel))
  obtain ⟨L, hL⟩ := Run.adjacent hf h₃
  exact ⟨_, L, h₃, hL⟩

/-- A first container of 24-byte elements grows by whole pages, which its elements do not fill, so
that the next one no longer starts at its end. -/
theorem Run.not_adjacent_first :
    let os := OS.plain 7 (by decide) fun _ => true
    ∃ s l₀ l₁, Run (Calling os (fun _ _ => True) fun s call t =>
        Completes (call.run os (16 * os.page_size)) s t) (Fresh.state os 16 16)
        [.vcmalloc (.var 0) 24 10, .vcmalloc (.var 1) 24 4, .vcrealloc (.var 0) 24 20] s ∧
      s.mach.failures = 0 ∧ s.container? os 0 = some l₀ ∧ s.container? os 1 = some l₁ ∧
      l₁.reference_ ≠ l₀.nextAddress := by
  intro os
  have h₁ := Run.start.next (Calling.of_returned os (fun _ _ => True) (16 * os.page_size)
    (Fresh.state os 16 16) (.vcmalloc (.var 0) 24 10) trivial (by decide +kernel))
  have h₂ := h₁.next (Calling.of_returned os _ _ _ (.vcmalloc (.var 1) 24 4) trivial
    (by decide +kernel))
  have h₃ := h₂.next (Calling.of_returned os _ _ _ (.vcrealloc (.var 0) 24 20) trivial
    (by decide +kernel))
  exact ⟨_, ⟨2048, 24, 20⟩, ⟨2544, 24, 4⟩, h₃, by decide +kernel, by decide +kernel,
    by decide +kernel, by decide⟩

end Layouts

/-- What a resize of container `k` leaves of a container `d` at index `j`: its element size and the
bytes that it shares with its neighbours. Container `k` has the pages that it needs. -/
structure Reshaped (os : OS) (j k : ℕ) (l d d' : Container) (sizeofT n : ℕ) : Prop where
  type_size : d'.type_size_ = d.type_size_
  prior : d'.priorFreeBytes os = d.priorFreeBytes os
  guest : d'.guestBytes os = d.guestBytes os
  pages : d'.nbrOfPages os = if j = k then l.requestedPages os sizeofT n else d.nbrOfPages os
  bytes : d'.bytes = if j = k then l.capacity os (l.requestedPages os sizeofT n) else d.bytes

section Divisors

variable {os : OS} {s₀ s t : State} {h R j k num req sizeofT n : ℕ} {calls : List Call} {call : Call}
  {cs : List ContainerContext} {st : List Frame} {L : List Container} {c : ContainerContext}
  {l d : Container} {user : PtrLoc}

theorem dvd_capacity (hf : l.Fits os) (hu : Unwrapped os s l sizeofT n)
    (hs : sizeofT = l.type_size_) (hd : sizeofT ∣ os.page_size) :
    sizeofT ∣ l.capacity os (l.requestedPages os sizeofT n) := by
  have hP := os.page_size_pos
  have hg := hu.guest_le hf
  rw [Container.capacity, Container.priorFreeBytes_eq hf.reference_lt, Container.guestBytes_eq]
  rw [Container.priorFreeBytes_eq hf.reference_lt, Container.guestBytes_eq] at hg
  have hb : sizeofT ∣ l.bytes := by
    rw [hs]
    exact Nat.dvd_mul_right ..
  exact dvd_pages hP hd hb hg

theorem resized_fills (hf : l.Fits os) (hu : Unwrapped os s l sizeofT n)
    (hs : sizeofT = l.type_size_) (hd : sizeofT ∣ os.page_size) :
    (l.resized os (l.requestedPages os sizeofT n) sizeofT).bytes =
      l.capacity os (l.requestedPages os sizeofT n) := by
  rw [hu.resized_bytes hf hs]
  exact Nat.mul_div_cancel' (dvd_capacity hf hu hs hd)

theorem Exact.of_dvd (hf : l.Fits os) (hu : Unwrapped os s l sizeofT n)
    (hs : sizeofT = l.type_size_) (hd : sizeofT ∣ os.page_size) :
    Exact os num k l (l.requestedPages os sizeofT n) sizeofT := by
  have hfill := resized_fills hf hu hs hd
  obtain ⟨hfit, -⟩ := resized_fits hf (hu.guest_le hf) (hu.capacity_le hf) hfill.le
  refine ⟨fun _ => hfill, ?_⟩
  rw [Container.nbrOfPages_eq hfit, hfill, Container.resized_reference]
  exact span_capacity hf (hu.guest_le hf)

theorem Unwrapped.capacity_pos (hf : l.Fits os) (hu : Unwrapped os s l sizeofT n)
    (hs : 0 < sizeofT) (hn : 0 < n) : 0 < l.capacity os (l.requestedPages os sizeofT n) := by
  have hpos := Nat.mul_pos hn hs
  have hguest : l.guestBytes os < os.page_size := Container.guestBytes_lt
  have hprior : l.priorFreeBytes os < os.page_size := Container.priorFreeBytes_lt hf.reference_lt
  have hlt := os.page_size_lt
  rw [Container.capacity]
  rcases Nat.eq_zero_or_pos (l.requestedPages os sizeofT n) with hz | hp
  · have hreq := hz
    rw [Container.requestedPages, requestedBytes_eq hu.bytes (by omega)] at hreq
    have : n * sizeofT + l.guestBytes os - l.priorFreeBytes os = 0 := by
      by_contra hne
      exact absurd hreq (ceilPages_pos os (Nat.pos_of_ne_zero hne)).ne'
    omega
  · have := Nat.mul_le_mul_right os.page_size hp
    omega

theorem reallocList_entry (hl : L[k]? = some l) (hf : ∀ d ∈ L, d.Fits os)
    (hu : Unwrapped os s l sizeofT n) (hs : sizeofT = l.type_size_) (hd : sizeofT ∣ os.page_size)
    (hj : L[j]? = some d) : ∃ d', (reallocList os L k l sizeofT n)[j]? = some d' ∧
      Reshaped os j k l d d' sizeofT n := by
  have hP := os.page_size_pos
  have hfl := hf l (List.mem_of_getElem? hl)
  have hfd := hf d (List.mem_of_getElem? hj)
  have hcap := capacity_add hfl (hu.guest_le hfl)
  rw [reallocList]
  split
  · rename_i hsame
    refine ⟨d, hj, rfl, rfl, rfl, ?_, ?_⟩
    · split
      · rename_i hjk
        obtain rfl := Option.some.inj ((hjk ▸ hj).symm.trans hl)
        exact hsame.symm
      · rfl
    · split
      · rename_i hjk
        obtain rfl := Option.some.inj ((hjk ▸ hj).symm.trans hl)
        rw [hsame] at hcap ⊢
        omega
      · rfl
  · rename_i hne
    rcases Nat.lt_trichotomy j k with hlt | rfl | hgt
    · rw [getElem?_resizedList_lt hlt]
      exact ⟨d, hj, rfl, rfl, rfl, by rw [if_neg hlt.ne], by rw [if_neg hlt.ne]⟩
    · obtain rfl := Option.some.inj (hj.symm.trans hl)
      rw [getElem?_resizedList_self hl]
      have hfill := resized_fills hfl hu hs hd
      have hlt := hfl.reference_lt
      refine ⟨_, rfl, Container.resized_type_size .., ?_, ?_, ?_, ?_⟩
      · rw [Container.priorFreeBytes_eq (by rw [Container.resized_reference]; exact hlt),
          Container.priorFreeBytes_eq hlt, Container.resized_reference]
      · rw [Container.guestBytes_eq, Container.guestBytes_eq, hfill, Container.resized_reference]
        refine gap_congr hP ?_
        have hmod := congrArg (fun x => (d.reference_ + x) % os.page_size) hcap
        simp only [← add_assoc, Nat.add_mul_mod_self_right] at hmod
        exact hmod
      · rw [if_pos rfl]
        exact (@Exact.of_dvd os _ 0 0 _ _ d hfl hu hs hd).pages
      · rw [if_pos rfl]
        exact hfill
    · rw [getElem?_resizedList_gt hgt, hj, Option.map_some]
      obtain ⟨h₁, h₂, h₃⟩ := Container.counts_shift hfd (Container.moved_reference_lt _ _)
        (@moved_mod os (l.requestedPages os sizeofT n) l d) (Container.moved_bytes _ d)
      refine ⟨_, rfl, Container.moved_type_size _ d, h₃, h₂, ?_, ?_⟩
      · rw [if_neg hgt.ne']
        exact h₁
      · rw [if_neg hgt.ne']
        exact Container.moved_bytes _ d

theorem length_reallocList : (reallocList os L k l sizeofT n).length = L.length := by
  rw [reallocList]
  split
  · rfl
  · exact length_resizedList

theorem Views.reference_inj {m : Machine} {lo i : ℕ} {c' : ContainerContext}
    (hv : Views os m lo lo cs L) (hc : cs[i]? = some c) (hc' : cs[j]? = some c')
    (he : c.reference_ = c'.reference_) : i = j := by
  by_contra hne
  have ha := hv.apart_of_ne hne hc hc'
  obtain ⟨x, hx⟩ := hv.var (List.mem_of_getElem? hc)
  rw [← he, hx] at ha
  exact ha rfl

def Dividing (os : OS) (L : List Container) : Prop :=
  ∀ l ∈ L, 0 < l.bytes ∧ l.type_size_ ∣ os.page_size

theorem Regular.adjoining (hb : Laid os s h R cs st L) (hd : Dividing os L)
    (hok : Regular os s call) : Adjoining os s call := by
  have hc := hb.counted
  cases call with
  | vcmalloc user sizeofT n => exact ⟨hok.1, hok.2.2.2.2⟩
  | vcrealloc user sizeofT n =>
    obtain ⟨-, k, c, l, hr, hu⟩ := hok
    obtain ⟨hk, hl, hs⟩ := hr.get hb.counted
    refine ⟨k, c, l, hr, fun k' l' hf hl' => ?_⟩
    obtain ⟨i, d, hfind, hi, he⟩ := hc.views'.find_spec hc.num_eq hc.length_le
      hb.placed.tiled.ascending (hb.placed.reference_lt hc) hl
    obtain rfl : i = k' := (Option.some.inj (Except.ok.inj (hf.symm.trans hfind))).symm
    rw [hc.views'.reads.container?_eq] at hl'
    obtain rfl := Option.some.inj (hi.symm.trans hl')
    obtain rfl := hb.placed.tiled.spaced.index_eq (fun l hl => (hd l hl).1) hi hl he
    obtain rfl := Option.some.inj (hi.symm.trans hl)
    have hdvd := (hd d (List.mem_of_getElem? hl)).2
    have hfits := hc.fits d (List.mem_of_getElem? hl)
    refine ⟨hs, hu, Or.inr ?_⟩
    have hcap := dvd_capacity hfits hu hs (hs ▸ hdvd)
    refine ⟨fun _ => hcap, ?_⟩
    rw [Nat.mod_eq_zero_of_dvd hcap, zero_add]
    exact Container.guestBytes_lt
  | vcrealloc2 => exact hok.elim

/-- The containers after one call, when element sizes divide a page. -/
theorem Laid.regular_step (hb : Laid os s h R cs st L) (hd : Dividing os L)
    (hok : Regular os s call) (hcall : Completes (call.run os (h * os.page_size)) s t) :
    ∃ cs' st' L', Laid os t h R cs' st' L' ∧ Dividing os L' ∧ match call with
      | .vcrealloc user sizeofT n => cs'.map (·.reference_) = cs.map (·.reference_) ∧
          L'.length = L.length ∧ ∃ k c l, cs[k]? = some c ∧ c.reference_ = user ∧ L[k]? = some l ∧
            sizeofT = l.type_size_ ∧ ∀ j d, L[j]? = some d → ∃ d', L'[j]? = some d' ∧
              Reshaped os j k l d d' sizeofT n
      | _ => True := by
  have hc := hb.counted
  obtain ⟨cs', st', L', hb', hfollow⟩ := hb.step (hok.adjoining hb hd) hcall
  refine ⟨cs', st', L', hb', ?_⟩
  cases call with
  | vcmalloc user sizeofT n =>
    obtain ⟨-, rfl⟩ := hfollow
    obtain ⟨-, hs, hdvd, hn, -⟩ := hok
    refine ⟨fun l hl => ?_, trivial⟩
    rcases List.mem_append.mp hl with hl | hl
    · exact hd l hl
    · obtain rfl := List.mem_singleton.mp hl
      exact ⟨Nat.mul_pos hs hn, hdvd⟩
  | vcrealloc user sizeofT n =>
    obtain ⟨hrefs, k, k', c, l, l', hk, rfl, hl, hl', he, rfl⟩ := hfollow
    obtain ⟨hn, k₀, c₀, l₀, hr, hu⟩ := hok
    obtain ⟨hk₀, hl₀, hs⟩ := hr.get hb.counted
    obtain rfl := hb.counted.views.reference_inj hk₀ hk hr.reference
    obtain rfl := Option.some.inj (hk₀.symm.trans hk)
    obtain rfl := Option.some.inj (hl₀.symm.trans hl)
    obtain rfl := hb.placed.tiled.spaced.index_eq (fun l hl => (hd l hl).1) hl' hl he
    obtain rfl := Option.some.inj (hl'.symm.trans hl)
    obtain ⟨hpos, hdvd⟩ := hd l' (List.mem_of_getElem? hl)
    have hsize : 0 < sizeofT := by
      rw [hs]
      exact Nat.pos_of_mul_pos_right hpos
    have hentry := fun j d hj =>
      reallocList_entry (j := j) (d := d) hl hc.fits hu hs (hs ▸ hdvd) hj
    refine ⟨fun d' hd' => ?_, hrefs, length_reallocList, k', c₀, l', hk, rfl, hl, hs, hentry⟩
    obtain ⟨j, hj⟩ := List.mem_iff_getElem?.mp hd'
    have hjL : j < L.length := by
      have := (List.getElem?_eq_some_iff.mp hj).1
      rwa [length_reallocList] at this
    obtain ⟨e, he', hshape⟩ := hentry j L[j] (List.getElem?_eq_getElem hjL)
    obtain rfl := Option.some.inj (he'.symm.trans hj)
    obtain ⟨hpos', hdvd'⟩ := hd L[j] (List.getElem_mem hjL)
    refine ⟨?_, by rw [hshape.type_size]; exact hdvd'⟩
    rw [hshape.bytes]
    split
    · exact hu.capacity_pos (hc.fits l' (List.mem_of_getElem? hl)) hsize hn
    · exact hpos'
  | vcrealloc2 => exact hok.elim

theorem Run.laid (hf : Fresh os s₀ h R)
    (hrun : Run (Calling os (Regular os) fun s call t =>
      Completes (call.run os (h * os.page_size)) s t) s₀ calls s) :
    ∃ cs st L, Laid os s h R cs st L ∧ Dividing os L := by
  refine hrun.invariant (I := fun s => ∃ cs st L, Laid os s h R cs st L ∧ Dividing os L) ?_ ?_
  · obtain ⟨st, hb⟩ := hf.laid
    exact ⟨[], st, [], hb, fun _ hl => absurd hl List.not_mem_nil⟩
  · rintro s call t ⟨cs, st, L, hb, hd⟩ ⟨s', hbetween, hok, hcall⟩
    obtain ⟨cs', st', L', hb', hd', -⟩ := (hb.between hbetween).regular_step hd hok hcall
    exact ⟨cs', st', L', hb', hd'⟩

/-- Over every run of allocations and resizes of at least one element, of sizes that divide a page,
the layout is the one its accessors show: no gap, no overlap, all pages accounted for and mapped in
order. -/
theorem Run.layout (hf : Fresh os s₀ h R)
    (hrun : Run (Calling os (Regular os) fun s call t =>
      Completes (call.run os (h * os.page_size)) s t) s₀ calls s) :
    ∃ L, Layout os s h R L := by
  obtain ⟨cs, st, L, hb, -⟩ := hrun.laid hf
  exact ⟨L, hb.to_layout⟩

/-- Two containers, of which the first then grows. -/
theorem Run.layout_three :
    let os := OS.plain 7 (by decide) fun _ => true
    ∃ s L, Run (Calling os (Regular os) fun s call t =>
        Completes (call.run os (16 * os.page_size)) s t) (Fresh.state os 16 16)
        [.vcmalloc (.var 0) 8 20, .vcmalloc (.var 1) 8 4, .vcrealloc (.var 0) 8 40] s ∧
      Layout os s 16 16 L := by
  intro os
  have hf : Fresh os (Fresh.state os 16 16) 16 16 := Fresh.of_state (by decide) (by decide)
  have h₁ := Run.start.next (Calling.of_returned os (Regular os) (16 * os.page_size)
    (Fresh.state os 16 16) (.vcmalloc (.var 0) 8 20) ⟨⟨⟨0, rfl⟩, by decide +kernel⟩, by decide +kernel⟩
    (by decide +kernel))
  have h₂ := h₁.next (Calling.of_returned os (Regular os) _ _ (.vcmalloc (.var 1) 8 4)
    ⟨⟨⟨1, rfl⟩, by decide +kernel⟩, by decide +kernel⟩ (by decide +kernel))
  have h₃ := h₂.next (Calling.of_returned os (Regular os) _ _ (.vcrealloc (.var 0) 8 40)
    ⟨by decide, 0, ⟨.var 0, 8, 20⟩, ⟨2048, 8, 20⟩, ⟨by decide +kernel, rfl, rfl, by decide +kernel⟩,
      ⟨by decide +kernel, by decide +kernel⟩⟩ (by decide +kernel))
  obtain ⟨L, hL⟩ := Run.layout hf h₃
  exact ⟨_, L, h₃, hL⟩

end Divisors

end VcmallocBench
