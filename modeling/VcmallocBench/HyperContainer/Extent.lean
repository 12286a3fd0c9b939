import VcmallocBench.HyperContainer.Histories

/-! # The extent of the containers

A call that returns has obtained the memory it was asked for, byte for byte, as
long as no byte count wraps and no resize has left a gap: the pages of the
containers are then those that the frames of the hypercontainer are mapped to.
-/

namespace VcmallocBench

open Paging

/-- Allocations of new variables, and resizes of the container found for a variable, whose byte
counts do not wrap. Each resized container keeps its pages, or its neighbours adjacent and its pages
accounted for. -/
def Measured (os : OS) (s : State) : Call → Prop
  | .vcmalloc user sizeofT n => NewVariable s user ∧ sizeofT * n < 2 ^ 64
  | .vcrealloc user sizeofT n => 0 < sizeofT ∧ ∃ k c l, Refers os s user sizeofT k c l ∧
      s.find os l.reference_ = .ok (some k) ∧ Unwrapped os s l sizeofT n ∧
      (l.requestedPages os sizeofT n = l.nbrOfPages os ∨
        Divides os s.ctx.containers_num_ k l (l.requestedPages os sizeofT n) sizeofT)
  | .vcrealloc2 .. => False

/-- The variable has a container of at least `n` elements. It ends in the pages of the hypercontainer,
and each of its bytes lies in a page that a listed frame is mapped to. -/
def Holds (os : OS) (s : State) (h : ℕ) (user : PtrLoc) (sizeofT n : ℕ) : Prop :=
  ∃ k c l, Refers os s user sizeofT k c l ∧ n ≤ l.elements_num_ ∧
    l.reference_ + sizeofT * l.elements_num_ ≤ (h + s.ctx.pfns_num_) * os.page_size ∧
    ∀ a, l.reference_ ≤ a → a < l.reference_ + sizeofT * l.elements_num_ →
      ∃ f ∈ s.ctx.frames.take s.ctx.pfns_num_, s.mach.pageTable (a / os.page_size) = some f

def Call.Holds (os : OS) (s : State) (h : ℕ) : Call → Prop
  | .vcmalloc user sizeofT n | .vcrealloc user sizeofT n => VcmallocBench.Holds os s h user sizeofT n
  | .vcrealloc2 .. => False

section Steps

variable {os : OS} {s₀ s t : State} {h R k sizeofT n : ℕ} {calls : List Call} {call : Call}
  {cs : List ContainerContext} {st : List Frame} {L : List Container} {c : ContainerContext}
  {l : Container} {user : PtrLoc}

theorem Unwrapped.le_capacity (hu : Unwrapped os s l sizeofT n) (hf : l.Fits os)
    (hlt : l.requestedPages os sizeofT n * os.page_size < 2 ^ 53) :
    n * sizeofT ≤ l.capacity os (l.requestedPages os sizeofT n) := by
  have hg := hu.guest_le hf
  have hb := hu.bytes
  have hP := os.page_size_lt
  have hprior : l.priorFreeBytes os < os.page_size := Container.priorFreeBytes_lt hf.reference_lt
  have hreq : l.requestedPages os sizeofT n =
      (n * sizeofT + l.guestBytes os - l.priorFreeBytes os) ⌈/⌉ os.page_size := by
    rw [Container.requestedPages, requestedBytes_eq hb (by omega)] at hlt ⊢
    exact ceilPages_exact os hlt
  have hle := le_ceil_mul os.page_size_pos (n * sizeofT + l.guestBytes os - l.priorFreeBytes os)
  rw [← hreq] at hle
  rw [Container.capacity]
  omega

theorem Laid.holds (hb : Laid os s h R cs st L) (hr : Refers os s user sizeofT k c l)
    (hn : n ≤ l.elements_num_) : Holds os s h user sizeofT n := by
  have hP := os.page_size_pos
  have hc := hb.counted
  obtain ⟨-, hl, hs⟩ := hr.get hc
  have hbytes : sizeofT * l.elements_num_ = l.bytes := by rw [hs, Container.bytes]
  have hend := hb.placed.end_le hc hl
  have hbase := hb.placed.tiled.spaced.le_reference hl
  have hlen : (st.take s.ctx.pfns_num_).length = s.ctx.pfns_num_ := by
    rw [List.length_take, Nat.min_eq_left hc.core.num]
  rw [← hlen] at hend
  refine ⟨k, c, l, hr, hn, by rwa [hbytes, ← hlen], fun a h₁ h₂ => ?_⟩
  obtain ⟨i, hi, ha⟩ := page_of_address hP (hbase.trans h₁)
    (show a < (h + (st.take s.ctx.pfns_num_).length) * os.page_size by omega)
  have hpage := hb.placed.backed.page i hi
  rw [List.getElem?_eq_getElem hi] at hpage
  rw [frames_of_storage hc.core.table, ha]
  exact ⟨_, List.getElem_mem hi, hpage⟩

theorem reallocList_self (hl : L[k]? = some l) (hf : l.Fits os) (hs : sizeofT = l.type_size_)
    (hu : Unwrapped os s l sizeofT n) {num : ℕ}
    (hexact : l.requestedPages os sizeofT n = l.nbrOfPages os ∨
      Exact os num k l (l.requestedPages os sizeofT n) sizeofT) :
    ∃ l', (reallocList os L k l sizeofT n)[k]? = some l' ∧ l'.type_size_ = sizeofT ∧
      l'.nbrOfPages os = l.requestedPages os sizeofT n ∧
      l'.bytes = sizeofT * (l.capacity os (l.requestedPages os sizeofT n) / sizeofT) := by
  rw [reallocList]
  split
  · rename_i hsame
    have hcap := capacity_add hf (hu.guest_le hf)
    rw [hsame] at hcap ⊢
    have hbytes : l.capacity os (l.nbrOfPages os) = l.bytes := by omega
    have hdvd : sizeofT ∣ l.bytes := by
      rw [hs]
      exact Nat.dvd_mul_right ..
    exact ⟨l, hl, hs.symm, rfl, by rw [hbytes, Nat.mul_div_cancel' hdvd]⟩
  · rename_i hne
    refine ⟨_, getElem?_resizedList_self hl, ?_, (hexact.resolve_left hne).pages,
      hu.resized_bytes hf hs⟩
    rw [Container.resized_type_size, hs]

theorem Laid.refers {cs' : List ContainerContext} {st' : List Frame} {L' : List Container}
    {l' : Container} (hb : Laid os t h R cs' st' L') (hrefs : cs'.map (·.reference_) = cs.map (·.reference_))
    (hk : cs[k]? = some c) (hl : L'[k]? = some l') (hs : sizeofT = l'.type_size_) :
    ∃ c', Refers os t c.reference_ sizeofT k c' l' := by
  have hc := hb.counted
  obtain ⟨c', hc', hres⟩ := hc.views.get hl
  have href : c'.reference_ = c.reference_ := by
    have := congrArg (·[k]?) hrefs
    simpa [hk, hc'] using this
  refine ⟨c', ?_, href, ?_, hres⟩
  · rw [hc.core.containers_eq, hc']
  · rw [hs, (hc.views.sizes hc' hl).1]

theorem Laid.vcmalloc_holds {x : ℕ} (hb : Laid os s h R cs st L)
    (hx : ∀ c ∈ cs, c.reference_ ≠ .var x) (hov : sizeofT * n < 2 ^ 64)
    (hcall : ContainerAlloc os (h * os.page_size) (.var x) sizeofT n s = .ok () t) :
    Holds os t h (.var x) sizeofT n ∧ ∃ cs' st' L', Laid os t h R cs' st' L' := by
  obtain ⟨st', hb'⟩ := (hb.meets_ContainerAlloc hx hov).of_ok hcall
  have hlen := hb.counted.views.length_eq
  have hk : (cs ++ [(⟨.var x, sizeofT, n⟩ : ContainerContext)])[cs.length]? =
      some ⟨.var x, sizeofT, n⟩ := by simp
  have hl : (L ++ [⟨h * os.page_size + bytesOf L, sizeofT, n⟩])[cs.length]? =
      some ⟨h * os.page_size + bytesOf L, sizeofT, n⟩ := by simp [hlen]
  obtain ⟨c', hr⟩ := hb'.refers rfl hk hl rfl
  exact ⟨hb'.holds hr le_rfl, _, st', _, hb'⟩

theorem Laid.vcrealloc_holds (hb : Laid os s h R cs st L) (hr : Refers os s user sizeofT k c l)
    (hfind : s.find os l.reference_ = .ok (some k)) (hpos : 0 < sizeofT)
    (hu : Unwrapped os s l sizeofT n)
    (hd : l.requestedPages os sizeofT n = l.nbrOfPages os ∨
      Divides os s.ctx.containers_num_ k l (l.requestedPages os sizeofT n) sizeofT)
    (hcall : ContainerRealloc os user sizeofT n s = .ok () t) :
    Holds os t h user sizeofT n ∧ ∃ cs' st' L', Laid os t h R cs' st' L' := by
  have hc := hb.counted
  obtain ⟨hk, hl, hs⟩ := hr.get hc
  obtain rfl := hr.reference
  have hf := hc.fits l (List.mem_of_getElem? hl)
  rw [hc.num_eq] at hd
  have hmeets : Meets (ContainerRealloc os c.reference_ sizeofT n) s
      (fun _ t => ∃ cs' st', cs'.map (·.reference_) = cs.map (·.reference_) ∧
        Laid os t h R cs' st' (reallocList os L k l sizeofT n)) (Blamed s.mach.failures) := by
    refine hc.meets_ContainerRealloc hb.placed.tiled.ascending (hb.placed.reference_lt hc) hk hl
      fun k' c' l' hf' hk' hl' _ => ?_
    obtain rfl : k = k' := Option.some.inj (Except.ok.inj (hfind.symm.trans hf'))
    obtain rfl := Option.some.inj (hl.symm.trans hl')
    exact hb.meets_ContainerReallocAt hk hl hs hu (hd.imp_right fun h => h.exact hf hu hs)
  obtain ⟨cs', st', hrefs, hb'⟩ := hmeets.of_ok hcall
  obtain ⟨l', hl', hsize, hpages, hbytes⟩ := reallocList_self hl hf hs hu
    (hd.imp_right fun h => h.exact hf hu hs)
  obtain ⟨c', hr'⟩ := hb'.refers hrefs hk hl' hsize.symm
  refine ⟨hb'.holds hr' ?_, cs', st', _, hb'⟩
  -- its pages are few enough to be counted in doubles
  have hle : l.requestedPages os sizeofT n ≤ h + t.ctx.pfns_num_ := by
    have := hb'.counted.pages
    rw [pagesOf_eq hl', hpages] at this
    omega
  have hsmall := Nat.mul_le_mul_right os.page_size hle
  have hend := hb'.end_le
  have hfill := (Nat.le_div_iff_mul_le hpos).mpr (hu.le_capacity hf (by omega))
  rw [Container.bytes, hsize] at hbytes
  exact hfill.trans (Nat.eq_of_mul_eq_mul_left hpos hbytes).ge

theorem Laid.measured_step (hb : Laid os s h R cs st L) (hok : Measured os s call)
    (hcall : call.run os (h * os.page_size) s = .ok () t) :
    call.Holds os t h ∧ ∃ cs' st' L', Laid os t h R cs' st' L' := by
  cases call with
  | vcmalloc user sizeofT n =>
    obtain ⟨⟨⟨x, rfl⟩, hx⟩, hov⟩ := hok
    rw [hb.counted.core.containers_eq] at hx
    exact hb.vcmalloc_holds hx hov hcall
  | vcrealloc user sizeofT n =>
    obtain ⟨hpos, k, c, l, hr, hfind, hu, hd⟩ := hok
    exact hb.vcrealloc_holds hr hfind hpos hu hd hcall
  | vcrealloc2 => exact hok.elim

end Steps

end VcmallocBench
