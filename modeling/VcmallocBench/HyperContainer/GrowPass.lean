import VcmallocBench.HyperContainer.Effects
import VcmallocBench.HyperContainer.ShrinkPass

/-! # The second pass of a batch

The frames cut in the first pass are spare. Those that no container asks for are
freed, and those still missing are allocated. Then the listed containers that grow
take their frames from the end of the spare ones.
-/

namespace VcmallocBench

open Paging

section Spare

theorem int64_sub64 {a b : ℕ} (ha : a < 2 ^ 62) (hb : b < 2 ^ 62) :
    int64 (sub64 a b) = (a : ℤ) - b := by
  unfold int64 sub64
  split <;> omega

variable {os : OS} {s : State} {v : Pass} {F : ℕ} {G : Prop} {D g : ℕ}

def Machine.freed (m : Machine) (fs : List Frame) (calls : List OsCall) : Machine :=
  { m with
    allocated := m.allocated.filter (· ∉ fs)
    pageTable := fun p => (m.pageTable p).filter (· ∉ fs)
    calls := calls }

/-- Nothing but successful calls, which free the frames `fs` only, if they are held. -/
structure Machine.Calls (m : Machine) (fs : List Frame) (calls : List OsCall) : Prop where
  failures : calls.countP (fun c => !c.success) = m.failures
  legal : fs.Nodup → (∀ f ∈ fs, f ∈ m.allocated) → ∀ c ∈ calls, c ∈ m.calls ∨ c.Legal

theorem Machine.freed_nil (m : Machine) : m.freed [] m.calls = m := by
  unfold Machine.freed
  congr 1
  · funext p
    exact filter_not_mem_nil _
  · exact List.filter_eq_self.mpr fun f _ => by simp

theorem meets_freeSpare (hs : v.steps = D) (hg : v.requested_pages = g) (hD : D < 2 ^ 59)
    (hG : g < 2 ^ 59) (hlen : D ≤ v.sparePFNs.length) (hF : F ≤ s.mach.failures) :
    Meets (freeSpare os v) s (fun _ t => ∃ calls,
      s.mach.Calls (slice v.sparePFNs g (D - g)) calls ∧
      t = { s with mach := s.mach.freed (slice v.sparePFNs g (D - g)) calls }) (Blames G F) := by
  have hrem : int64 (sub64 v.steps v.requested_pages) = (D : ℤ) - g := by
    rw [hs, hg]
    exact int64_sub64 (by omega) (by omega)
  rw [freeSpare, hrem]
  refine meets_ite (fun hpos => ?_) fun hneg => (meets_pure _).mpr ?_
  · have hnat : ((D : ℤ) - g).toNat = D - g := by omega
    have hread : readSlice v.sparePFNs g (D - g) = some (slice v.sparePFNs g (D - g)) :=
      readSlice_eq (by omega)
    have hsl : (slice v.sparePFNs g (D - g)).length = D - g := length_slice (by omega)
    rw [hnat, hg, meets_bind]
    refine (meets_fetch hread).mpr ?_
    rw [meets_bind, FreeUserPhysicalPages, meets_osCall]
    dsimp only
    rw [meets_bind]
    refine meets_ensure (fun h₁ => meets_ensure (fun h₂ => ?_) fun h₂ => ?_) fun h₁ => ?_
    · rw [beq_iff_eq] at h₂
      rw [Machine.freeCall_eq h₁ (h₂.trans hsl.symm)]
      refine ⟨_, ⟨?_, fun hnd hheld call hc => ?_⟩, rfl⟩
      · rw [List.countP_cons_of_neg (by simp [OsCall.success])]
        rfl
      · rcases List.mem_cons.mp hc with rfl | hc
        · exact Or.inr ⟨hnd, hheld⟩
        · exact Or.inl hc
    · exact Or.inl (Machine.failures_lt_freeCall (Or.inr (by rw [hsl]; simpa using h₂)) hF)
    · exact Or.inl (Machine.failures_lt_freeCall (Or.inl h₁) hF)
  · have hz : D - g = 0 := by omega
    rw [hz, slice_zero]
    refine ⟨s.mach.calls, ⟨rfl, fun _ _ c hc => Or.inl hc⟩, ?_⟩
    rw [Machine.freed_nil]

structure ToppedUp (os : OS) (s t : State) (v v' : Pass) (D g : ℕ) (new : List Frame) : Prop where
  pass : v' = { v with sparePFNs := v'.sparePFNs }
  length : g ≤ v'.sparePFNs.length
  spare : v'.sparePFNs.take g = (v.sparePFNs.take D).take g ++ new
  new_length : new.length = g - D
  new_nodup : new.Nodup
  new_fresh : ∀ f ∈ new, f ∉ s.mach.allocated
  ctx : t.ctx = s.ctx
  mach : ∃ d calls, t.mach = { s.mach with
    allocated := new ++ s.mach.allocated
    frameData := d
    calls := calls } ∧ s.mach.Calls [] calls ∧ (∀ f ∉ new, d f = s.mach.frameData f) ∧
    ∀ f ∈ new, ∃ k, d f = os.contents k f

theorem meets_topUpSpare (hs : v.steps = D) (hg : v.requested_pages = g) (hD : D < 2 ^ 59)
    (hG : g < 2 ^ 59) (hlen : D ≤ v.sparePFNs.length) (hF : F ≤ s.mach.failures) :
    Meets (topUpSpare os v) s (fun v' t => ∃ new, ToppedUp os s t v v' D g new) (Blames G F) := by
  have hrem : int64 (sub64 v.steps v.requested_pages) = (D : ℤ) - g := by
    rw [hs, hg]
    exact int64_sub64 (by omega) (by omega)
  rw [topUpSpare, hrem]
  refine meets_ite (fun hneg => ?_) fun hpos => (meets_pure _).mpr ⟨[], ?_⟩
  · have hnat : (-((D : ℤ) - g)).toNat = g - D := by omega
    have hsum : u64 (v.steps + (g - D)) = g := by
      rw [hs, u64_of_lt (by omega)]
      omega
    have hbytes : u64 (g * sizeofFrame) = g * sizeofFrame := by
      rw [sizeofFrame]
      exact u64_of_lt (by omega)
    rw [hnat]
    dsimp only
    rw [hsum, hbytes, HeapReAlloc, meets_bind, meets_bind, meets_osCall, meets_pure, meets_bind,
      AllocateUserPhysicalPages, meets_osCall]
    dsimp only
    have hle := Machine.length_allocateCall os (s.mach.heapCall os (g * sizeofFrame)).2 (g - D)
    rw [Nat.mul_div_cancel _ (show 0 < sizeofFrame by decide), hs]
    cases hr : s.mach.reply os with
    | false =>
      -- without a block nothing can be allocated into it
      have hlt : F < (s.mach.heapCall os (g * sizeofFrame)).2.failures := by
        rw [Machine.failures_heapCall, hr]
        exact Nat.lt_succ_of_le hF
      have hlt' : F < ((s.mach.heapCall os (g * sizeofFrame)).2.allocateCall os
          (g - D)).2.failures := by
        rw [Machine.failures_allocateCall]
        exact Nat.lt_add_right _ hlt
      have hnone : (s.mach.heapCall os (g * sizeofFrame)).1 = false := hr
      rw [hnone, if_neg Bool.false_ne_true, Option.getD_none, meets_bind]
      refine meets_fetch_cases (fun l hl => ?_) (Or.inl hlt')
      rw [meets_bind]
      refine meets_ensure (fun _ => ?_) fun _ => Or.inl hlt'
      rw [meets_bind]
      refine meets_ensure (fun hn => ?_) fun _ => Or.inl hlt'
      obtain ⟨-, hfit, -⟩ := blit_some hl
      rw [beq_iff_eq] at hn
      have hle' := (hfit (by omega)).2
      rw [List.length_nil] at hle'
      omega
    | true =>
      have hsome : (s.mach.heapCall os (g * sizeofFrame)).1 = true := hr
      have hlen₁ := length_resize os v.sparePFNs g
      have htake := @take_resize os v.sparePFNs g D hlen (by omega)
      have hF' : F ≤ (s.mach.heapCall os (g * sizeofFrame)).2.failures := by
        rw [Machine.failures_heapCall, hr]
        exact hF
      rw [hsome, if_pos rfl, Option.getD_some, meets_bind]
      refine (meets_fetch (blit_eq (by omega) (by omega))).mpr ?_
      rw [meets_bind]
      refine meets_ensure (fun h₁ => ?_) fun h₁ =>
        Or.inl (Machine.failures_lt_allocateCall (Or.inl h₁) hF')
      rw [meets_bind]
      refine meets_ensure (fun h₂ => (meets_pure _).mpr ?_) fun h₂ =>
        Or.inl (Machine.failures_lt_allocateCall (Or.inr (by simpa using h₂)) hF')
      obtain ⟨new, d, hnew, hnd, hfresh, hd, hm⟩ := Machine.allocateCall_eq h₁
      have hcontents : ∀ f ∈ new, ∃ k, d f = os.contents k f := fun f hf => by
        have hf' := Machine.allocateCall_contents h₁ (hnew ▸ hf)
        rwa [hm] at hf'
      rw [beq_iff_eq, hnew] at h₂
      have hfit : D + new.length ≤ (resize os v.sparePFNs g).length := by omega
      have hall : slice new 0 new.length = new := by rw [slice, List.drop_zero, List.take_length]
      rw [hnew, hall, hm]
      refine ⟨new, ?_⟩
      exact {
        pass := by rw [hs]
        length := by
          dsimp only
          rw [length_overwrite hfit, hlen₁]
        spare := by
          dsimp only
          rw [take_overwrite hfit (by omega), htake, List.take_take, Nat.min_eq_right (by omega)]
        new_length := h₂
        new_nodup := hnd
        new_fresh := hfresh
        ctx := rfl
        mach := by
          refine ⟨d, _, rfl, ⟨?_, fun _ _ call hc => ?_⟩, hd, hcontents⟩
          · rw [List.countP_cons_of_neg (by simp [OsCall.success, h₂])]
            exact (Machine.failures_heapCall os s.mach (g * sizeofFrame)).trans (by rw [hr]; rfl)
          · rcases List.mem_cons.mp hc with rfl | hc
            · exact Or.inr trivial
            · rcases List.mem_cons.mp hc with rfl | hc
              · exact Or.inr trivial
              · exact Or.inl hc }
  · have hz : g - D = 0 := by omega
    have hmin : min g D = g := by omega
    exact {
      pass := rfl
      length := by omega
      spare := by rw [List.append_nil, List.take_take, hmin]
      new_length := hz.symm
      new_nodup := List.nodup_nil
      new_fresh := fun f hf => absurd hf List.not_mem_nil
      ctx := rfl
      mach := ⟨s.mach.frameData, s.mach.calls, rfl, ⟨rfl, fun _ _ c hc => Or.inl hc⟩, fun _ _ => rfl,
        fun f hf => absurd hf List.not_mem_nil⟩ }

end Spare

/-- A listed container after the second pass: one that grows moves up by the pages added before it.
One that does not still moves down by them. -/
def Container.grown (os : OS) (sizeofT p r steps : ℕ) (l : Container) : Container :=
  if p < r then (l.resized os r sizeofT).moved (u64 (steps * os.page_size))
  else l.moved (backWord os steps)

def secondPass (os : OS) (sizeofT start : ℕ) (p r : ℕ → ℕ) (i : ℕ) :
    List Container → List Container :=
  passOver start i fun j =>
    Container.grown os sizeofT (p j) (r j) (sumTo (fun k => r k - p k) j)

/-- The guest bytes of a container can be copied to a page mapped at `buffer`, wherever other memory is
mapped as given. -/
def CopiesUp (os : OS) (pageTable : ℕ → Option Frame) (buffer : ℕ) (l : Container) : Prop :=
  ∀ m : Machine, (∀ p ≠ buffer / os.page_size, m.pageTable p = pageTable p) →
    (m.pageTable (buffer / os.page_size)).isSome →
    (m.memmove os (u64 (buffer + l.lastPageOffset os))
      (sub64 (l.nextMappingAddress os) (l.guestBytes os)) (l.guestBytes os)).isSome

/-- The contents of frames after the guest bytes of a container are copied to the frame mapped at
`buffer`. -/
def stagedData (os : OS) (pageTable : ℕ → Option Frame) (buffer : ℕ) (staged : Option Frame)
    (l : Container) (d : Frame → ℕ → Byte) : Frame → ℕ → Byte :=
  copied os (Function.update pageTable (buffer / os.page_size) staged)
    (u64 (buffer + l.lastPageOffset os)) (sub64 (l.nextMappingAddress os) (l.guestBytes os))
    (l.guestBytes os) d

/-- The contents of frames after `i` rounds of the second pass. The guest bytes of a container that
grows go to the first of its new frames. -/
def grownData (os : OS) (pageTable : ℕ → Option Frame) (buffer start n : ℕ) (p r : ℕ → ℕ)
    (spare : List Frame) (L : List Container) (d : Frame → ℕ → Byte) : ℕ → Frame → ℕ → Byte
  | 0 => d
  | i + 1 =>
    let d' := grownData os pageTable buffer start n p r spare L d i
    if p i < r i then
      (L[start + i]?).elim d' fun l => stagedData os pageTable buffer
        spare[sumTo (fun j => r j - p j) n - sumTo (fun j => r j - p j) (i + 1)]? l d'
    else d'

/-- The state of the second pass after `i` rounds. The frames for the containers that grow are taken
from the end of the first ones of `spare`. -/
structure Growing (os : OS) (s₀ : State) (refs : List PtrLoc) (st spare : List Frame)
    (L : List Container) (sizeofT start S buffer : ℕ) (array : List ℕ) (p r : ℕ → ℕ) (i : ℕ)
    (v : Pass) (s : State) : Prop where
  itStruct : v.itStruct = start + i
  PFNsIdx : v.PFNsIdx = S + sumTo p i
  tempPFNsIdx : v.tempPFNsIdx = sumTo r i
  steps : v.steps = sumTo (fun j => r j - p j) i
  requested_pages : v.requested_pages =
    sumTo (fun j => r j - p j) array.length - sumTo (fun j => r j - p j) i
  temp_length : v.tempPFNs.length =
    s₀.ctx.pfns_num_ + sumTo (fun j => r j - p j) array.length
  temp : v.tempPFNs.take v.tempPFNsIdx = joined st spare (fun j => S + sumTo p j) p
    (fun j => sumTo (fun j => r j - p j) array.length - sumTo (fun j => r j - p j) (j + 1))
    (fun j => r j - p j) i
  spare_eq : v.sparePFNs = spare
  entries : v.elements_num_array = array
  tabled : Tabled os refs st (secondPass os sizeofT start p r i L) s
  pfns_num : s.ctx.pfns_num_ = s₀.ctx.pfns_num_ + sumTo (fun j => r j - p j) i
  size : s.ctx.hypercontainer_size_ = s₀.ctx.hypercontainer_size_
  mach : s₀.mach.Undisturbed s.mach refs {buffer / os.page_size}
  data : s.mach.frameData = grownData os s₀.mach.pageTable buffer start array.length p r spare L
    s₀.mach.frameData i

section SecondPass

variable {os : OS} {s₀ s : State} {refs : List PtrLoc} {st spare : List Frame} {L : List Container}
  {sizeofT start S i F buffer : ℕ} {array : List ℕ} {p r : ℕ → ℕ} {v : Pass} {l : Container}
  {G : Prop}

theorem secondPass_succ (hl : L[start + i]? = some l) :
    (secondPass os sizeofT start p r i L).set (start + i)
      (l.grown os sizeofT (p i) (r i) (sumTo (fun k => r k - p k) i)) =
      secondPass os sizeofT start p r (i + 1) L := passOver_succ hl

theorem meets_mapPage (refs : List PtrLoc) {α : Type} {a : ℕ} {fs : Option (List Frame)} {message : String}
    {f : Unit → Op α} {Q : α → State → Prop} (hF : F ≤ s.mach.failures)
    (hQ : ∀ m, s.mach.Undisturbed m refs {a / os.page_size} → m.vars = s.mach.vars →
      m.pageTable = Function.update s.mach.pageTable (a / os.page_size) (fs.bind (·[0]?)) →
      m.frameData = s.mach.frameData → Meets (f ()) { s with mach := m } Q (Blames G F)) :
    Meets (MapUserPhysicalPages os a 1 fs >>= fun ok => ensure ok message >>= f) s Q
      (Blames G F) := by
  rw [meets_bind, MapUserPhysicalPages, meets_osCall, meets_bind]
  refine meets_ensure (fun hok => ?_) fun hno => Or.inl (Machine.failures_lt_mapCall hno hF)
  rw [Machine.mapCall_eq hok]
  refine hQ _ ⟨fun _ _ => rfl, fun p hp => if_neg ?_, rfl, rfl, ?_, fun c hc => ?_⟩ rfl
    (funext fun p => ?_) rfl
  · rw [Set.mem_singleton_iff] at hp
    omega
  · exact (Machine.failures_cons s.mach (.map a 1 true)).trans (by simp [OsCall.success])
  · rcases List.mem_cons.mp hc with rfl | hc
    · exact Or.inr trivial
    · exact Or.inl hc
  · rcases eq_or_ne p (a / os.page_size) with rfl | hp
    · rw [Function.update_self]
      dsimp only
      rw [if_pos ⟨le_rfl, Nat.lt_succ_self _⟩, Nat.sub_self]
    · rw [Function.update_of_ne hp]
      exact if_neg (by omega)

/-- The first of the new frames of a container is mapped at `buffer` and takes its guest bytes. -/
theorem meets_stageGuest (refs : List PtrLoc) {α : Type} {pageTable : ℕ → Option Frame}
    {spareIdx : ℕ} {message : String} {f : Unit → Op α} {Q : α → State → Prop}
    (hpt : ∀ x ≠ buffer / os.page_size, s.mach.pageTable x = pageTable x)
    (hidx : spareIdx < spare.length) (hcopy : G → CopiesUp os pageTable buffer l)
    (hF : F ≤ s.mach.failures)
    (hQ : ∀ m, s.mach.Undisturbed m refs {buffer / os.page_size} → m.vars = s.mach.vars →
      m.frameData = stagedData os pageTable buffer spare[spareIdx]? l s.mach.frameData →
      Meets (f ()) { s with mach := m } Q (Blames G F)) :
    Meets (fetch (fun _ => readSlice spare spareIdx 1) .bounds >>= fun staged =>
      MapUserPhysicalPages os buffer 1 (some staged) >>= fun ok => ensure ok message >>= fun _ =>
        memmove os (u64 (buffer + l.lastPageOffset os))
          (sub64 (l.nextMappingAddress os) (l.guestBytes os)) (l.guestBytes os) >>= f) s Q
      (Blames G F) := by
  rw [meets_bind]
  refine (meets_fetch (readSlice_eq (by omega))).mpr ?_
  refine meets_mapPage refs hF fun m₁ hm₁ hv₁ hmap₁ hd₁ => ?_
  have hpt₁ : m₁.pageTable = Function.update pageTable (buffer / os.page_size) spare[spareIdx]? := by
    rw [hmap₁, Option.bind_some, getElem?_slice, if_pos Nat.one_pos, add_zero]
    ext1 x
    rcases eq_or_ne x (buffer / os.page_size) with rfl | hx
    · rw [Function.update_self, Function.update_self]
    · rw [Function.update_of_ne hx, Function.update_of_ne hx, hpt x hx]
  rw [meets_bind, memmove]
  cases hm : m₁.memmove os (u64 (buffer + l.lastPageOffset os))
      (sub64 (l.nextMappingAddress os) (l.guestBytes os)) (l.guestBytes os) with
  | none =>
    refine (meets_onMachine_none hm).mpr (Or.inr ⟨fun hg => ?_, by decide⟩)
    refine absurd (hcopy hg m₁ (fun x hx => ?_) ?_) (by simp [hm])
    · rw [hpt₁, Function.update_of_ne hx]
    · rw [hpt₁, Function.update_self, List.getElem?_eq_getElem hidx]
      rfl
  | some m₂ =>
    obtain rfl := Machine.memmove_copied hm
    refine (meets_onMachine hm).mpr ?_
    refine hQ _ (hm₁.trans (.frameData m₁ _)) hv₁ ?_
    rw [stagedData, ← hpt₁, ← hd₁]

theorem grownData_take (pageTable : ℕ → Option Frame) (buffer start n : ℕ) (p r : ℕ → ℕ)
    (spare : List Frame) (L : List Container) (d : Frame → ℕ → Byte) (i : ℕ) (hi : i ≤ n) :
    grownData os pageTable buffer start n p r (spare.take (sumTo (fun j => r j - p j) n)) L d i =
      grownData os pageTable buffer start n p r spare L d i := by
  induction i with
  | zero => rfl
  | succ i ih =>
    rw [grownData, grownData, ih (by omega)]
    split
    · rename_i hlt
      have h₁ := sumTo_mono (fun j => r j - p j) hi
      have h₂ := sumTo_succ (fun j => r j - p j) i
      rw [List.getElem?_take_of_lt (by omega)]
    · rfl

theorem grownData_none (pageTable : ℕ → Option Frame) (buffer start n : ℕ) {p r : ℕ → ℕ}
    (spare : List Frame) (L : List Container) (d : Frame → ℕ → Byte) (i : ℕ)
    (h : ∀ j < i, r j ≤ p j) : grownData os pageTable buffer start n p r spare L d i = d := by
  induction i with
  | zero => rfl
  | succ i ih =>
    rw [grownData, if_neg (h i (Nat.lt_succ_self i)).not_gt]
    exact ih fun j hj => h j (Nat.lt_succ_of_lt hj)

section Round

variable (hl : Listed os sizeofT start S s₀.ctx.pfns_num_ array p r L) (hle : ∀ j < array.length, p j ≤ r j)
  (hi : i < array.length) (hget : L[start + i]? = some l)
  (hroom : s₀.ctx.pfns_num_ + sumTo (fun j => r j - p j) array.length ≤ st.length)
  (hspare : sumTo (fun j => r j - p j) array.length ≤ spare.length)
  (h : Growing os s₀ refs st spare L sizeofT start S buffer array p r i v s)

include hl hle hi

theorem Listed.bounds_grow : S + sumTo p i + p i ≤ s₀.ctx.pfns_num_ ∧
    sumTo p i + sumTo (fun j => r j - p j) i = sumTo r i ∧
    sumTo (fun j => r j - p j) i + (r i - p i) ≤ sumTo (fun j => r j - p j) array.length ∧
    s₀.ctx.pfns_num_ + sumTo (fun j => r j - p j) array.length < 2 ^ 59 := by
  have h₁ := sumTo_le p hi
  have h₂ := hl.end_le
  exact ⟨by omega, sumTo_add_sub fun j hj => hle j (hj.trans hi), sumTo_le _ hi, hl.words⟩

include hget hroom hspare h

omit hspare in
theorem Growing.meets_keepPages (hp : p i = r i) {E : Fault → State → Prop} :
    Meets (keepPages os v (p i)) s
      (Growing os s₀ refs st spare L sizeofT start S buffer array p r (i + 1)) E := by
  obtain ⟨hb₁, hb₂, hb₃, hb₄⟩ := hl.bounds_grow hle hi
  have hcut : r i - p i = 0 := Nat.sub_eq_zero_of_le hp.ge
  have h₁ := h.PFNsIdx
  have h₂ := h.tempPFNsIdx
  have h₃ := h.temp_length
  have hnext : (secondPass os sizeofT start p r i L)[v.itStruct]? = some l := by
    rw [h.itStruct]
    exact getElem?_passOver_next.trans hget
  refine (h.tabled.meets_keepPages (v := v) (n := p i) hnext (by omega) (by omega) (by omega)).imp
    fun _ t ht => ?_
  obtain ⟨⟨temp, hlen, htake, rfl⟩, hctx, hrw, htab⟩ := ht
  constructor
  case itStruct =>
    dsimp only
    rw [h.itStruct, add_assoc]
  case PFNsIdx =>
    dsimp only
    rw [h₁, sumTo_succ, add_assoc]
  case tempPFNsIdx =>
    dsimp only
    rw [h₂, sumTo_succ, hp]
  case steps => rw [h.steps, sumTo_succ, hcut, add_zero]
  case requested_pages => rw [h.requested_pages, sumTo_succ, hcut, add_zero]
  case temp_length => exact hlen.trans h₃
  case temp =>
    dsimp only at htake ⊢
    rw [htake, h.temp, joined_succ, h₁, hcut, slice_zero, List.append_nil]
  case spare_eq => exact h.spare_eq
  case entries => exact h.entries
  case tabled =>
    have hc : l.grown os sizeofT (p i) (r i) (sumTo (fun k => r k - p k) i) =
        l.moved (backWord os v.steps) := by
      rw [Container.grown, if_neg (by omega), h.steps]
    rwa [← hc, h.itStruct, secondPass_succ hget] at htab
  case pfns_num => rw [hctx, h.pfns_num, sumTo_succ, hcut, add_zero]
  case size => rw [hctx, h.size]
  case mach => exact h.mach.trans (.of_reassigned hrw)
  case data =>
    rw [grownData, if_neg (by omega), hrw.eq]
    exact h.data

omit hget in
theorem Growing.takeFrames (hr : p i < r i) :
    ∃ temp temp', blit st v.PFNsIdx v.tempPFNs v.tempPFNsIdx (p i) = some temp ∧
      blit spare (sumTo (fun j => r j - p j) array.length - sumTo (fun j => r j - p j) (i + 1)) temp
        (u64 (v.tempPFNsIdx + p i)) (r i - p i) = some temp' ∧
      temp'.length = v.tempPFNs.length ∧
      temp'.take (v.tempPFNsIdx + r i) = joined st spare (fun j => S + sumTo p j) p
        (fun j => sumTo (fun j => r j - p j) array.length - sumTo (fun j => r j - p j) (j + 1))
        (fun j => r j - p j) (i + 1) := by
  obtain ⟨hb₁, hb₂, hb₃, hb₄⟩ := hl.bounds_grow hle hi
  have h₁ := h.PFNsIdx
  have h₂ := h.tempPFNsIdx
  have h₃ := h.temp_length
  have hsucc := sumTo_succ (fun j => r j - p j) i
  obtain ⟨temp, htemp, hlen, htake⟩ := @blit_behind _ st v.tempPFNs v.PFNsIdx v.tempPFNsIdx (p i)
    (by omega) (by omega)
  obtain ⟨temp', htemp', hlen', htake'⟩ := @blit_behind _ spare temp
    (sumTo (fun j => r j - p j) array.length - sumTo (fun j => r j - p j) (i + 1))
    (v.tempPFNsIdx + p i) (r i - p i) (by omega) (by omega)
  have hmid : u64 (v.tempPFNsIdx + p i) = v.tempPFNsIdx + p i := u64_of_lt (by omega)
  have he : v.tempPFNsIdx + r i = v.tempPFNsIdx + p i + (r i - p i) := by omega
  refine ⟨temp, temp', htemp, by rw [hmid]; exact htemp', hlen'.trans hlen, ?_⟩
  rw [he, htake', htake, h.temp, joined_succ, h₁, List.append_assoc]

omit hspare in
theorem Growing.meets_advance {m : Machine} {temp : List Frame} (hr : p i < r i)
    (hund : s₀.mach.Undisturbed m refs {buffer / os.page_size})
    (htab : Tabled os refs st (secondPass os sizeofT start p r i L) ⟨m, s.ctx⟩)
    (hdata : m.frameData = stagedData os s₀.mach.pageTable buffer
      spare[sumTo (fun j => r j - p j) array.length - sumTo (fun j => r j - p j) (i + 1)]? l
      s.mach.frameData)
    (hlen : temp.length = v.tempPFNs.length)
    (htake : temp.take (v.tempPFNsIdx + r i) = joined st spare (fun j => S + sumTo p j) p
      (fun j => sumTo (fun j => r j - p j) array.length - sumTo (fun j => r j - p j) (j + 1))
      (fun j => r j - p j) (i + 1)) {E : Fault → State → Prop} :
    Meets (do
      setElements v.itStruct
        (resizedElements os (r i) (l.priorFreeBytes os) (l.guestBytes os) sizeofT)
      moveReference os v.itStruct (u64 (v.steps * os.page_size))
      modifyCtx fun ctx => { ctx with pfns_num_ := u64 (ctx.pfns_num_ + (r i - p i)) }
      return { v with
        tempPFNs := temp
        sparePFNs := spare
        PFNsIdx := u64 (v.PFNsIdx + p i)
        tempPFNsIdx := u64 (v.tempPFNsIdx + r i)
        requested_pages :=
          sumTo (fun j => r j - p j) array.length - sumTo (fun j => r j - p j) (i + 1)
        steps := u64 (v.steps + (r i - p i))
        itStruct := v.itStruct + 1 }) ⟨m, s.ctx⟩
      (Growing os s₀ refs st spare L sizeofT start S buffer array p r (i + 1)) E := by
  obtain ⟨hb₁, hb₂, hb₃, hb₄⟩ := hl.bounds_grow hle hi
  have h₁ := h.PFNsIdx
  have h₂ := h.tempPFNsIdx
  have h₃ := h.temp_length
  have h₅ := h.steps
  have hsucc := sumTo_succ (fun j => r j - p j) i
  have hnext : (secondPass os sizeofT start p r i L)[v.itStruct]? = some l := by
    rw [h.itStruct]
    exact getElem?_passOver_next.trans hget
  have hk : v.itStruct < (secondPass os sizeofT start p r i L).length :=
    (List.getElem?_eq_some_iff.mp hnext).1
  rw [meets_bind]
  refine htab.meets_setElements hnext fun t hmach hnum hsize htab' => ?_
  rw [meets_bind]
  refine (htab'.meets_moveReference (List.getElem?_set_self hk) _).imp fun _ u hu => ?_
  obtain ⟨hctx, hrw, htab''⟩ := hu
  rw [List.set_set] at htab''
  have hpn : u64 (u.ctx.pfns_num_ + (r i - p i)) =
      s₀.ctx.pfns_num_ + sumTo (fun j => r j - p j) (i + 1) := by
    rw [hctx, hnum, h.pfns_num, hsucc, u64_of_lt (by omega), add_assoc]
  -- comparing the fields of a context must not evaluate the wrap
  obtain ⟨num, hnum'⟩ : ∃ num, u64 (u.ctx.pfns_num_ + (r i - p i)) = num := ⟨_, rfl⟩
  rw [hnum'] at hpn
  rw [meets_bind, meets_modifyCtx, hnum']
  refine (meets_pure _).mpr ?_
  constructor
  case itStruct =>
    dsimp only
    rw [h.itStruct, add_assoc]
  case PFNsIdx =>
    dsimp only
    rw [u64_of_lt (by omega), h₁, sumTo_succ, add_assoc]
  case tempPFNsIdx =>
    dsimp only
    rw [u64_of_lt (by omega), h₂, sumTo_succ]
  case steps =>
    dsimp only
    rw [u64_of_lt (by omega), h₅, sumTo_succ]
  case requested_pages => rfl
  case temp_length => exact hlen.trans h₃
  case temp =>
    dsimp only
    rw [u64_of_lt (by omega), htake]
  case spare_eq => rfl
  case entries => exact h.entries
  case tabled =>
    have hc : l.grown os sizeofT (p i) (r i) (sumTo (fun k => r k - p k) i) =
        Container.moved (u64 (v.steps * os.page_size)) { l with
          elements_num_ := resizedElements os (r i) (l.priorFreeBytes os) (l.guestBytes os)
            sizeofT } := by
      rw [Container.grown, if_pos hr, h₅, Container.resized]
    rw [← hc, h.itStruct, secondPass_succ hget] at htab''
    refine htab''.congr rfl fun cs hcore => ?_
    refine ⟨hcore.cells, hcore.containers_num, hcore.containers_le, hcore.containers_words,
      hcore.table, hcore.max, hcore.words, ?_⟩
    dsimp only
    rw [hpn]
    omega
  case pfns_num => exact hpn
  case size =>
    dsimp only
    rw [hctx, hsize]
    exact h.size
  case mach =>
    rw [hmach] at hrw
    exact hund.trans (.of_reassigned hrw)
  case data =>
    rw [grownData, if_pos hr, hget, Option.elim_some, ← h.data, ← hdata]
    dsimp only
    rw [hrw.eq, hmach]

theorem Growing.meets_growPages (hr : p i < r i) (hF : F ≤ s₀.mach.failures)
    (hcopy : G → CopiesUp os s₀.mach.pageTable buffer l) :
    Meets (growPages os sizeofT buffer v l (r i)) s
      (Growing os s₀ refs st spare L sizeofT start S buffer array p r (i + 1)) (Blames G F) := by
  obtain ⟨hb₁, hb₂, hb₃, hb₄⟩ := hl.bounds_grow hle hi
  have hp := hl.has i l _ hget (List.getElem?_eq_getElem hi)
  have h₆ := h.requested_pages
  have hsucc := sumTo_succ (fun j => r j - p j) i
  have hsteps : sub64 (r i) (l.nbrOfPages os) = r i - p i := by
    rw [← hp]
    exact sub64_of_le hr.le (by omega)
  have hidx : sub64 v.requested_pages (r i - p i) =
      sumTo (fun j => r j - p j) array.length - sumTo (fun j => r j - p j) (i + 1) := by
    rw [sub64_of_le (by omega) (by omega), h₆, hsucc]
    omega
  obtain ⟨temp, temp', htemp, htemp', hlen, htake⟩ := Growing.takeFrames hl hle hi hroom hspare h hr
  have hframes : s.ctx.frames = st := frames_of_storage h.tabled.table
  rw [growPages, hsteps, hidx, ← hp, h.spare_eq]
  refine meets_stageGuest refs (fun x hx => h.mach.pageTable x hx) (by omega) hcopy
    (hF.trans h.mach.failures.ge) fun m₂ hm₂ hv₂ hd₂ => ?_
  rw [meets_bind]
  refine (meets_fetch (a := temp) (by rw [hframes]; exact htemp)).mpr ?_
  rw [meets_bind]
  refine (meets_fetch htemp').mpr ?_
  -- the page is mapped over the old ones
  refine meets_mapPage refs (hF.trans (h.mach.failures.ge.trans hm₂.failures.ge))
    fun m₃ hm₃ hv₃ _ hd₃ => ?_
  refine Growing.meets_advance hl hle hi hget hroom h hr ((h.mach.trans hm₂).trans hm₃) ?_
    (hd₃.trans hd₂) hlen htake
  exact (h.tabled.machine hv₂).machine hv₃

theorem Growing.meets_growRound (hF : F ≤ s₀.mach.failures)
    (hcopy : G → p i < r i → CopiesUp os s₀.mach.pageTable buffer l) :
    Meets (growRound os sizeofT buffer v i) s
      (Growing os s₀ refs st spare L sizeofT start S buffer array p r (i + 1)) (Blames G F) := by
  have ha := List.getElem?_eq_getElem hi
  have hentry : v.elements_num_array[i]? = some array[i] := by rw [h.entries, ha]
  have hp := hl.has i l _ hget ha
  have hr := hl.wants i l _ hget ha
  have hnext : (secondPass os sizeofT start p r i L)[v.itStruct]? = some l := by
    rw [h.itStruct]
    exact getElem?_passOver_next.trans hget
  rw [growRound, meets_bind]
  refine (meets_fetch hentry).mpr ?_
  rw [meets_bind, h.tabled.meets_containerAt hnext]
  dsimp only
  rw [← hp]
  rw [Container.wanted] at hr
  refine meets_ite (fun hk => ?_) fun hk => ?_
  · rw [if_pos hk, ← hp] at hr
    exact Growing.meets_keepPages hl hle hi hget hroom h hr.symm
  · rw [if_neg hk] at hr
    rw [← hr]
    refine meets_ite (fun heq => ?_) fun hne => meets_ite (fun hlt => ?_) fun hge => ?_
    · exact Growing.meets_keepPages hl hle hi hget hroom h heq.symm
    · exact Growing.meets_growPages hl hle hi hget hroom hspare h hlt hF fun hg => hcopy hg hlt
    · have := hle i hi
      omega

end Round

end SecondPass

/-- The second pass from the allocation of room in the frame table on. -/
def growTail (os : OS) (sizeofT start startPFNsIdx startNumberOfPFNs array_size post num : ℕ)
    (v : Pass) (tempPFNs : List Frame) (copy_buffer : ℕ) : Op Unit := do
  AssertPfnsStorage os (u64 (num + v.requested_pages))
  let v ← (List.range array_size).foldlM (growRound os sizeofT copy_buffer) { v with
    itStruct := start
    PFNsIdx := startPFNsIdx
    tempPFNsIdx := 0
    steps := 0
    tempPFNs := tempPFNs }
  shiftReferences os v.itStruct (u64 (v.steps * os.page_size))
  let _ ← commitPages os start startPFNsIdx startNumberOfPFNs post v
    "vcrealloc: couldn't unmap old frames upon allocation"
    "vcrealloc: couldn't map comitted allocation changes"
  let ok ← HeapFree os
  ensure ok "vcrealloc: couldn't free the temporary PFNs array"
  let ok ← osCall (·.releaseCall os copy_buffer)
  ensure ok "vcrealloc: failed to release virtuall buffer"

theorem growPass_eq (os : OS) (sizeofT start startPFNsIdx startNumberOfPFNs array_size post : ℕ)
    (v : Pass) :
    growPass os sizeofT start startPFNsIdx startNumberOfPFNs array_size post v = (do
      let v ← topUpSpare os v
      let ctx ← getCtx
      let tempPFNs ← HeapAlloc os (u64 (u64 (ctx.pfns_num_ + v.requested_pages) * sizeofFrame))
      let copy_buffer ← osCall (·.reserveCall os 0 os.page_size)
      growTail os sizeofT start startPFNsIdx startNumberOfPFNs array_size post ctx.pfns_num_ v
        tempPFNs (copy_buffer.getD 0)) := rfl

def grownFrames (fs spare : List Frame) (S N n : ℕ) (p r : ℕ → ℕ) : List Frame :=
  joined fs spare (fun j => S + sumTo p j) p
    (fun j => sumTo (fun j => r j - p j) n - sumTo (fun j => r j - p j) (j + 1))
    (fun j => r j - p j) n ++ slice fs (S + sumTo p n) (N - (S + sumTo p n))

def grownList (os : OS) (sizeofT start n : ℕ) (p r : ℕ → ℕ) (L : List Container) : List Container :=
  moveFrom (start + n) (u64 (sumTo (fun j => r j - p j) n * os.page_size))
    (secondPass os sizeofT start p r n L)

/-- What the second pass leaves. The pages mapped before were those up to the `N`-th one. -/
structure Grown (os : OS) (s t : State) (refs : List PtrLoc) (st spare : List Frame)
    (L : List Container) (sizeofT start S N buffer : ℕ) (l : Container) (n : ℕ) (p r : ℕ → ℕ) :
    Prop where
  tabled : ∃ st', Tabled os refs st' (grownList os sizeofT start n p r L) t ∧
    st'.take t.ctx.pfns_num_ = st.take S ++
      grownFrames (st.take s.ctx.pfns_num_) spare S s.ctx.pfns_num_ n p r
  pfns_num : t.ctx.pfns_num_ = s.ctx.pfns_num_ + sumTo (fun j => r j - p j) n
  size : t.ctx.hypercontainer_size_ = s.ctx.hypercontainer_size_
  pageTable : ∀ x, x ≠ buffer / os.page_size → (∀ g ∈ s.mach.regions, g.base = buffer →
      ¬ (buffer ≤ x * os.page_size ∧ x * os.page_size < buffer + g.size)) →
    t.mach.pageTable x = remapPages s.mach.pageTable (l.mappingAddress os / os.page_size) (N - S)
      (grownFrames (st.take s.ctx.pfns_num_) spare S s.ctx.pfns_num_ n p r) x
  gone : ∀ x, (∃ g ∈ s.mach.regions, g.base = buffer ∧ buffer ≤ x * os.page_size ∧
    x * os.page_size < buffer + g.size) → t.mach.pageTable x = none
  regions : t.mach.regions = s.mach.regions.filter (·.base != buffer)
  mach : s.mach.Undisturbed { t.mach with
    pageTable := s.mach.pageTable
    regions := s.mach.regions } refs ∅
  region : grownFrames (st.take s.ctx.pfns_num_) spare S s.ctx.pfns_num_ n p r ≠ [] →
    s.mach.inRegion os (l.mappingAddress os)
      (grownFrames (st.take s.ctx.pfns_num_) spare S s.ctx.pfns_num_ n p r).length = true
  data : t.mach.frameData = grownData os s.mach.pageTable buffer start n p r spare L
    s.mach.frameData n

structure Enlarged (os : OS) (s t : State) (refs : List PtrLoc) (st spare : List Frame)
    (L : List Container) (sizeofT start S N buffer : ℕ) (l : Container) (n : ℕ) (p r : ℕ → ℕ) :
    Prop where
  tabled : ∃ st', Tabled os refs st' (grownList os sizeofT start n p r L) t ∧
    st'.take t.ctx.pfns_num_ = st.take S ++
      grownFrames (st.take s.ctx.pfns_num_) spare S s.ctx.pfns_num_ n p r
  pfns_num : t.ctx.pfns_num_ = s.ctx.pfns_num_ + sumTo (fun j => r j - p j) n
  size : t.ctx.hypercontainer_size_ = s.ctx.hypercontainer_size_
  mach : ∃ m, s.mach.Undisturbed m refs {buffer / os.page_size} ∧
    m.frameData = grownData os s.mach.pageTable buffer start n p r spare L s.mach.frameData n ∧
    t.mach = { m with
      pageTable := remapPages m.pageTable (l.mappingAddress os / os.page_size) (N - S)
        (grownFrames (st.take s.ctx.pfns_num_) spare S s.ctx.pfns_num_ n p r) }
  region : grownFrames (st.take s.ctx.pfns_num_) spare S s.ctx.pfns_num_ n p r ≠ [] →
    s.mach.inRegion os (l.mappingAddress os)
      (grownFrames (st.take s.ctx.pfns_num_) spare S s.ctx.pfns_num_ n p r).length = true

theorem Machine.releaseCall_eq {os : OS} {m : Machine} {a : ℕ} (h : (m.releaseCall os a).1 = true) :
    (m.releaseCall os a).2 = { m with
      pageTable := fun p => if m.regions.any fun r => r.base == a &&
          decide (a ≤ p * os.page_size ∧ p * os.page_size < a + r.size) then none else m.pageTable p
      regions := m.regions.filter (·.base != a)
      calls := .release a true :: m.calls } := by
  have hr : m.reply os = true := h
  rw [Machine.releaseCall, hr]
  rfl

theorem Machine.failures_lt_release {os : OS} {m : Machine} {a F : ℕ}
    (h : (m.releaseCall os a).1 = false) (hF : F ≤ m.failures) :
    F < (m.releaseCall os a).2.failures := by
  have hr : m.reply os = false := h
  rw [Machine.failures_releaseCall, hr]
  exact Nat.lt_succ_of_le hF

section Tail

variable {os : OS} {s : State} {refs : List PtrLoc} {st spare temp : List Frame} {L : List Container}
  {sizeofT start S N F buffer : ℕ} {array : List ℕ} {p r : ℕ → ℕ} {v : Pass} {l : Container}
  {G : Prop}

theorem mappingAddress_grownList (hfits : ∀ l ∈ L, l.Fits os) (hget : L[start]? = some l)
    (sizeofT : ℕ) (p r : ℕ → ℕ) (n : ℕ) :
    ∃ l', (grownList os sizeofT start n p r L)[start]? = some l' ∧
      l'.mappingAddress os = l.mappingAddress os := by
  have hlt := (hfits l (List.mem_of_getElem? hget)).reference_lt
  have hzero : ∀ d : Container, d.reference_ < 2 ^ 64 → d.moved (u64 (0 * os.page_size)) = d :=
    fun d hd => by
      rw [zero_mul]
      exact Container.moved_zero hd
  rw [grownList, getElem?_moveFrom, secondPass, getElem?_passOver, hget, Option.map_some]
  rcases Nat.eq_zero_or_pos n with rfl | hpos
  · rw [if_pos (by omega), if_neg (by omega), Option.map_some, sumTo_zero, hzero l hlt]
    exact ⟨l, rfl, rfl⟩
  · rw [if_neg (by omega), if_pos (by omega), Nat.sub_self, sumTo_zero, Container.grown, backWord_zero]
    refine ⟨_, rfl, ?_⟩
    split
    · rw [hzero _ (by rwa [Container.resized_reference]), Container.mappingAddress,
        Container.offset, Container.resized_reference]
      rfl
    · rw [Container.moved_zero hlt]

theorem Tabled.meets_AssertPfnsStorage {add : ℕ} (h : Tabled os refs st L s)
    (hov : 16 * (s.ctx.pfns_num_ + add) < 2 ^ 64) (hnum : s.ctx.pfns_num_ ≤ st.length)
    (hmax : G → 0 < s.ctx.pfns_max_) (hF : F ≤ s.mach.failures) :
    Meets (AssertPfnsStorage os add) s (fun _ t => ∃ m st', s.mach.Quiet m ∧
      t = ⟨m, { s.ctx with pfns_storage_ := some st', pfns_max_ := st'.length }⟩ ∧
      s.ctx.pfns_num_ + add ≤ st'.length ∧
      st'.take s.ctx.pfns_num_ = st.take s.ctx.pfns_num_ ∧ Tabled os refs st' L t)
      (Blames G F) := by
  obtain ⟨cs, hc, -, -⟩ := h.cells
  have hlen := hc.max
  refine VcmallocBench.meets_AssertPfnsStorage hc.table hov (fun hle => ?_) (fun _ hz => ?_)
    (fun n _ h₁ h₂ hr => ?_) fun n _ hr => Or.inl ?_
  · refine ⟨s.mach, st, .refl _, ?_, by omega, rfl, h⟩
    rw [hlen, ← hc.table]
  · exact Or.inr ⟨fun hg => absurd hz (hmax hg).ne', by decide⟩
  · refine ⟨_, resize os st n, .heapCall hr, by rw [length_resize], by rwa [length_resize],
      take_resize os hnum (by omega), ?_⟩
    refine h.congr rfl fun cs hcore => ⟨hcore.cells, hcore.containers_num, hcore.containers_le,
      hcore.containers_words, rfl, length_resize os st n, ?_, ?_⟩
    · rwa [length_resize]
    · rw [length_resize]
      dsimp only
      omega
  · dsimp only
    rw [Machine.failures_heapCall, hr]
    exact Nat.lt_succ_of_le hF

theorem Tabled.growing (h : Tabled os refs st L s)
    (hreq : v.requested_pages = sumTo (fun j => r j - p j) array.length)
    (hentries : v.elements_num_array = array)
    (htemp : temp.length = s.ctx.pfns_num_ + sumTo (fun j => r j - p j) array.length) :
    Growing os s refs st v.sparePFNs L sizeofT start S buffer array p r 0 { v with
      itStruct := start
      PFNsIdx := S
      tempPFNsIdx := 0
      steps := 0
      tempPFNs := temp } s where
  itStruct := rfl
  PFNsIdx := rfl
  tempPFNsIdx := rfl
  steps := rfl
  requested_pages := hreq
  temp_length := htemp
  temp := rfl
  spare_eq := rfl
  entries := hentries
  tabled := by
    rw [secondPass, passOver_zero]
    exact h
  pfns_num := rfl
  size := rfl
  mach := .refl _ _ _
  data := rfl

theorem Growing.meets_rounds (hl : Listed os sizeofT start S s.ctx.pfns_num_ array p r L)
    (hle : ∀ j < array.length, p j ≤ r j)
    (hroom : s.ctx.pfns_num_ + sumTo (fun j => r j - p j) array.length ≤ st.length)
    (hspare : sumTo (fun j => r j - p j) array.length ≤ spare.length)
    (hcopy : G → ∀ j d, L[start + j]? = some d → j < array.length → p j < r j →
      CopiesUp os s.mach.pageTable buffer d)
    (hF : F ≤ s.mach.failures)
    (h : Growing os s refs st spare L sizeofT start S buffer array p r 0 v s) :
    Meets ((List.range array.length).foldlM (growRound os sizeofT buffer) v) s
      (Growing os s refs st spare L sizeofT start S buffer array p r array.length) (Blames G F) := by
  have hlen := hl.length_le
  rw [List.range_eq_range']
  refine Meets.imp (meets_foldlM_range (I := fun i v t =>
    Growing os s refs st spare L sizeofT start S buffer array p r i v t) array.length 0 _ _ h ?_) ?_
  · intro i v t _ hi hI
    have hget := List.getElem?_eq_getElem (l := L) (i := start + i) (by omega)
    exact Growing.meets_growRound hl hle (by omega) hget hroom hspare hI hF
      fun hg hlt => hcopy hg i _ hget (by omega) hlt
  · intro v t hI
    rwa [zero_add] at hI

theorem Growing.meets_commit {α : Type} {f : Pass → Op α} {Q : α → State → Prop} {t : State}
    {unmapMessage mapMessage : String}
    (h : Growing os s refs st spare L sizeofT start S buffer array p r array.length v t)
    (hl : Listed os sizeofT start S s.ctx.pfns_num_ array p r L) (hle : ∀ j < array.length, p j ≤ r j)
    (hget : L[start]? = some l) (hN : s.ctx.pfns_num_ ≤ N) (hw : N < 2 ^ 64)
    (hroom : s.ctx.pfns_num_ + sumTo (fun j => r j - p j) array.length ≤ st.length)
    (hF : F ≤ s.mach.failures)
    (hf : ∀ v' u, Enlarged os s u refs st spare L sizeofT start S N buffer l array.length p r →
      F ≤ u.mach.failures → Meets (f v') u Q (Blames G F)) :
    Meets (shiftReferences os v.itStruct (u64 (v.steps * os.page_size)) >>= fun _ =>
      commitPages os start S N (s.ctx.pfns_num_ - (S + sumTo p array.length)) v unmapMessage
        mapMessage >>= f) t Q (Blames G F) := by
  have hend := hl.end_le
  have hwords := hl.words
  have hsum := sumTo_add_sub (i := array.length) hle
  have hT := h.tempPFNsIdx
  have hP := h.PFNsIdx
  have htemp := h.temp_length
  rw [meets_bind, h.itStruct, h.steps]
  refine (h.tabled.meets_shiftReferences
    (by rw [secondPass, length_passOver]; exact hl.length_le) _).imp fun _ u hu => ?_
  obtain ⟨hctx, hrw, htab⟩ := hu
  obtain ⟨l', hl', hmap⟩ := mappingAddress_grownList hl.fits hget sizeofT p r array.length
  have hund := h.mach.trans (.of_reassigned hrw)
  have hfs : v.tempPFNs.take v.tempPFNsIdx ++ slice st v.PFNsIdx (s.ctx.pfns_num_ -
      (S + sumTo p array.length)) =
      grownFrames (st.take s.ctx.pfns_num_) spare S s.ctx.pfns_num_ array.length p r := by
    rw [h.temp, hP, grownFrames, slice_take (by omega), joined_congr fun j hj => ?_]
    have := sumTo_le p hj
    rw [slice_take (by omega)]
  rw [meets_bind]
  refine Meets.imp (Tabled.meets_commitPages htab hl' (by omega) (by omega) (by omega) (by omega)
    (by omega) (hF.trans hund.failures.ge)) ?_
  rintro v' w ⟨-, hcom⟩
  obtain ⟨m, hm, hw₂⟩ := hcom.mach
  have hnum : w.ctx.pfns_num_ = s.ctx.pfns_num_ + sumTo (fun j => r j - p j) array.length := by
    rw [hcom.pfns_num, hctx, h.pfns_num]
  have hlenfs := congrArg List.length hfs
  rw [List.length_append, List.length_take, length_slice (by omega)] at hlenfs
  refine hf v' w ?_ ?_
  · constructor
    case tabled =>
      have htab' := hcom.tabled
      rw [hfs] at htab'
      exact ⟨_, htab', by rw [hnum, take_overwrite (by omega) (by omega)]⟩
    case pfns_num => exact hnum
    case size => rw [hcom.size, hctx, h.size]
    case mach =>
      refine ⟨{ m with pageTable := u.mach.pageTable }, ?_, ?_, ?_⟩
      · have hq := hund.quiet hm
        exact ⟨hq.vars, hund.pageTable, hund.regions ▸ by rw [hm.eq], hq.allocated, hq.failures,
          hq.legal⟩
      · dsimp only
        rw [hm.eq, hrw.eq]
        exact h.data
      · rw [hw₂, hfs, hmap]
    case region =>
      have hr := hcom.region
      rwa [hfs, hmap, Machine.inRegion, hund.regions] at hr
  · rw [hw₂]
    exact hF.trans (hund.failures.ge.trans hm.failures.ge)

/-- The temporary frame table and the copy buffer are given back. -/
theorem Enlarged.meets_release {t : State} {n : ℕ} {message message' : String}
    (h : Enlarged os s t refs st spare L sizeofT start S N buffer l n p r)
    (hF : F ≤ t.mach.failures) :
    Meets (do
      let ok ← HeapFree os
      ensure ok message
      let ok ← osCall (·.releaseCall os buffer)
      ensure ok message') t
      (fun _ u => Grown os s u refs st spare L sizeofT start S N buffer l n p r) (Blames G F) := by
  obtain ⟨m, hm, hdata, ht⟩ := h.mach
  rw [meets_bind, HeapFree, meets_osCall, meets_bind]
  refine meets_ensure (fun hok => ?_) fun hno => Or.inl (Machine.failures_lt_heapFree hno hF)
  rw [Machine.heapFreeCall_eq hok, meets_bind, meets_osCall]
  refine meets_ensure (fun hok' => ?_) fun hno => Or.inl (Machine.failures_lt_release hno ?_)
  · rw [Machine.releaseCall_eq hok', ht]
    constructor
    case tabled =>
      obtain ⟨st', htab, htake⟩ := h.tabled
      exact ⟨st', htab.machine (by rw [ht]), htake⟩
    case pfns_num => exact h.pfns_num
    case size => exact h.size
    case pageTable =>
      intro x hx hgone
      have hnone : (m.regions.any fun g => g.base == buffer &&
          decide (buffer ≤ x * os.page_size ∧ x * os.page_size < buffer + g.size)) = false := by
        rw [hm.regions, List.any_eq_false]
        intro g hg hb
        rw [Bool.and_eq_true, beq_iff_eq, decide_eq_true_iff] at hb
        exact hgone g hg hb.1 hb.2
      dsimp only
      rw [hnone, if_neg Bool.false_ne_true, remapPages, remapPages, unmapPages, unmapPages,
        hm.pageTable x hx]
    case gone =>
      rintro x ⟨g, hg, rfl, hin⟩
      refine if_pos (List.any_eq_true.mpr ⟨g, ?_, ?_⟩)
      · rwa [hm.regions]
      · rw [Bool.and_eq_true, beq_self_eq_true, decide_eq_true_iff]
        exact ⟨rfl, hin⟩
    case regions =>
      dsimp only
      rw [hm.regions]
    case mach =>
      dsimp only
      refine ⟨hm.vars, fun _ _ => rfl, rfl, hm.allocated, ?_, fun c hc => ?_⟩
      · exact (Machine.failures_cons _ (.release buffer true)).trans
          ((Machine.failures_cons m (.heapFree true)).trans hm.failures)
      · rcases List.mem_cons.mp hc with rfl | hc
        · exact Or.inr trivial
        · rcases List.mem_cons.mp hc with rfl | hc
          · exact Or.inr trivial
          · exact hm.legal c hc
    case region => exact h.region
    case data => exact hdata
  · exact hF.trans (Machine.failures_cons t.mach (.heapFree true)).ge

theorem Grown.of_quiet {t : State} {m : Machine} {st₁ : List Frame} {n : ℕ}
    (h : Grown os ⟨m, { s.ctx with pfns_storage_ := some st₁, pfns_max_ := st₁.length }⟩ t refs st₁
      spare L sizeofT start S N buffer l n p r)
    (hm : s.mach.Quiet m) (htake : st₁.take s.ctx.pfns_num_ = st.take s.ctx.pfns_num_)
    (hS : S ≤ s.ctx.pfns_num_) : Grown os s t refs st spare L sizeofT start S N buffer l n p r := by
  have hpt : m.pageTable = s.mach.pageTable := by rw [hm.eq]
  have hregions : m.regions = s.mach.regions := by rw [hm.eq]
  have hlow := congrArg (List.take S) htake
  rw [List.take_take, List.take_take, Nat.min_eq_left hS] at hlow
  obtain ⟨htab, hnum, hsize, hpage, hgone, hreg, hmach, hin, hdata⟩ := h
  dsimp only at htab hnum hsize hpage hgone hreg hmach hin hdata
  rw [htake] at htab hpage hin
  rw [hlow] at htab
  rw [hpt, hregions] at hpage
  rw [hregions] at hgone hreg
  rw [hpt, hregions] at hmach
  rw [Machine.inRegion, hregions] at hin
  refine ⟨htab, hnum, hsize, hpage, hgone, hreg, ?_, hin, ?_⟩
  · refine ⟨fun x hx => ?_, fun _ _ => rfl, rfl, ?_, ?_, fun c hc => ?_⟩
    · rw [hmach.vars x hx, hm.eq]
    · rw [hmach.allocated, hm.eq]
    · rw [hmach.failures, hm.failures]
    · exact (hmach.legal c hc).elim (hm.legal c) Or.inr
  · rw [hdata, hpt, hm.eq]

/-- The second pass, once room has been made in the frame table. -/
theorem Tabled.meets_growTail (h : Tabled os refs st L s)
    (hl : Listed os sizeofT start S s.ctx.pfns_num_ array p r L) (hle : ∀ j < array.length, p j ≤ r j)
    (hget : L[start]? = some l) (hnum : s.ctx.pfns_num_ ≤ st.length) (hmax : G → 0 < s.ctx.pfns_max_)
    (hN : s.ctx.pfns_num_ ≤ N) (hw : N < 2 ^ 64)
    (hreq : v.requested_pages = sumTo (fun j => r j - p j) array.length)
    (hspareq : v.sparePFNs = spare)
    (hspare : sumTo (fun j => r j - p j) array.length ≤ spare.length)
    (hentries : v.elements_num_array = array)
    (htemp : temp.length = s.ctx.pfns_num_ + sumTo (fun j => r j - p j) array.length)
    (hcopy : G → ∀ j d, L[start + j]? = some d → j < array.length → p j < r j →
      CopiesUp os s.mach.pageTable buffer d)
    (hF : F ≤ s.mach.failures) :
    Meets (growTail os sizeofT start S N array.length
      (s.ctx.pfns_num_ - (S + sumTo p array.length)) s.ctx.pfns_num_ v temp buffer) s
      (fun _ t => Grown os s t refs st spare L sizeofT start S N buffer l array.length p r)
      (Blames G F) := by
  subst hspareq
  have hend := hl.end_le
  have hwords := hl.words
  have hst := h.words
  have hadd : u64 (s.ctx.pfns_num_ + v.requested_pages) =
      s.ctx.pfns_num_ + sumTo (fun j => r j - p j) array.length := by
    rw [hreq]
    exact u64_of_lt (by omega)
  rw [growTail, hadd, meets_bind]
  refine (h.meets_AssertPfnsStorage (by omega) hnum hmax hF).imp fun _ t ht => ?_
  obtain ⟨m, st₁, hm, rfl, hroom, htake, htab⟩ := ht
  have hpt : m.pageTable = s.mach.pageTable := by rw [hm.eq]
  have hF' := hF.trans hm.failures.ge
  rw [meets_bind]
  refine (Growing.meets_rounds
    (s := ⟨m, { s.ctx with pfns_storage_ := some st₁, pfns_max_ := st₁.length }⟩) hl hle
    (by dsimp only; omega) hspare ?_ hF' (htab.growing hreq hentries htemp)).imp fun v' t hI => ?_
  · dsimp only
    rw [hpt]
    exact hcopy
  refine hI.meets_commit hl hle hget hN hw (by dsimp only; omega) hF' fun _ u hu hFu => ?_
  refine (hu.meets_release hFu).imp fun _ w hw => hw.of_quiet hm htake ?_
  omega

end Tail

end VcmallocBench
