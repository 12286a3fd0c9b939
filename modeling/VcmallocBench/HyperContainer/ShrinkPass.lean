import VcmallocBench.HyperContainer.Batches

/-! # The first pass of a batch

`ContainerRealloc2` first cuts the listed containers that shrink. Their frames are
copied in order: those that stay to one block, those that are left over to
another. The references move down by the pages cut so far.
-/

namespace VcmallocBench

open Paging

def Container.wanted (os : OS) (l : Container) (sizeofT entry : ℕ) : ℕ :=
  if entry = l.elements_num_ ∨ entry = keepEntry then l.nbrOfPages os
  else l.requestedPages os sizeofT entry

/-- A listed container after the first pass: cut if it shrinks, and moved down by the pages cut before
it. -/
def Container.cut (os : OS) (sizeofT p r steps : ℕ) (l : Container) : Container :=
  (if r < p then l.resized os r sizeofT else l).moved (backWord os steps)

def firstPass (os : OS) (sizeofT start : ℕ) (p r : ℕ → ℕ) (i : ℕ) : List Container → List Container :=
  passOver start i fun j => Container.cut os sizeofT (p j) (r j) (sumTo (fun k => p k - r k) j)

/-- The entries of the array after `i` rounds: those of the containers cut stand for keeping them. -/
def markedEntries (p r : ℕ → ℕ) (i : ℕ) (array : List ℕ) : List ℕ :=
  array.mapIdx fun j a => if j < i ∧ r j < p j then keepEntry else a

/-- What is asked of the listed containers: `p` pages are there and `r` are wanted, and no count wraps. -/
structure Listed (os : OS) (sizeofT start S N : ℕ) (array : List ℕ) (p r : ℕ → ℕ)
    (L : List Container) : Prop where
  length_le : start + array.length ≤ L.length
  fits : ∀ l ∈ L, l.Fits os
  has : ∀ j l a, L[start + j]? = some l → array[j]? = some a → p j = l.nbrOfPages os
  wants : ∀ j l a, L[start + j]? = some l → array[j]? = some a → r j = l.wanted os sizeofT a
  end_le : S + sumTo p array.length ≤ N
  words : N + sumTo (fun j => r j - p j) array.length < 2 ^ 59

/-- The guest bytes of a container can be copied down by some pages, wherever memory is mapped as
given. -/
def CopiesDown (os : OS) (pageTable : ℕ → Option Frame) (steps : ℕ) (l : Container) : Prop :=
  ∀ m : Machine, m.pageTable = pageTable →
    (m.memmove os
      (sub64 (sub64 (l.nextMappingAddress os) (l.guestBytes os)) (u64 (steps * os.page_size)))
      (sub64 (l.nextMappingAddress os) (l.guestBytes os)) (l.guestBytes os)).isSome

def copied (os : OS) (pageTable : ℕ → Option Frame) (dst src n : ℕ) (d : Frame → ℕ → Byte) :
    Frame → ℕ → Byte :=
  poke pageTable os.page_size dst (fun i => ((pageTable ((src + i) / os.page_size)).map fun f =>
    d f ((src + i) % os.page_size)).getD 0) n d

/-- The contents of frames after the guest bytes of a container are copied down by some pages. -/
def cutData (os : OS) (pageTable : ℕ → Option Frame) (steps : ℕ) (l : Container)
    (d : Frame → ℕ → Byte) : Frame → ℕ → Byte :=
  copied os pageTable
    (sub64 (sub64 (l.nextMappingAddress os) (l.guestBytes os)) (u64 (steps * os.page_size)))
    (sub64 (l.nextMappingAddress os) (l.guestBytes os)) (l.guestBytes os) d

/-- The contents of frames after `i` rounds of the first pass. All copies go by the old mapping. -/
def shrunkData (os : OS) (pageTable : ℕ → Option Frame) (start : ℕ) (p r : ℕ → ℕ)
    (L : List Container) (d : Frame → ℕ → Byte) : ℕ → Frame → ℕ → Byte
  | 0 => d
  | i + 1 =>
    let d' := shrunkData os pageTable start p r L d i
    if r i < p i then (L[start + i]?).elim d' fun l => cutData os pageTable (p i - r i) l d' else d'

theorem Machine.memmove_copied {os : OS} {m m' : Machine} {dst src n : ℕ}
    (h : m.memmove os dst src n = some m') :
    m' = { m with frameData := copied os m.pageTable dst src n m.frameData } := by
  rw [Machine.memmove] at h
  split at h
  · rw [Machine.store] at h
    split at h
    · exact (Option.some.inj h).symm
    · cases h
  · cases h

structure Shrinking (os : OS) (s₀ : State) (refs : List PtrLoc) (st : List Frame)
    (L : List Container) (sizeofT start S : ℕ) (array : List ℕ) (p r : ℕ → ℕ) (i : ℕ) (v : Pass)
    (s : State) : Prop where
  itStruct : v.itStruct = start + i
  PFNsIdx : v.PFNsIdx = S + sumTo p i
  tempPFNsIdx : v.tempPFNsIdx = sumTo (fun j => min (p j) (r j)) i
  steps : v.steps = sumTo (fun j => p j - r j) i
  requested_pages : v.requested_pages = sumTo (fun j => r j - p j) i
  temp_length : v.tempPFNs.length = s₀.ctx.pfns_num_
  temp : v.tempPFNs.take v.tempPFNsIdx =
    pieces st (fun j => S + sumTo p j) (fun j => min (p j) (r j)) i
  spare_length : v.sparePFNs.length = s₀.ctx.pfns_num_
  spare : v.sparePFNs.take v.steps =
    pieces st (fun j => S + sumTo p j + r j) (fun j => p j - r j) i
  entries : v.elements_num_array = markedEntries p r i array
  tabled : Tabled os refs st (firstPass os sizeofT start p r i L) s
  pfns_num : s.ctx.pfns_num_ = s₀.ctx.pfns_num_ - sumTo (fun j => p j - r j) i
  size : s.ctx.hypercontainer_size_ = s₀.ctx.hypercontainer_size_
  mach : s₀.mach.Undisturbed s.mach refs ∅
  data : s.mach.frameData = shrunkData os s₀.mach.pageTable start p r L s₀.mach.frameData i

def keptFrames (st : List Frame) (S N n : ℕ) (p r : ℕ → ℕ) : List Frame :=
  pieces st (fun j => S + sumTo p j) (fun j => min (p j) (r j)) n ++
    slice st (S + sumTo p n) (N - (S + sumTo p n))

def lostFrames (st : List Frame) (S n : ℕ) (p r : ℕ → ℕ) : List Frame :=
  pieces st (fun j => S + sumTo p j + r j) (fun j => p j - r j) n

def shrunkList (os : OS) (sizeofT start n : ℕ) (p r : ℕ → ℕ) (L : List Container) :
    List Container :=
  moveFrom (start + n) (backWord os (sumTo (fun j => p j - r j) n))
    (firstPass os sizeofT start p r n L)

structure Shrunk (os : OS) (s t : State) (refs : List PtrLoc) (st : List Frame) (L : List Container)
    (sizeofT start S : ℕ) (l : Container) (array : List ℕ) (p r : ℕ → ℕ) (v : Pass) : Prop where
  PFNsIdx : v.PFNsIdx = S + sumTo p array.length
  steps : v.steps = sumTo (fun j => p j - r j) array.length
  requested_pages : v.requested_pages = sumTo (fun j => r j - p j) array.length
  spare_length : v.sparePFNs.length = s.ctx.pfns_num_
  spare : v.sparePFNs.take v.steps = lostFrames st S array.length p r
  entries : v.elements_num_array = markedEntries p r array.length array
  tabled : Tabled os refs (overwrite st S (keptFrames st S s.ctx.pfns_num_ array.length p r))
    (shrunkList os sizeofT start array.length p r L) t
  pfns_num : t.ctx.pfns_num_ = s.ctx.pfns_num_ - sumTo (fun j => p j - r j) array.length
  size : t.ctx.hypercontainer_size_ = s.ctx.hypercontainer_size_
  pageTable : t.mach.pageTable = remapPages s.mach.pageTable (l.mappingAddress os / os.page_size)
    (s.ctx.pfns_num_ - S) (keptFrames st S s.ctx.pfns_num_ array.length p r)
  mach : s.mach.Undisturbed { t.mach with pageTable := s.mach.pageTable } refs ∅
  region : keptFrames st S s.ctx.pfns_num_ array.length p r ≠ [] → s.mach.inRegion os
    (l.mappingAddress os) (keptFrames st S s.ctx.pfns_num_ array.length p r).length = true
  data : t.mach.frameData =
    shrunkData os s.mach.pageTable start p r L s.mach.frameData array.length

section FirstPass

variable {os : OS} {s₀ s : State} {refs : List PtrLoc} {st : List Frame} {L : List Container}
  {sizeofT start S i F : ℕ} {array : List ℕ} {p r : ℕ → ℕ} {v : Pass} {l : Container} {G : Prop}

theorem firstPass_succ (hl : L[start + i]? = some l) :
    (firstPass os sizeofT start p r i L).set (start + i)
      (l.cut os sizeofT (p i) (r i) (sumTo (fun k => p k - r k) i)) =
      firstPass os sizeofT start p r (i + 1) L := passOver_succ hl

theorem getElem?_markedEntries (j : ℕ) : (markedEntries p r i array)[j]? =
    array[j]?.map fun a => if j < i ∧ r j < p j then keepEntry else a := List.getElem?_mapIdx

theorem getElem?_markedEntries_next : (markedEntries p r i array)[i]? = array[i]? := by
  rw [getElem?_markedEntries]
  cases array[i]? with
  | none => rfl
  | some a => rw [Option.map_some, if_neg (by omega)]

theorem markedEntries_keep (h : p i ≤ r i) :
    markedEntries p r i array = markedEntries p r (i + 1) array := by
  refine List.ext_getElem? fun j => ?_
  rw [getElem?_markedEntries, getElem?_markedEntries]
  congr 1
  funext a
  by_cases hj : j < i ∧ r j < p j
  · rw [if_pos hj, if_pos ⟨by omega, hj.2⟩]
  · rw [if_neg hj, if_neg]
    rintro ⟨hlt, hr⟩
    rcases Nat.lt_succ_iff_lt_or_eq.mp hlt with hlt | rfl
    · exact hj ⟨hlt, hr⟩
    · omega

theorem markedEntries_cut (h : r i < p i) (hi : i < array.length) :
    (markedEntries p r i array).set i keepEntry = markedEntries p r (i + 1) array := by
  refine List.ext_getElem? fun j => ?_
  rw [List.getElem?_set, getElem?_markedEntries, getElem?_markedEntries]
  by_cases hj : i = j
  · subst hj
    rw [if_pos rfl, markedEntries, List.length_mapIdx, if_pos hi, List.getElem?_eq_getElem hi,
      Option.map_some, if_pos ⟨Nat.lt_succ_self i, h⟩]
  · rw [if_neg hj]
    congr 1
    funext a
    by_cases hjr : j < i ∧ r j < p j
    · rw [if_pos hjr, if_pos ⟨by omega, hjr.2⟩]
    · rw [if_neg hjr, if_neg]
      rintro ⟨hlt, hr⟩
      exact hjr ⟨by omega, hr⟩

theorem Listed.bounds (hl : Listed os sizeofT start S s₀.ctx.pfns_num_ array p r L)
    (hi : i < array.length) :
    S + sumTo p i + p i ≤ s₀.ctx.pfns_num_ ∧
      sumTo (fun j => min (p j) (r j)) i ≤ sumTo p i ∧ sumTo (fun j => p j - r j) i ≤ sumTo p i ∧
      sumTo (fun j => r j - p j) i + (r i - p i) ≤ sumTo (fun j => r j - p j) array.length ∧
      s₀.ctx.pfns_num_ + sumTo (fun j => r j - p j) array.length < 2 ^ 59 := by
  have h₁ := sumTo_le p hi
  have h₂ := hl.end_le
  exact ⟨by omega, sumTo_le_sumTo fun _ _ => min_le_left _ _,
    sumTo_le_sumTo fun _ _ => Nat.sub_le _ _, sumTo_le _ hi, hl.words⟩

section Round

variable (hl : Listed os sizeofT start S s₀.ctx.pfns_num_ array p r L) (hi : i < array.length)
  (hget : L[start + i]? = some l) (hnum : s₀.ctx.pfns_num_ ≤ st.length)
  (h : Shrinking os s₀ refs st L sizeofT start S array p r i v s)

include hl hi hget hnum h

theorem Shrinking.meets_keepPages (hp : p i ≤ r i) {E : Fault → State → Prop} :
    Meets (keepPages os { v with requested_pages := sumTo (fun j => r j - p j) (i + 1) } (p i)) s
      (Shrinking os s₀ refs st L sizeofT start S array p r (i + 1)) E := by
  obtain ⟨hb₁, hb₂, hb₃, hb₄, hb₅⟩ := hl.bounds hi
  have hmin : min (p i) (r i) = p i := min_eq_left hp
  have hcut : p i - r i = 0 := Nat.sub_eq_zero_of_le hp
  have h₁ := h.PFNsIdx
  have h₂ := h.tempPFNsIdx
  have h₃ := h.temp_length
  have hnext : (firstPass os sizeofT start p r i L)[v.itStruct]? = some l := by
    rw [h.itStruct]
    exact getElem?_passOver_next.trans hget
  refine (h.tabled.meets_keepPages (v := { v with
    requested_pages := sumTo (fun j => r j - p j) (i + 1) }) (n := p i) hnext (by dsimp only; omega)
    (by dsimp only; omega) (by dsimp only; omega)).imp fun _ t ht => ?_
  obtain ⟨⟨temp, hlen, htake, rfl⟩, hctx, hrw, htab⟩ := ht
  constructor
  case itStruct =>
    dsimp only
    rw [h.itStruct, add_assoc]
  case PFNsIdx =>
    dsimp only
    rw [h₁, sumTo_succ, add_assoc]
  case tempPFNsIdx =>
    dsimp only
    rw [h₂, sumTo_succ, hmin]
  case steps => rw [h.steps, sumTo_succ, hcut, add_zero]
  case requested_pages => rfl
  case temp_length => exact hlen.trans h₃
  case temp =>
    dsimp only at htake ⊢
    rw [htake, h.temp, pieces_succ, h₁, hmin]
  case spare_length => exact h.spare_length
  case spare => rw [h.spare, pieces_succ, hcut, slice_zero, List.append_nil]
  case entries => exact h.entries.trans (markedEntries_keep hp)
  case tabled =>
    have hc : l.cut os sizeofT (p i) (r i) (sumTo (fun k => p k - r k) i) =
        l.moved (backWord os v.steps) := by
      rw [Container.cut, if_neg (not_lt.mpr hp), h.steps]
    dsimp only at htab
    rwa [← hc, h.itStruct, firstPass_succ hget] at htab
  case pfns_num => rw [hctx, h.pfns_num, sumTo_succ, hcut, add_zero]
  case size => rw [hctx, h.size]
  case mach => exact h.mach.trans (.of_reassigned hrw)
  case data =>
    rw [shrunkData, if_neg hp.not_gt, hrw.eq]
    exact h.data

omit hget in
theorem Shrinking.cutFrames (hr : r i < p i) :
    ∃ temp spare, blit st v.PFNsIdx v.tempPFNs v.tempPFNsIdx (r i) = some temp ∧
      blit st (u64 (v.PFNsIdx + r i)) v.sparePFNs v.steps (p i - r i) = some spare ∧
      temp.length = v.tempPFNs.length ∧ spare.length = v.sparePFNs.length ∧
      temp.take (v.tempPFNsIdx + r i) =
        pieces st (fun j => S + sumTo p j) (fun j => min (p j) (r j)) (i + 1) ∧
      spare.take (v.steps + (p i - r i)) =
        pieces st (fun j => S + sumTo p j + r j) (fun j => p j - r j) (i + 1) := by
  obtain ⟨hb₁, hb₂, hb₃, hb₄, hb₅⟩ := hl.bounds hi
  have hmin : min (p i) (r i) = r i := min_eq_right hr.le
  have h₁ := h.PFNsIdx
  have h₂ := h.tempPFNsIdx
  have h₃ := h.temp_length
  have h₄ := h.spare_length
  have h₅ := h.steps
  have hmid : u64 (v.PFNsIdx + r i) = v.PFNsIdx + r i := u64_of_lt (by omega)
  obtain ⟨temp, htemp, hlen, htake⟩ := @blit_behind _ st v.tempPFNs v.PFNsIdx v.tempPFNsIdx (r i)
    (by omega) (by omega)
  obtain ⟨spare, hspare, hlen', htake'⟩ := @blit_behind _ st v.sparePFNs (v.PFNsIdx + r i) v.steps
    (p i - r i) (by omega) (by omega)
  refine ⟨temp, spare, htemp, by rwa [hmid], hlen, hlen', ?_, ?_⟩
  · rw [htake, h.temp, pieces_succ, h₁, hmin]
  · rw [htake', h.spare, pieces_succ, h₁]

theorem Shrinking.meets_recede {m : Machine} {temp spare : List Frame} (hr : r i < p i)
    (hund : s₀.mach.Undisturbed m refs ∅)
    (htab : Tabled os refs st (firstPass os sizeofT start p r i L) ⟨m, s.ctx⟩)
    (hdata : m.frameData = cutData os s₀.mach.pageTable (p i - r i) l s.mach.frameData)
    (hlen : temp.length = v.tempPFNs.length) (hlen' : spare.length = v.sparePFNs.length)
    (htake : temp.take (v.tempPFNsIdx + r i) =
      pieces st (fun j => S + sumTo p j) (fun j => min (p j) (r j)) (i + 1))
    (htake' : spare.take (v.steps + (p i - r i)) =
      pieces st (fun j => S + sumTo p j + r j) (fun j => p j - r j) (i + 1))
    {E : Fault → State → Prop} :
    Meets (do
      setElements v.itStruct
        (resizedElements os (r i) (l.priorFreeBytes os) (l.guestBytes os) sizeofT)
      moveReference os v.itStruct (sub64 0 (u64 (v.steps * os.page_size)))
      modifyCtx fun ctx => { ctx with pfns_num_ := sub64 ctx.pfns_num_ (p i - r i) }
      return { v with
        tempPFNs := temp
        sparePFNs := spare
        PFNsIdx := u64 (v.PFNsIdx + p i)
        tempPFNsIdx := u64 (v.tempPFNsIdx + r i)
        steps := u64 (v.steps + (p i - r i))
        elements_num_array := v.elements_num_array.set i keepEntry
        itStruct := v.itStruct + 1 }) ⟨m, s.ctx⟩
      (Shrinking os s₀ refs st L sizeofT start S array p r (i + 1)) E := by
  obtain ⟨hb₁, hb₂, hb₃, hb₄, hb₅⟩ := hl.bounds hi
  have hmin : min (p i) (r i) = r i := min_eq_right hr.le
  have h₁ := h.PFNsIdx
  have h₂ := h.tempPFNsIdx
  have h₅ := h.steps
  have hnext : (firstPass os sizeofT start p r i L)[v.itStruct]? = some l := by
    rw [h.itStruct]
    exact getElem?_passOver_next.trans hget
  have hk : v.itStruct < (firstPass os sizeofT start p r i L).length :=
    (List.getElem?_eq_some_iff.mp hnext).1
  rw [meets_bind]
  refine htab.meets_setElements hnext fun t hmach hnum' hsize htab' => ?_
  rw [meets_bind]
  refine (htab'.meets_moveReference (List.getElem?_set_self hk) _).imp fun _ u hu => ?_
  obtain ⟨hctx, hrw, htab''⟩ := hu
  rw [List.set_set] at htab''
  have hD := sumTo_le (fun j => p j - r j) hi
  have hD' : sumTo (fun j => p j - r j) array.length ≤ sumTo p array.length :=
    sumTo_le_sumTo fun _ _ => Nat.sub_le _ _
  have hend := hl.end_le
  have hpn : sub64 u.ctx.pfns_num_ (p i - r i) =
      s₀.ctx.pfns_num_ - sumTo (fun j => p j - r j) (i + 1) := by
    rw [hctx, hnum', h.pfns_num, sub64_of_le (by omega) (by omega), sumTo_succ, Nat.sub_sub]
  -- comparing the fields of a context must not evaluate the wrap
  obtain ⟨num, hnum⟩ : ∃ num, sub64 u.ctx.pfns_num_ (p i - r i) = num := ⟨_, rfl⟩
  rw [hnum] at hpn
  rw [meets_bind, meets_modifyCtx, hnum]
  refine (meets_pure _).mpr ?_
  constructor
  case itStruct =>
    dsimp only
    rw [h.itStruct, add_assoc]
  case PFNsIdx =>
    dsimp only
    rw [u64_of_lt (by omega), h₁, sumTo_succ, add_assoc]
  case tempPFNsIdx =>
    dsimp only
    rw [u64_of_lt (by omega), h₂, sumTo_succ, hmin]
  case steps =>
    dsimp only
    rw [u64_of_lt (by omega), h₅, sumTo_succ]
  case requested_pages =>
    rw [sumTo_succ, Nat.sub_eq_zero_of_le hr.le, add_zero]
    exact h.requested_pages
  case temp_length => exact hlen.trans h.temp_length
  case temp =>
    dsimp only
    rw [u64_of_lt (by omega), htake]
  case spare_length => exact hlen'.trans h.spare_length
  case spare =>
    dsimp only
    rw [u64_of_lt (by omega), htake']
  case entries =>
    dsimp only
    rw [h.entries]
    exact markedEntries_cut hr hi
  case tabled =>
    have hc : l.cut os sizeofT (p i) (r i) (sumTo (fun k => p k - r k) i) =
        Container.moved (sub64 0 (u64 (v.steps * os.page_size))) { l with
          elements_num_ := resizedElements os (r i) (l.priorFreeBytes os) (l.guestBytes os)
            sizeofT } := by
      rw [Container.cut, if_pos hr, backWord, h₅, Container.resized]
    rw [← hc, h.itStruct, firstPass_succ hget] at htab''
    refine htab''.congr rfl fun cs hcore => ?_
    refine ⟨hcore.cells, hcore.containers_num, hcore.containers_le, hcore.containers_words,
      hcore.table, hcore.max, hcore.words, ?_⟩
    dsimp only
    rw [hpn]
    omega
  case pfns_num => exact hpn
  case size =>
    dsimp only
    rw [hctx, hsize]
    exact h.size
  case mach =>
    rw [hmach] at hrw
    exact hund.trans (.of_reassigned hrw)
  case data =>
    rw [shrunkData, if_pos hr, hget, Option.elim_some, ← h.data, ← hdata]
    dsimp only
    rw [hrw.eq, hmach]

theorem Shrinking.meets_shrinkPages (hr : r i < p i)
    (hcopy : G → CopiesDown os s₀.mach.pageTable (p i - r i) l) :
    Meets (shrinkPages os sizeofT v i l (r i)) s
      (Shrinking os s₀ refs st L sizeofT start S array p r (i + 1))
      (Blames G F) := by
  have hp := hl.has i l _ hget (List.getElem?_eq_getElem hi)
  obtain ⟨hb₁, hb₂, hb₃, hb₄, hb₅⟩ := hl.bounds hi
  have hsteps : sub64 (l.nbrOfPages os) (r i) = p i - r i := by
    rw [← hp]
    exact sub64_of_le hr.le (by omega)
  obtain ⟨temp, spare, htemp, hspare, hlen, hlen', htake, htake'⟩ :=
    Shrinking.cutFrames hl hi hnum h hr
  have hpt : s.mach.pageTable = s₀.mach.pageTable :=
    funext fun x => h.mach.pageTable x (Set.notMem_empty x)
  have hframes : s.ctx.frames = st := frames_of_storage h.tabled.table
  rw [shrinkPages, hsteps, ← hp, meets_bind, memmove]
  cases hm : s.mach.memmove os _ _ _ with
  | none =>
    refine (meets_onMachine_none hm).mpr (Or.inr ⟨fun hg => ?_, by decide⟩)
    exact absurd (hcopy hg s.mach hpt) (by rw [hm]; simp)
  | some m =>
    obtain ⟨d, hd, rfl⟩ : ∃ d, d = cutData os s.mach.pageTable (p i - r i) l s.mach.frameData ∧
        m = { s.mach with frameData := d } := ⟨_, rfl, Machine.memmove_copied hm⟩
    refine (meets_onMachine hm).mpr ?_
    rw [meets_bind]
    refine (meets_fetch (a := temp) (by rw [hframes]; exact htemp)).mpr ?_
    rw [meets_bind]
    refine (meets_fetch (a := spare) (by rw [hframes]; exact hspare)).mpr ?_
    rw [hpt] at hd
    exact Shrinking.meets_recede hl hi hget hnum h hr (h.mach.trans (.frameData s.mach d))
      (h.tabled.machine rfl) hd hlen hlen' htake htake'

theorem Shrinking.meets_shrinkRound
    (hcopy : G → r i < p i → CopiesDown os s₀.mach.pageTable (p i - r i) l) :
    Meets (shrinkRound os sizeofT v i) s
      (Shrinking os s₀ refs st L sizeofT start S array p r (i + 1))
      (Blames G F) := by
  obtain ⟨hb₁, hb₂, hb₃, hb₄, hb₅⟩ := hl.bounds hi
  have ha := List.getElem?_eq_getElem hi
  have hentry : v.elements_num_array[i]? = some array[i] := by
    rw [h.entries, getElem?_markedEntries_next, ha]
  have hp := hl.has i l _ hget ha
  have hr := hl.wants i l _ hget ha
  have hreq := h.requested_pages
  have hnext : (firstPass os sizeofT start p r i L)[v.itStruct]? = some l := by
    rw [h.itStruct]
    exact getElem?_passOver_next.trans hget
  -- a container that keeps its pages adds nothing to the pages requested
  have hkeep : ∀ hle : p i ≤ r i, v.requested_pages + (r i - p i) =
      sumTo (fun j => r j - p j) (i + 1) := fun _ => by rw [hreq, sumTo_succ]
  have hsame : p i = r i → v = { v with
      requested_pages := sumTo (fun j => r j - p j) (i + 1) } := fun he => by
    rw [sumTo_succ, Nat.sub_eq_zero_of_le he.ge, add_zero, ← hreq]
  rw [shrinkRound, meets_bind]
  refine (meets_fetch hentry).mpr ?_
  rw [meets_bind, h.tabled.meets_containerAt hnext]
  dsimp only
  rw [← hp]
  rw [Container.wanted] at hr
  refine meets_ite (fun hk => ?_) fun hk => ?_
  · rw [if_pos hk, ← hp] at hr
    rw [hsame hr.symm]
    exact Shrinking.meets_keepPages hl hi hget hnum h hr.ge
  · rw [if_neg hk] at hr
    rw [← hr]
    refine meets_ite (fun heq => ?_) fun hne => meets_ite (fun hlt => ?_) fun hge => ?_
    · rw [hsame heq.symm]
      exact Shrinking.meets_keepPages hl hi hget hnum h heq.ge
    · rw [sub64_of_le hlt.le (by omega), u64_of_lt (by omega), hkeep hlt.le]
      exact Shrinking.meets_keepPages hl hi hget hnum h hlt.le
    · have hlt : r i < p i := by omega
      exact Shrinking.meets_shrinkPages hl hi hget hnum h hlt fun hg => hcopy hg hlt

end Round

theorem backWord_zero (os : OS) : backWord os 0 = 0 := by
  rw [backWord, zero_mul]
  rfl

theorem Container.moved_zero (h : l.reference_ < 2 ^ 64) : l.moved 0 = l := by
  rw [Container.moved, add_zero, u64_of_lt h]

theorem mappingAddress_shrunkList (hfits : ∀ l ∈ L, l.Fits os) (hget : L[start]? = some l)
    (sizeofT : ℕ) (p r : ℕ → ℕ) (n : ℕ) :
    ∃ l', (shrunkList os sizeofT start n p r L)[start]? = some l' ∧
      l'.mappingAddress os = l.mappingAddress os := by
  have hlt := (hfits l (List.mem_of_getElem? hget)).reference_lt
  rw [shrunkList, getElem?_moveFrom, firstPass, getElem?_passOver, hget, Option.map_some]
  rcases Nat.eq_zero_or_pos n with rfl | hpos
  · rw [if_pos (by omega), if_neg (by omega), Option.map_some, sumTo_zero, backWord_zero,
      Container.moved_zero hlt]
    exact ⟨l, rfl, rfl⟩
  · rw [if_neg (by omega), if_pos (by omega), Nat.sub_self, sumTo_zero, Container.cut, backWord_zero]
    refine ⟨_, rfl, ?_⟩
    split
    · rw [Container.moved_zero (by rwa [Container.resized_reference]), Container.mappingAddress,
        Container.offset, Container.resized_reference]
      rfl
    · rw [Container.moved_zero hlt]

theorem Tabled.shrinking {temp spare : List Frame} (h : Tabled os refs st L s)
    (htemp : temp.length = s.ctx.pfns_num_) (hspare : spare.length = s.ctx.pfns_num_) :
    Shrinking os s refs st L sizeofT start S array p r 0 {
      itStruct := start
      PFNsIdx := S
      tempPFNsIdx := 0
      steps := 0
      requested_pages := 0
      tempPFNs := temp
      sparePFNs := spare
      elements_num_array := array } s where
  itStruct := rfl
  PFNsIdx := rfl
  tempPFNsIdx := rfl
  steps := rfl
  requested_pages := rfl
  temp_length := htemp
  temp := rfl
  spare_length := hspare
  spare := rfl
  entries := by
    refine List.ext_getElem? fun j => ?_
    rw [getElem?_markedEntries]
    cases array[j]? with
    | none => rfl
    | some a => rw [Option.map_some, if_neg (by omega)]
  tabled := by
    rw [firstPass, passOver_zero]
    exact h
  pfns_num := rfl
  size := rfl
  mach := .refl _ _ _
  data := rfl

theorem Shrinking.meets_rounds (hl : Listed os sizeofT start S s.ctx.pfns_num_ array p r L)
    (hnum : s.ctx.pfns_num_ ≤ st.length)
    (hcopy : G → ∀ j d, L[start + j]? = some d → j < array.length → r j < p j →
      CopiesDown os s.mach.pageTable (p j - r j) d)
    (h : Shrinking os s refs st L sizeofT start S array p r 0 v s) :
    Meets ((List.range array.length).foldlM (shrinkRound os sizeofT) v) s
      (Shrinking os s refs st L sizeofT start S array p r array.length) (Blames G F) := by
  have hlen := hl.length_le
  rw [List.range_eq_range']
  refine Meets.imp (meets_foldlM_range (I := fun i v t => Shrinking os s refs st L sizeofT start
    S array p r i v t) array.length 0 _ _ h ?_) ?_
  · intro i v t _ hi hI
    have hget := List.getElem?_eq_getElem (l := L) (i := start + i) (by omega)
    exact Shrinking.meets_shrinkRound hl (by omega) hget hnum hI fun hg hlt =>
      hcopy hg i _ hget (by omega) hlt
  · intro v t hI
    rwa [zero_add] at hI

theorem Shrinking.meets_commit {t : State} {unmapMessage mapMessage freeMessage : String}
    (h : Shrinking os s refs st L sizeofT start S array p r array.length v t)
    (hl : Listed os sizeofT start S s.ctx.pfns_num_ array p r L) (hget : L[start]? = some l)
    (hnum : s.ctx.pfns_num_ ≤ st.length) (hF : F ≤ s.mach.failures) :
    Meets (do
      shiftReferences os v.itStruct (sub64 0 (u64 (v.steps * os.page_size)))
      let v ← commitPages os start S s.ctx.pfns_num_ (sub64 s.ctx.pfns_num_ v.PFNsIdx) v
        unmapMessage mapMessage
      let ok ← HeapFree os
      ensure ok freeMessage
      return v) t (fun v t => Shrunk os s t refs st L sizeofT start S l array p r v)
      (Blames G F) := by
  have hend := hl.end_le
  have hwords := hl.words
  have hmin := sumTo_le_sumTo (p := fun j => min (p j) (r j)) (q := p) (i := array.length)
    fun _ _ => min_le_left _ _
  have hT := h.tempPFNsIdx
  have hP := h.PFNsIdx
  have htemp := h.temp_length
  have hpost : sub64 s.ctx.pfns_num_ v.PFNsIdx = s.ctx.pfns_num_ - (S + sumTo p array.length) := by
    rw [hP]
    exact sub64_of_le hend (by omega)
  have hfs : v.tempPFNs.take v.tempPFNsIdx ++ slice st v.PFNsIdx (s.ctx.pfns_num_ -
      (S + sumTo p array.length)) = keptFrames st S s.ctx.pfns_num_ array.length p r := by
    rw [h.temp, hP, keptFrames]
  rw [meets_bind, hpost, h.itStruct, h.steps]
  refine (h.tabled.meets_shiftReferences
    (by rw [firstPass, length_passOver]; exact hl.length_le) _).imp fun _ u hu => ?_
  obtain ⟨hctx, hrw, htab⟩ := hu
  obtain ⟨l', hl', hmap⟩ := mappingAddress_shrunkList hl.fits hget sizeofT p r array.length
  have hund := h.mach.trans (.of_reassigned hrw)
  rw [meets_bind]
  refine Meets.imp (Tabled.meets_commitPages htab hl' (by omega) (by omega) (by omega) (by omega)
    (by omega) (hF.trans hund.failures.ge)) ?_
  rintro v' w ⟨⟨temp', rfl⟩, hcom⟩
  obtain ⟨m, hm, hw⟩ := hcom.mach
  have hF' : F ≤ w.mach.failures := by
    rw [hw]
    exact hF.trans (hund.failures.ge.trans hm.failures.ge)
  have hpt : u.mach.pageTable = s.mach.pageTable :=
    funext fun x => hund.pageTable x (Set.notMem_empty x)
  rw [meets_bind, HeapFree, meets_osCall, meets_bind]
  refine meets_ensure (fun hok => (meets_pure _).mpr ?_) fun hno =>
    Or.inl (Machine.failures_lt_heapFree hno hF')
  rw [Machine.heapFreeCall_eq hok]
  have hcom' := hcom.tabled
  rw [hfs] at hw hcom'
  exact {
    PFNsIdx := hP
    steps := h.steps
    requested_pages := h.requested_pages
    spare_length := h.spare_length
    spare := h.spare
    entries := h.entries
    tabled := hcom'.machine rfl
    pfns_num := by
      dsimp only
      rw [hcom.pfns_num, hctx, h.pfns_num]
    size := by
      dsimp only
      rw [hcom.size, hctx, h.size]
    pageTable := by
      dsimp only
      rw [hw, hpt, hmap]
    mach := by
      dsimp only
      rw [hw]
      exact hund.quiet hm.heapFree
    region := fun hne => by
      have h₁ := hcom.region
      rw [hfs, hmap, Machine.inRegion, hund.regions] at h₁
      exact h₁ hne
    data := by
      dsimp only
      rw [hw, hm.eq, hrw.eq]
      exact h.data }

/-- The first pass of `ContainerRealloc2`. -/
theorem Tabled.meets_shrinkPass (h : Tabled os refs st L s)
    (hl : Listed os sizeofT start S s.ctx.pfns_num_ array p r L) (hget : L[start]? = some l)
    (hnum : s.ctx.pfns_num_ ≤ st.length)
    (hcopy : G → ∀ j d, L[start + j]? = some d → j < array.length → r j < p j →
      CopiesDown os s.mach.pageTable (p j - r j) d)
    {temp spare : List Frame} (htemp : temp.length = s.ctx.pfns_num_)
    (hspare : spare.length = s.ctx.pfns_num_) (hF : F ≤ s.mach.failures) :
    Meets (shrinkPass os sizeofT start S s.ctx.pfns_num_ array.length {
      itStruct := start
      PFNsIdx := S
      tempPFNsIdx := 0
      steps := 0
      requested_pages := 0
      tempPFNs := temp
      sparePFNs := spare
      elements_num_array := array }) s
      (fun v t => Shrunk os s t refs st L sizeofT start S l array p r v)
      (Blames G F) := by
  rw [shrinkPass, meets_bind]
  exact (Shrinking.meets_rounds hl hnum hcopy (h.shrinking htemp hspare)).imp fun v t hI =>
    hI.meets_commit hl hget hnum hF

end FirstPass

end VcmallocBench
