import VcmallocBench.HyperContainer.Batch
import VcmallocBench.HyperContainer.Histories

/-! # Requests of a batch

An array of counts asks for pages of the containers from one on. Whatever mix of
them grow, shrink and keep their pages, each gets the pages it asks for, and the
containers have as many pages as there are frames.
-/

namespace VcmallocBench

open Paging

def pagesFrom (os : OS) (L : List Container) (start j : ℕ) : ℕ :=
  (L[start + j]?.map (·.nbrOfPages os)).getD 0

def pagesAsked (os : OS) (L : List Container) (start sizeofT : ℕ) (array : List ℕ) (j : ℕ) : ℕ :=
  (L[start + j]?.map fun l => l.wanted os sizeofT (array[j]?.getD keepEntry)).getD 0

/-- An array of counts, none for a container behind the last one. The element size divides a page and
is the one of each container that changes its pages, and no count wraps. -/
structure Batchable (os : OS) (s : State) (L : List Container) (sizeofT start : ℕ)
    (array : List ℕ) : Prop where
  dvd : sizeofT ∣ os.page_size
  length_le : start + array.length ≤ L.length
  asked : ∀ j l a, L[start + j]? = some l → array[j]? = some a →
    l.wanted os sizeofT a ≠ l.nbrOfPages os →
    sizeofT = l.type_size_ ∧ a * sizeofT + l.guestBytes os < 2 ^ 63
  words : s.ctx.pfns_num_ + sumTo (fun j => pagesAsked os L start sizeofT array j -
    pagesFrom os L start j) array.length < 2 ^ 59

section Requests

variable {os : OS} {s : State} {lo hi sizeofT start j a : ℕ} {cs : List ContainerContext}
  {st : List Frame} {L : List Container} {l : Container} {array : List ℕ}

theorem pagesFrom_eq (hl : L[start + j]? = some l) : pagesFrom os L start j = l.nbrOfPages os := by
  rw [pagesFrom, hl, Option.map_some, Option.getD_some]

theorem pagesAsked_eq (hl : L[start + j]? = some l) (ha : array[j]? = some a) :
    pagesAsked os L start sizeofT array j = l.wanted os sizeofT a := by
  rw [pagesAsked, hl, ha, Option.map_some, Option.getD_some, Option.getD_some]

theorem pagesOf_take_add (start : ℕ) : ∀ {n : ℕ}, start + n ≤ L.length →
    pagesOf os (L.take (start + n)) = pagesOf os (L.take start) + sumTo (pagesFrom os L start) n
  | 0, _ => rfl
  | n + 1, h => by
    have hl := List.getElem?_eq_getElem (show start + n < L.length by omega)
    rw [← add_assoc, pagesOf_take_succ hl, pagesOf_take_add start (by omega), sumTo_succ,
      pagesFrom_eq hl, add_assoc]

section Batchable

variable (hb : Batchable os s L sizeofT start array) (hc : Counted os s lo hi cs st L)

include hb hc

theorem Batchable.listed : Listed os sizeofT start (pagesOf os (L.take start)) s.ctx.pfns_num_ array
    (pagesFrom os L start) (pagesAsked os L start sizeofT array) L where
  length_le := hb.length_le
  fits := hc.fits
  has j l a hl ha := pagesFrom_eq hl
  wants j l a hl ha := pagesAsked_eq hl ha
  end_le := by
    rw [← pagesOf_take_add start hb.length_le]
    have h₁ := @pagesOf_take_add_drop os L (start + array.length)
    have h₂ := hc.pages
    omega
  words := hb.words

/-- A container that changes its pages was asked for some number of elements of its own size. -/
theorem Batchable.requested (hl : L[start + j]? = some l) (hj : j < array.length)
    (hne : pagesAsked os L start sizeofT array j ≠ pagesFrom os L start j) :
    ∃ n, sizeofT = l.type_size_ ∧
      pagesAsked os L start sizeofT array j = l.requestedPages os sizeofT n ∧
      Unwrapped os s l sizeofT n := by
  have ha := List.getElem?_eq_getElem hj
  have hwords := hb.words
  have hend := (hb.listed hc).end_le
  have hle := sumTo_le (pagesFrom os L start) hj
  have hlt := sumTo_le (fun j => pagesAsked os L start sizeofT array j - pagesFrom os L start j) hj
  have hwant := @pagesAsked_eq os sizeofT start j _ L l array hl ha
  rw [hwant, pagesFrom_eq hl] at hne hlt
  obtain ⟨hs, hbytes⟩ := hb.asked j l _ hl ha hne
  have hreq : l.wanted os sizeofT array[j] = l.requestedPages os sizeofT array[j] := by
    rw [Container.wanted] at hne ⊢
    split
    · rename_i h
      exact absurd (if_pos h) hne
    · rfl
  rw [pagesFrom_eq hl] at hle
  refine ⟨array[j], hs, hwant.trans hreq, hbytes, ?_⟩
  rw [← hreq]
  omega

theorem Batchable.resized (hl : L[start + j]? = some l) (hj : j < array.length)
    (hne : pagesAsked os L start sizeofT array j ≠ pagesFrom os L start j) :
    (l.resized os (pagesAsked os L start sizeofT array j) sizeofT).Fits os ∧
      (l.resized os (pagesAsked os L start sizeofT array j) sizeofT).nbrOfPages os =
        pagesAsked os L start sizeofT array j ∧
      (l.resized os (pagesAsked os L start sizeofT array j) sizeofT).bytes =
        l.capacity os (pagesAsked os L start sizeofT array j) ∧
      l.guestBytes os ≤ pagesAsked os L start sizeofT array j * os.page_size +
        l.priorFreeBytes os := by
  have hf := hc.fits l (List.mem_of_getElem? hl)
  obtain ⟨n, hs, hr, hu⟩ := hb.requested hc hl hj hne
  have hfill := resized_fills hf hu hs hb.dvd
  rw [hr]
  exact ⟨(resized_fits hf (hu.guest_le hf) (hu.capacity_le hf) hfill.le).1,
    (Exact.of_dvd hf hu hs hb.dvd : Exact os 0 0 l _ sizeofT).pages, hfill, hu.guest_le hf⟩

theorem Batchable.cuts : Cuts os sizeofT start array.length (pagesFrom os L start)
    (pagesAsked os L start sizeofT array) L where
  fits _ _ hl hj hr := (hb.resized hc hl hj hr.ne).1
  pages _ _ hl hj hr := (hb.resized hc hl hj hr.ne).2.1

end Batchable

end Requests

/-- The word by which references move when `D` pages before them were cut and `T` pages added. -/
def batchWord (os : OS) (D T : ℕ) : ℕ := backWord os D + u64 (T * os.page_size)

/-- A listed container after a batch in which `D` pages were cut and `T` pages added before it: if it
grows it moves up by the pages added, and otherwise down by them. -/
def Container.batched (os : OS) (sizeofT p r D T : ℕ) (l : Container) : Container :=
  (if r = p then l else l.resized os r sizeofT).moved
    (if p < r then batchWord os D T else backWord os D + backWord os T)

section Entries

variable {os : OS} {sizeofT start n p r D T : ℕ} {l l' : Container}

theorem dvd_batchWord (os : OS) (D T : ℕ) : os.page_size ∣ batchWord os D T :=
  Nat.dvd_add (dvd_backWord os D) ((Nat.dvd_mod_iff os.page_size_dvd).mpr (Nat.dvd_mul_left _ _))

theorem Container.ext_iff {l l' : Container} : l = l' ↔ l.reference_ = l'.reference_ ∧
    l.type_size_ = l'.type_size_ ∧ l.elements_num_ = l'.elements_num_ := by
  cases l
  cases l'
  simp

theorem Container.moved_moved (l : Container) (a b : ℕ) :
    (l.moved a).moved b = l.moved (a + b) := by
  rw [Container.ext_iff, Container.moved_reference_eq, Container.moved_reference_eq,
    Container.moved_reference_eq, u64_u64_add, add_assoc]
  simp

theorem Container.resized_moved {w : ℕ} (hf : l.Fits os) (hw : os.page_size ∣ w) (req : ℕ) :
    (l.moved w).resized os req sizeofT = (l.resized os req sizeofT).moved w := by
  obtain ⟨-, h₂, h₃⟩ := Container.moved_counts hf hw
  rw [Container.ext_iff]
  refine ⟨?_, ?_, ?_⟩
  · rw [Container.resized_reference, Container.moved_reference_eq, Container.moved_reference_eq,
      Container.resized_reference]
  · simp
  · rw [Container.resized_elements_num, h₂, h₃, Container.moved_elements_num,
      Container.resized_elements_num]

theorem Container.grown_cut (hf : l.Fits os) :
    (l.cut os sizeofT p r D).grown os sizeofT (min p r) r T = l.batched os sizeofT p r D T := by
  rw [Container.cut, Container.grown, Container.batched]
  rcases lt_trichotomy r p with hlt | rfl | hgt
  · rw [if_pos hlt, if_neg (by omega), if_neg hlt.ne, if_neg hlt.not_gt, Container.moved_moved]
  · rw [if_neg (lt_irrefl _), if_neg (by omega), if_pos rfl, if_neg (lt_irrefl _),
      Container.moved_moved]
  · rw [if_neg hgt.not_gt, if_pos (by omega), if_neg hgt.ne', if_pos hgt,
      Container.resized_moved hf (dvd_backWord os D), Container.moved_moved, batchWord]

variable {p r : ℕ → ℕ} {L : List Container} {k j : ℕ}

theorem getElem?_batchList_lt (hk : k < start) :
    (batchList os sizeofT start n p r L)[k]? = L[k]? := by
  rw [batchList, grownList, getElem?_moveFrom, if_neg (by omega), secondPass, getElem?_passOver,
    shrunkList, getElem?_moveFrom, if_neg (by omega), firstPass, getElem?_passOver]
  cases L[k]? with
  | none => rfl
  | some l => rw [Option.map_some, Option.map_some, if_neg (by omega), if_neg (by omega)]

theorem getElem?_batchList (hf : ∀ l ∈ L, l.Fits os) (hj : j < n) :
    (batchList os sizeofT start n p r L)[start + j]? = L[start + j]?.map (Container.batched os sizeofT
      (p j) (r j) (sumTo (fun k => p k - r k) j) (sumTo (fun k => r k - p k) j)) := by
  rw [batchList, grownList, getElem?_moveFrom, if_neg (by omega), secondPass, getElem?_passOver,
    getElem?_shrunkList hj, sumTo_sub_min]
  cases hl : L[start + j]? with
  | none => rfl
  | some l =>
    rw [Option.map_some, Option.map_some, Option.map_some, if_pos (by omega),
      Nat.add_sub_cancel_left]
    exact congrArg some (Container.grown_cut (hf l (List.mem_of_getElem? hl)))

theorem getElem?_batchList_ge (hk : start + n ≤ k) :
    (batchList os sizeofT start n p r L)[k]? = L[k]?.map
      (·.moved (batchWord os (sumTo (fun k => p k - r k) n) (sumTo (fun k => r k - p k) n))) := by
  rw [batchList, grownList, getElem?_moveFrom, if_pos hk, secondPass, getElem?_passOver, shrunkList,
    getElem?_moveFrom, if_pos hk, firstPass, getElem?_passOver, sumTo_sub_min]
  cases L[k]? with
  | none => rfl
  | some l =>
    simp only [Option.map_some]
    rw [if_neg (by omega), if_neg (by omega), Container.moved_moved, batchWord]

/-- The containers behind the listed ones. -/
theorem drop_batchList : (batchList os sizeofT start n p r L).drop (start + n) =
    (L.drop (start + n)).map
      (·.moved (batchWord os (sumTo (fun k => p k - r k) n) (sumTo (fun k => r k - p k) n))) := by
  refine List.ext_getElem? fun k => ?_
  rw [List.getElem?_drop, List.getElem?_map, List.getElem?_drop]
  exact getElem?_batchList_ge (by omega)

theorem take_batchList : (batchList os sizeofT start n p r L).take start = L.take start := by
  refine List.ext_getElem? fun k => ?_
  rw [List.getElem?_take, List.getElem?_take]
  split
  · rename_i hk
    exact getElem?_batchList_lt hk
  · rfl

theorem length_batchList : (batchList os sizeofT start n p r L).length = L.length := by
  rw [batchList, grownList, length_moveFrom, secondPass, length_passOver, shrunkList,
    length_moveFrom, firstPass, length_passOver]

theorem Container.batched_fits {p r : ℕ} (hf : l.Fits os)
    (hr : r ≠ p → (l.resized os r sizeofT).Fits os) : (l.batched os sizeofT p r D T).Fits os := by
  rw [Container.batched]
  refine moved_fits _ ?_
  split
  · exact hf
  · rename_i hne
    exact hr hne

theorem Container.batched_pages {p r : ℕ} (hf : l.Fits os) (hp : p = l.nbrOfPages os)
    (hr : r ≠ p → (l.resized os r sizeofT).Fits os ∧ (l.resized os r sizeofT).nbrOfPages os = r) :
    (l.batched os sizeofT p r D T).nbrOfPages os = r := by
  have hw : os.page_size ∣ if p < r then batchWord os D T else backWord os D + backWord os T := by
    split
    · exact dvd_batchWord os D T
    · exact Nat.dvd_add (dvd_backWord os D) (dvd_backWord os T)
  rw [Container.batched]
  by_cases he : r = p
  · rw [if_pos he, (Container.moved_counts hf hw).1, he, hp]
  · obtain ⟨hfit, hpages⟩ := hr he
    rw [if_neg he, (Container.moved_counts hfit hw).1, hpages]

end Entries

section Accounts

variable {os : OS} {s t : State} {lo hi sizeofT start S F w : ℕ} {cs : List ContainerContext}
  {refs : List PtrLoc} {st new : List Frame} {L : List Container} {l : Container} {array : List ℕ}
  {G : Prop}

theorem pagesOf_map_moved_of_dvd (hf : ∀ l ∈ L, l.Fits os) (hw : os.page_size ∣ w) :
    pagesOf os (L.map (·.moved w)) = pagesOf os L := by
  rw [pagesOf, pagesOf, List.map_map]
  refine congrArg List.sum (List.map_congr_left fun l hl => ?_)
  exact (Container.moved_counts (hf l hl) hw).1

section Batchable

variable (hb : Batchable os s L sizeofT start array) (hc : Counted os s lo hi cs st L)

include hb hc

theorem Batchable.batchList_fits : ∀ l ∈ batchList os sizeofT start array.length
    (pagesFrom os L start) (pagesAsked os L start sizeofT array) L, l.Fits os := by
  intro d hd
  obtain ⟨k, hk⟩ := List.mem_iff_getElem?.mp hd
  rcases Nat.lt_or_ge k start with hlt | hge
  · rw [getElem?_batchList_lt hlt] at hk
    exact hc.fits d (List.mem_of_getElem? hk)
  rcases Nat.lt_or_ge k (start + array.length) with hlt | hge'
  · obtain ⟨j, rfl⟩ := Nat.exists_eq_add_of_le hge
    rw [getElem?_batchList hc.fits (by omega), Option.map_eq_some_iff] at hk
    obtain ⟨l, hl, rfl⟩ := hk
    exact Container.batched_fits (hc.fits l (List.mem_of_getElem? hl)) fun hne =>
      (hb.resized hc hl (by omega) hne).1
  · rw [getElem?_batchList_ge hge', Option.map_eq_some_iff] at hk
    obtain ⟨l, hl, rfl⟩ := hk
    exact moved_fits _ (hc.fits l (List.mem_of_getElem? hl))

theorem Batchable.pagesOf_batchList : pagesOf os (batchList os sizeofT start array.length
    (pagesFrom os L start) (pagesAsked os L start sizeofT array) L) +
      sumTo (pagesFrom os L start) array.length =
    pagesOf os L + sumTo (pagesAsked os L start sizeofT array) array.length := by
  set L' := batchList os sizeofT start array.length (pagesFrom os L start)
    (pagesAsked os L start sizeofT array) L with hL'
  have hlen : L'.length = L.length := length_batchList
  have hle := hb.length_le
  have hfront : L'.take start = L.take start := take_batchList
  have hback : pagesOf os (L'.drop (start + array.length)) =
      pagesOf os (L.drop (start + array.length)) := by
    rw [hL', drop_batchList]
    exact pagesOf_map_moved_of_dvd (fun l hl => hc.fits l (List.mem_of_mem_drop hl))
      (dvd_batchWord os _ _)
  have hmid : sumTo (pagesFrom os L' start) array.length =
      sumTo (pagesAsked os L start sizeofT array) array.length := by
    refine sumTo_congr fun j hj => ?_
    have hl := List.getElem?_eq_getElem (show start + j < L.length by omega)
    have hl' : L'[start + j]? = L[start + j]?.map _ := getElem?_batchList hc.fits hj
    rw [hl, Option.map_some] at hl'
    rw [pagesFrom_eq hl']
    refine Container.batched_pages (hc.fits _ (List.mem_of_getElem? hl)) (pagesFrom_eq hl)
      fun hne => ?_
    obtain ⟨h₁, h₂, -⟩ := hb.resized hc hl hj hne
    exact ⟨h₁, h₂⟩
  have h₁ := @pagesOf_take_add os L start _ hle
  have h₂ := @pagesOf_take_add os L' start _ (hle.trans hlen.ge)
  have h₃ := @pagesOf_take_add_drop os L (start + array.length)
  have h₄ := @pagesOf_take_add_drop os L' (start + array.length)
  rw [hfront, hmid] at h₂
  omega

/-- As many pages come and go as frames. -/
theorem Batchable.pagesOf_add_cut : pagesOf os (batchList os sizeofT start array.length
    (pagesFrom os L start) (pagesAsked os L start sizeofT array) L) +
      sumTo (fun j => pagesFrom os L start j - pagesAsked os L start sizeofT array j) array.length =
    pagesOf os L +
      sumTo (fun j => pagesAsked os L start sizeofT array j - pagesFrom os L start j)
        array.length := by
  have h₁ := hb.pagesOf_batchList hc
  have h₂ := sumTo_min_add (pagesFrom os L start) (pagesAsked os L start sizeofT array) array.length
  have h₃ := sumTo_add_sub (p := fun j => min (pagesFrom os L start j)
    (pagesAsked os L start sizeofT array j)) (q := pagesAsked os L start sizeofT array)
    (i := array.length) fun j _ => min_le_right _ _
  rw [sumTo_sub_min] at h₃
  omega

end Batchable

theorem Views.outside {m : Machine} {a : ℕ} (hv : Views os m a a cs L) (b : ℕ) :
    Views os m b b cs L where
  length_eq := hv.length_eq
  resolve := hv.resolve
  within c hc := by
    obtain ⟨x, hx⟩ := hv.var hc
    rw [hx]
    trivial
  apart := hv.apart

theorem Counted.tabled (hc : Counted os s lo lo cs st L) :
    Tabled os (cs.map (·.reference_)) st L s := ⟨cs, hc.core, hc.views.outside 0, rfl⟩

/-- After a batch the containers have no more pages than there are frames. -/
theorem Batched.counted (h : Batched os s t refs st L sizeofT start (pagesOf os (L.take start)) l
      array.length (pagesFrom os L start) (pagesAsked os L start sizeofT array) new)
    (hb : Batchable os s L sizeofT start array) (hc : Counted os s lo lo cs st L) :
    ∃ cs' st', cs'.map (·.reference_) = refs ∧ Counted os t lo lo cs' st' (batchList os sizeofT start
      array.length (pagesFrom os L start) (pagesAsked os L start sizeofT array) L) ∧
      st'.take t.ctx.pfns_num_ = st.take (pagesOf os (L.take start)) ++
        batchFrames (st.take s.ctx.pfns_num_) new (pagesOf os (L.take start)) s.ctx.pfns_num_
          array.length (pagesFrom os L start) (pagesAsked os L start sizeofT array) := by
  obtain ⟨st', ⟨cs', hcore, hviews, hrefs⟩, htake⟩ := h.tabled
  refine ⟨cs', st', hrefs, ⟨hcore, hviews.outside lo, hb.batchList_fits hc, ?_⟩, htake⟩
  have h₁ := hb.pagesOf_add_cut hc
  have h₂ := hc.pages
  have h₃ := h.pfns_num
  have h₄ := (hb.listed hc).end_le
  have h₅ : sumTo (fun j => pagesFrom os L start j - pagesAsked os L start sizeofT array j)
      array.length ≤ sumTo (pagesFrom os L start) array.length :=
    sumTo_le_sumTo fun _ _ => Nat.sub_le _ _
  omega

theorem meets_reallocBlocks (hnum : s.ctx.pfns_num_ < 2 ^ 61) (hF : F ≤ s.mach.failures) :
    Meets (reallocBlocks os) s (fun b t => F < t.mach.failures ∨
      b.1.length = s.ctx.pfns_num_ ∧ b.2.length = s.ctx.pfns_num_ ∧
        ∃ m, s.mach.Quiet m ∧ t = { s with mach := m }) (Blames G F) := by
  rw [reallocBlocks, meets_bind, meets_getCtx]
  refine meets_bind_unless (meets_HeapAlloc hnum hF) (fun _ => (continues_HeapAlloc os _).bind
    fun _ => .pure _) fun spare t ht => ?_
  obtain ⟨hspare, m, hm, rfl⟩ := ht
  refine meets_bind_unless (meets_HeapAlloc hnum (hF.trans hm.failures.ge)) (fun _ => .pure _)
    fun temp t ht => ?_
  obtain ⟨htemp, m', hm', rfl⟩ := ht
  exact (meets_pure _).mpr (Or.inr ⟨hspare, htemp, m', hm.trans hm', rfl⟩)

theorem keptTable_congr {m : Machine} {S n : ℕ} {p r : ℕ → ℕ} (hpt : m.pageTable = s.mach.pageTable) :
    keptTable os ⟨m, s.ctx⟩ st S l n p r = keptTable os s st S l n p r := by
  funext x
  rw [keptTable, keptTable]
  dsimp only
  rw [hpt]

theorem Batched.of_quiet {m : Machine} {n : ℕ} {p r : ℕ → ℕ}
    (h : Batched os ⟨m, s.ctx⟩ t refs st L sizeofT start S l n p r new) (hm : s.mach.Quiet m) :
    Batched os s t refs st L sizeofT start S l n p r new := by
  have hvars : m.vars = s.mach.vars := by rw [hm.eq]
  have halloc : m.allocated = s.mach.allocated := by rw [hm.eq]
  have hpt : m.pageTable = s.mach.pageTable := by rw [hm.eq]
  have hregions : m.regions = s.mach.regions := by rw [hm.eq]
  have hdata : m.frameData = s.mach.frameData := by rw [hm.eq]
  exact { h with
    new_fresh := halloc ▸ h.new_fresh
    allocated := halloc ▸ h.allocated
    pageTable := fun hnd => hpt ▸ hregions ▸ h.pageTable hnd
    regions := hregions ▸ h.regions
    regions_keep := hregions ▸ h.regions_keep
    region := fun hne => by
      rcases h.region hne with ⟨g, hg, hin⟩ | ⟨hone, hbuf, hnone⟩
      · exact Or.inl ⟨g, hregions ▸ hg, hin⟩
      · exact Or.inr ⟨hone, ⟨hbuf.pos, hbuf.dvd, hbuf.le, hregions ▸ hbuf.apart⟩, hnone⟩
    vars := fun x hx => (h.vars x hx).trans (congrFun hvars x)
    legal := fun hnd hheld call hcall =>
      (h.legal hnd (halloc ▸ hheld) call hcall).elim (hm.legal call) Or.inr
    data := by
      obtain ⟨buffer, d, hbuf, hd, hcontents, hframes⟩ := h.data
      refine ⟨buffer, d, fun hpos => ?_, fun f hf => ?_, hcontents, ?_⟩
      · have hb := hbuf hpos
        exact ⟨hb.pos, hb.dvd, hb.le, hregions ▸ hb.apart⟩
      · rw [hd f hf, ← hpt, ← hdata]
      · rw [hframes, keptTable_congr hpt] }

/-- A batch finds its first container and gives each listed one the pages asked for. It accesses no
table out of bounds, and fails only after a call has failed or, unless `G` holds, in a copy to memory
that is not mapped. -/
theorem Counted.meets_ContainerRealloc2 {c : ContainerContext} (hc : Counted os s lo lo cs st L)
    (hb : Batchable os s L sizeofT start array) (hk : cs[start]? = some c) (hl : L[start]? = some l)
    (hfind : s.find os l.reference_ = .ok (some start)) (hmax : G → 0 < s.ctx.pfns_max_)
    (hdown : G → ∀ j d, L[start + j]? = some d → j < array.length →
      pagesAsked os L start sizeofT array j < pagesFrom os L start j → CopiesDown os
        s.mach.pageTable (pagesFrom os L start j - pagesAsked os L start sizeofT array j) d)
    (hup : G → ∀ buffer, Buffer os s.mach buffer → ∀ j d, L[start + j]? = some d →
      j < array.length → pagesFrom os L start j < pagesAsked os L start sizeofT array j →
      CopiesUp os (keptTable os s st (pagesOf os (L.take start)) l array.length
        (pagesFrom os L start) (pagesAsked os L start sizeofT array)) buffer
        (d.moved (backWord os (sumTo (fun j => pagesFrom os L start j -
          pagesAsked os L start sizeofT array j) j))))
    (hF : F ≤ s.mach.failures) :
    Meets (ContainerRealloc2 os c.reference_ sizeofT array) s (fun _ t => F < t.mach.failures ∨
      ∃ new, Batched os s t (cs.map (·.reference_)) st L sizeofT start (pagesOf os (L.take start)) l
        array.length (pagesFrom os L start) (pagesAsked os L start sizeofT array) new)
      (Blames G F) := by
  have hnum := hc.core.num
  have hw := hc.core.words
  have hsum := hc.pages_lt
  rw [ContainerRealloc2]
  refine meets_bind_unless (meets_reallocBlocks (by omega) hF) (fun b => ?_) fun b t ht => ?_
  · refine (Leads.of_eq (leads_loadPtr os _)).bind fun elem => ?_
    refine (Leads.of_eq (leads_lookup os elem)).bind fun found => ?_
    cases found with
    | none => exact .throw _
    | some k => exact continues_ContainerRealloc2At os k sizeofT b.1 b.2 array
  obtain ⟨hspare, htemp, m, hm, rfl⟩ := ht
  have hload : m.load os c.reference_ = some l.reference_ := by
    rw [hm.eq]
    exact (hc.views.sizes hk hl).2.2
  have hfind' : State.find os ⟨m, s.ctx⟩ l.reference_ = .ok (some start) := by
    rw [hm.eq]
    exact hfind
  dsimp only
  rw [meets_bind]
  refine (meets_loadPtr hload).mpr ?_
  rw [meets_bind, meets_lookup_eq, hfind']
  refine (meets_pure _).mpr ?_
  dsimp only
  have hvars : m.vars = s.mach.vars := by rw [hm.eq]
  have hpt : m.pageTable = s.mach.pageTable := by rw [hm.eq]
  have hregions : m.regions = s.mach.regions := by rw [hm.eq]
  refine ((hc.tabled.machine hvars).meets_ContainerRealloc2At (hb.listed hc) (hb.cuts hc) hl hnum
    (by omega) hmax htemp hspare (fun hg => ?_) (fun hg buffer hbuf => ?_)
    (hF.trans hm.failures.ge)).imp fun _ u hu => ?_
  · dsimp only
    rw [hpt]
    exact hdown hg
  · have hbuf' : Buffer os s.mach buffer :=
      ⟨hbuf.pos, hbuf.dvd, hbuf.le, fun g hg => hbuf.apart g (hregions ▸ hg)⟩
    rw [keptTable_congr hpt]
    exact hup hg buffer hbuf'
  · exact hu.imp_right (Exists.imp fun new hbat => hbat.of_quiet hm)

end Accounts

end VcmallocBench
