import VcmallocBench.HyperContainer.Realloc

/-! # Resizes and the layout

A resize rounds to whole pages, so that the containers behind it keep their
offsets and counts. They stay adjacent to the resized container exactly when its
element size divides the bytes that its new pages leave it.
-/

namespace VcmallocBench

open Paging

namespace Container

variable (os : OS) (l : Container) (req sizeofT : ℕ)

def capacity : ℕ := req * os.page_size + l.priorFreeBytes os - l.guestBytes os

def resized : Container :=
  { l with
    elements_num_ := resizedElements os req (l.priorFreeBytes os) (l.guestBytes os) sizeofT }

end Container

/-- Containers in order, from an address on. -/
structure Spaced (a : ℕ) (L : List Container) : Prop where
  first : ∀ l, L[0]? = some l → a ≤ l.reference_
  next : ∀ i l l', L[i]? = some l → L[i + 1]? = some l' →
    l.reference_ + l.bytes ≤ l'.reference_

section Order

variable {os : OS} {L : List Container} {a k j : ℕ} {l l' : Container}

theorem tiled_iff : ∀ {a : ℕ} {L : List Container}, Tiled a L ↔
    (∀ l, L[0]? = some l → l.reference_ = a) ∧
      ∀ i l l', L[i]? = some l → L[i + 1]? = some l' → l'.reference_ = l.reference_ + l.bytes
  | _, [] => by simp [Tiled]
  | a, l :: L => by
    rw [Tiled, tiled_iff (L := L)]
    constructor
    · rintro ⟨rfl, hfirst, hnext⟩
      refine ⟨fun d hd => by rw [Option.some.inj hd], fun i d d' hd hd' => ?_⟩
      cases i with
      | zero =>
        obtain rfl := Option.some.inj hd
        exact hfirst d' hd'
      | succ i => exact hnext i d d' hd hd'
    · rintro ⟨hfirst, hnext⟩
      have ha : l.reference_ = a := hfirst l rfl
      refine ⟨ha, fun d hd => ?_, fun i d d' hd hd' => hnext (i + 1) d d' hd hd'⟩
      rw [hnext 0 l d rfl hd, ha]

theorem Tiled.spaced (h : Tiled a L) : Spaced a L := by
  obtain ⟨hfirst, hnext⟩ := tiled_iff.mp h
  exact ⟨fun l hl => (hfirst l hl).ge, fun i l l' hl hl' => (hnext i l l' hl hl').ge⟩

namespace Spaced

theorem end_le (h : Spaced a L) {i : ℕ} (hl : L[i]? = some l) (hl' : L[j]? = some l')
    (hij : i < j) : l.reference_ + l.bytes ≤ l'.reference_ := by
  induction j generalizing l' with
  | zero => exact absurd hij (Nat.not_lt_zero i)
  | succ j ih =>
    rcases Nat.lt_or_ge i j with hlt | hge
    · have hd := List.getElem?_eq_getElem (l := L) (i := j) (by
        have := (List.getElem?_eq_some_iff.mp hl').1
        omega)
      have h₁ := ih hd hlt
      have h₂ := h.next j _ _ hd hl'
      omega
    · obtain rfl : i = j := by omega
      exact h.next i _ _ hl hl'

theorem reference_le (h : Spaced a L) {i : ℕ} (hl : L[i]? = some l) (hl' : L[j]? = some l')
    (hij : i ≤ j) : l.reference_ ≤ l'.reference_ := by
  rcases Nat.lt_or_ge i j with hlt | hge
  · exact (Nat.le_add_right _ _).trans (h.end_le hl hl' hlt)
  · obtain rfl : i = j := by omega
    obtain rfl := Option.some.inj (hl.symm.trans hl')
    exact le_rfl

theorem le_reference (h : Spaced a L) (hl : L[j]? = some l) : a ≤ l.reference_ := by
  have h₀ := List.getElem?_eq_getElem (l := L) (i := 0) (by
    have := (List.getElem?_eq_some_iff.mp hl).1
    omega)
  exact (h.first _ h₀).trans (h.reference_le h₀ hl (Nat.zero_le j))

theorem index_eq (h : Spaced a L) (hpos : ∀ l ∈ L, 0 < l.bytes) {i : ℕ} (hl : L[i]? = some l)
    (hl' : L[j]? = some l') (he : l.reference_ = l'.reference_) : i = j := by
  have h₁ := hpos l (List.mem_of_getElem? hl)
  have h₂ := hpos l' (List.mem_of_getElem? hl')
  rcases Nat.lt_trichotomy i j with hlt | heq | hgt
  · have := h.end_le hl hl' hlt
    omega
  · exact heq
  · have := h.end_le hl' hl hgt
    omega

end Spaced

end Order

section Resized

variable {os : OS} {L : List Container} {a k j req sizeofT : ℕ} {l l' : Container}

theorem resizedList_eq (hl : L[k]? = some l) : resizedList os L k l req sizeofT =
    L.take k ++ l.resized os req sizeofT ::
      (L.drop (k + 1)).map (·.moved (shiftWord os (l.nbrOfPages os) req)) := by
  obtain ⟨hk, rfl⟩ := List.getElem?_eq_some_iff.mp hl
  have htake : (L.take k).length = k := by rw [List.length_take, Nat.min_eq_left hk.le]
  rw [resizedList, moveFrom, List.set_eq_take_append_cons_drop, if_pos hk, List.append_cons]
  have hlen : (L.take k ++ [Container.resized os L[k] req sizeofT]).length = k + 1 := by
    rw [List.length_append, htake, List.length_singleton]
  have h₁ := @List.take_left _ (L.take k ++ [Container.resized os L[k] req sizeofT]) (L.drop (k + 1))
  have h₂ := @List.drop_left _ (L.take k ++ [Container.resized os L[k] req sizeofT]) (L.drop (k + 1))
  rw [hlen] at h₁ h₂
  exact congrArg₂ (· ++ ·) h₁ (congrArg _ h₂) |>.trans (List.append_cons ..).symm

theorem length_resizedList : (resizedList os L k l req sizeofT).length = L.length := by
  rw [resizedList, length_moveFrom, List.length_set]

theorem getElem?_resizedList_lt (hj : j < k) :
    (resizedList os L k l req sizeofT)[j]? = L[j]? := by
  rw [resizedList, getElem?_moveFrom, if_neg (by omega), List.getElem?_set_ne (by omega)]

theorem getElem?_resizedList_self (hl : L[k]? = some l) :
    (resizedList os L k l req sizeofT)[k]? = some (l.resized os req sizeofT) := by
  rw [resizedList, getElem?_moveFrom, if_neg (by omega),
    List.getElem?_set_self (List.getElem?_eq_some_iff.mp hl).1]
  rfl

theorem getElem?_resizedList_gt (hj : k < j) :
    (resizedList os L k l req sizeofT)[j]? =
      L[j]?.map (·.moved (shiftWord os (l.nbrOfPages os) req)) := by
  rw [resizedList, getElem?_moveFrom, if_pos (by omega), List.getElem?_set_ne (by omega)]

section Entry

variable (os : OS) (l : Container) (req sizeofT : ℕ)

@[simp] theorem Container.resized_reference : (l.resized os req sizeofT).reference_ = l.reference_ :=
  rfl

@[simp] theorem Container.resized_type_size : (l.resized os req sizeofT).type_size_ = l.type_size_ :=
  rfl

theorem Container.resized_elements_num : (l.resized os req sizeofT).elements_num_ =
    resizedElements os req (l.priorFreeBytes os) (l.guestBytes os) sizeofT := rfl

theorem Container.resized_bytes_eq : (l.resized os req sizeofT).bytes = l.type_size_ *
    resizedElements os req (l.priorFreeBytes os) (l.guestBytes os) sizeofT := rfl

-- comparing element counts must not evaluate the wrap
attribute [irreducible] Container.resized

end Entry

theorem moved_reference (hle : l.nbrOfPages os * os.page_size ≤ l'.reference_ + req * os.page_size)
    (hlt : l'.reference_ + req * os.page_size - l.nbrOfPages os * os.page_size < 2 ^ 64) :
    (l'.moved (shiftWord os (l.nbrOfPages os) req)).reference_ =
      l'.reference_ + req * os.page_size - l.nbrOfPages os * os.page_size := by
  rw [Container.moved_reference_eq, shiftWord]
  exact u64_add_sub64 hle hlt

theorem moved_mod : (l'.moved (shiftWord os (l.nbrOfPages os) req)).reference_ % os.page_size =
    l'.reference_ % os.page_size := by
  have hd : ∀ n, os.page_size ∣ u64 (n * os.page_size) := fun n => by
    rw [u64, Nat.dvd_mod_iff os.page_size_dvd]
    exact Nat.dvd_mul_left ..
  have hs : os.page_size ∣ shiftWord os (l.nbrOfPages os) req := by
    rw [shiftWord, sub64, Nat.dvd_mod_iff os.page_size_dvd]
    exact Nat.dvd_sub (dvd_add (hd _) os.page_size_dvd) (hd _)
  have hmod := Container.u64_mod_page os (l'.reference_ + shiftWord os (l.nbrOfPages os) req)
  rw [Container.moved_reference_eq, hmod, Nat.add_mod, Nat.mod_eq_zero_of_dvd hs, add_zero, Nat.mod_mod]

theorem moved_fits (w : ℕ) (hf : l'.Fits os) : (l'.moved w).Fits os where
  reference_lt := Container.moved_reference_lt w l'
  bytes_le := by
    rw [Container.moved_bytes]
    exact hf.bytes_le

theorem moved_pages (hf : l'.Fits os) :
    (l'.moved (shiftWord os (l.nbrOfPages os) req)).nbrOfPages os = l'.nbrOfPages os := by
  exact (Container.counts_shift hf (Container.moved_reference_lt _ _) moved_mod (Container.moved_bytes _ _)).1

theorem capacity_add (hf : l.Fits os)
    (hg : l.guestBytes os ≤ req * os.page_size + l.priorFreeBytes os) :
    l.capacity os req + l.nbrOfPages os * os.page_size = l.bytes + req * os.page_size := by
  have := Container.bytes_add_guestBytes hf
  rw [Container.capacity]
  omega

theorem span_capacity (hf : l.Fits os)
    (hg : l.guestBytes os ≤ req * os.page_size + l.priorFreeBytes os) :
    span os.page_size l.reference_ (l.capacity os req) = req := by
  have hP := os.page_size_pos
  have hcap := capacity_add hf hg
  have hpages := Container.nbrOfPages_eq hf
  rcases le_total (l.nbrOfPages os) req with hle | hle
  · obtain ⟨m, rfl⟩ := Nat.exists_eq_add_of_le hle
    rw [add_mul] at hcap
    rw [show l.capacity os (l.nbrOfPages os + m) = l.bytes + m * os.page_size by omega,
      span_grow hP, ← hpages]
  · obtain ⟨m, hm⟩ := Nat.exists_eq_add_of_le hle
    rw [hm, add_mul] at hcap
    have hgrow := span_grow hP l.reference_ (l.capacity os req) m
    rw [show l.capacity os req + m * os.page_size = l.bytes by omega, ← hpages, hm] at hgrow
    omega

theorem resized_bytes (hs : sizeofT = l.type_size_)
    (hg : l.guestBytes os ≤ req * os.page_size + l.priorFreeBytes os)
    (hlt : req * os.page_size + l.priorFreeBytes os < 2 ^ 64) :
    (l.resized os req sizeofT).bytes = sizeofT * (l.capacity os req / sizeofT) := by
  rw [Container.resized_bytes_eq, resizedElements_eq hg hlt, ← hs, Container.capacity]

theorem pagesOf_map_moved (hf : ∀ l' ∈ L, l'.Fits os) :
    pagesOf os (L.map (·.moved (shiftWord os (l.nbrOfPages os) req))) = pagesOf os L := by
  induction L with
  | nil => rfl
  | cons d L ih =>
    rw [List.map_cons, pagesOf_cons, pagesOf_cons, moved_pages (hf d List.mem_cons_self),
      ih fun l' hl' => hf l' (List.mem_cons_of_mem _ hl')]

theorem pagesOf_resizedList (hl : L[k]? = some l) (hf : ∀ l' ∈ L, l'.Fits os) :
    pagesOf os (resizedList os L k l req sizeofT) + l.nbrOfPages os =
      pagesOf os L + (l.resized os req sizeofT).nbrOfPages os := by
  rw [resizedList_eq hl, pagesOf_append, pagesOf_cons,
    pagesOf_map_moved fun l' hl' => hf l' (List.mem_of_mem_drop hl'), pagesOf_eq hl]
  omega

theorem adjacent_resizedList {R : ℕ → ℕ → Prop}
    (hR : ∀ x y p q, R x y → p ≤ x + q → p ≤ y + q → R (x + q - p) (y + q - p))
    (hs : Spaced a L) (hl : L[k]? = some l) (hf : l.Fits os)
    (hg : l.guestBytes os ≤ req * os.page_size + l.priorFreeBytes os)
    (hlim : ∀ l' ∈ L, l'.reference_ + req * os.page_size < 2 ^ 64)
    (hnext : ∀ i d d', L[i]? = some d → L[i + 1]? = some d' →
      R (d.reference_ + d.bytes) d'.reference_)
    (hk : ∀ d', L[k + 1]? = some d' → R (l.reference_ + (l.resized os req sizeofT).bytes)
      (d'.reference_ + req * os.page_size - l.nbrOfPages os * os.page_size)) :
    ∀ i d d', (resizedList os L k l req sizeofT)[i]? = some d →
      (resizedList os L k l req sizeofT)[i + 1]? = some d' →
      R (d.reference_ + d.bytes) d'.reference_ := by
  have hcap := capacity_add hf hg
  -- behind the container, every reference moves by the same whole pages
  have hmoved : ∀ (j : ℕ) d, k < j → L[j]? = some d →
      l.nbrOfPages os * os.page_size ≤ d.reference_ + req * os.page_size ∧
      (d.moved (shiftWord os (l.nbrOfPages os) req)).reference_ =
        d.reference_ + req * os.page_size - l.nbrOfPages os * os.page_size := by
    intro j d hj hd
    have h₁ := hs.end_le hl hd hj
    have h₂ := hlim d (List.mem_of_getElem? hd)
    have hle : l.nbrOfPages os * os.page_size ≤ d.reference_ + req * os.page_size := by omega
    exact ⟨hle, moved_reference hle (by omega)⟩
  intro i d d' hd hd'
  rcases Nat.lt_trichotomy i k with hlt | rfl | hgt
  · rw [getElem?_resizedList_lt hlt] at hd
    rcases Nat.lt_or_ge (i + 1) k with hlt' | hge
    · rw [getElem?_resizedList_lt hlt'] at hd'
      exact hnext i d d' hd hd'
    · obtain rfl : k = i + 1 := by omega
      rw [getElem?_resizedList_self hl] at hd'
      obtain rfl := Option.some.inj hd'
      rw [Container.resized_reference]
      exact hnext i d l hd hl
  · rw [getElem?_resizedList_self hl] at hd
    obtain rfl := Option.some.inj hd
    rw [getElem?_resizedList_gt (Nat.lt_succ_self i), Option.map_eq_some_iff] at hd'
    obtain ⟨e, he, rfl⟩ := hd'
    rw [(hmoved _ e (Nat.lt_succ_self i) he).2, Container.resized_reference]
    exact hk e he
  · rw [getElem?_resizedList_gt hgt, Option.map_eq_some_iff] at hd
    rw [getElem?_resizedList_gt (by omega), Option.map_eq_some_iff] at hd'
    obtain ⟨e, he, rfl⟩ := hd
    obtain ⟨e', he', rfl⟩ := hd'
    obtain ⟨h₁, h₂⟩ := hmoved i e hgt he
    obtain ⟨h₁', h₂'⟩ := hmoved (i + 1) e' (by omega) he'
    have := hR _ _ (l.nbrOfPages os * os.page_size) (req * os.page_size) (hnext i e e' he he')
      (by omega) h₁'
    rw [Container.moved_bytes, h₂, h₂']
    rwa [show e.reference_ + req * os.page_size - l.nbrOfPages os * os.page_size + e.bytes =
      e.reference_ + e.bytes + req * os.page_size - l.nbrOfPages os * os.page_size by omega]

theorem resizedList_first (hl : L[k]? = some l) {d : Container}
    (hd : (resizedList os L k l req sizeofT)[0]? = some d) :
    ∃ d₀, L[0]? = some d₀ ∧ d.reference_ = d₀.reference_ := by
  rcases Nat.eq_zero_or_pos k with rfl | hpos
  · rw [getElem?_resizedList_self hl] at hd
    obtain rfl := Option.some.inj hd
    exact ⟨l, hl, Container.resized_reference ..⟩
  · rw [getElem?_resizedList_lt hpos] at hd
    exact ⟨d, hd, rfl⟩

/-- If the container fills its capacity, the containers stay tiled. -/
theorem Tiled.resized (ht : Tiled a L) (hl : L[k]? = some l) (hf : l.Fits os)
    (hg : l.guestBytes os ≤ req * os.page_size + l.priorFreeBytes os)
    (hlim : ∀ l' ∈ L, l'.reference_ + req * os.page_size < 2 ^ 64)
    (hB : k + 1 < L.length → (l.resized os req sizeofT).bytes = l.capacity os req) :
    Tiled a (resizedList os L k l req sizeofT) := by
  obtain ⟨hfirst, hnext⟩ := tiled_iff.mp ht
  refine tiled_iff.mpr ⟨fun d hd => ?_, ?_⟩
  · obtain ⟨d₀, hd₀, he⟩ := resizedList_first hl hd
    rw [he]
    exact hfirst d₀ hd₀
  · refine adjacent_resizedList (R := fun x y => y = x) (fun x y p q h _ _ => by rw [h]) ht.spaced hl
      hf hg hlim hnext fun d hd => ?_
    have h₁ := hnext k l d hl hd
    have h₂ := capacity_add hf hg
    have h₃ := hB (List.getElem?_eq_some_iff.mp hd).1
    omega

end Resized

structure Exact (os : OS) (num k : ℕ) (l : Container) (req sizeofT : ℕ) : Prop where
  bytes : k + 1 < num → (l.resized os req sizeofT).bytes = l.capacity os req
  pages : (l.resized os req sizeofT).nbrOfPages os = req

/-- The byte count of a request is an `INT64`, and so is that of a table with twice the frames. -/
structure Unwrapped (os : OS) (s : State) (l : Container) (sizeofT n : ℕ) : Prop where
  bytes : n * sizeofT + l.guestBytes os < 2 ^ 63
  table : 16 * (s.ctx.pfns_num_ + l.requestedPages os sizeofT n) < 2 ^ 64

section Preserved

variable {os : OS} {G : Prop} {s t : State} {h hi k req sizeofT n : ℕ} {c : ContainerContext}
  {l : Container} {cs : List ContainerContext} {st st' new : List Frame} {L : List Container}

theorem Unwrapped.guest_le (hu : Unwrapped os s l sizeofT n) (hf : l.Fits os) :
    l.guestBytes os ≤ l.requestedPages os sizeofT n * os.page_size + l.priorFreeBytes os :=
  guestBytes_le_requested hf.reference_lt hu.bytes

theorem Unwrapped.capacity_le (hu : Unwrapped os s l sizeofT n) (hf : l.Fits os) :
    l.requestedPages os sizeofT n * os.page_size + l.priorFreeBytes os + 2 * os.page_size ≤
      2 ^ 64 := by
  have h₁ := requestedPages_le hf.reference_lt hu.bytes
  have h₂ : l.priorFreeBytes os < os.page_size := Container.priorFreeBytes_lt hf.reference_lt
  have h₃ := os.page_size_lt
  omega

theorem Unwrapped.resized_bytes (hu : Unwrapped os s l sizeofT n) (hf : l.Fits os)
    (hs : sizeofT = l.type_size_) :
    (l.resized os (l.requestedPages os sizeofT n) sizeofT).bytes =
      sizeofT * (l.capacity os (l.requestedPages os sizeofT n) / sizeofT) := by
  have hP := os.page_size_pos
  have := hu.capacity_le hf
  exact VcmallocBench.resized_bytes hs (hu.guest_le hf) (by omega)

theorem Unwrapped.resized_le (hu : Unwrapped os s l sizeofT n) (hf : l.Fits os)
    (hs : sizeofT = l.type_size_) :
    (l.resized os (l.requestedPages os sizeofT n) sizeofT).bytes ≤
      l.capacity os (l.requestedPages os sizeofT n) := by
  rw [hu.resized_bytes hf hs]
  exact Nat.mul_div_le _ _

theorem resized_fits (hf : l.Fits os)
    (hg : l.guestBytes os ≤ req * os.page_size + l.priorFreeBytes os)
    (hcap : req * os.page_size + l.priorFreeBytes os + 2 * os.page_size ≤ 2 ^ 64)
    (hB : (l.resized os req sizeofT).bytes ≤ l.capacity os req) :
    (l.resized os req sizeofT).Fits os ∧ (l.resized os req sizeofT).nbrOfPages os ≤ req := by
  have hf' : (l.resized os req sizeofT).Fits os := by
    constructor
    · rw [Container.resized_reference]
      exact hf.reference_lt
    · rw [Container.capacity] at hB
      omega
  refine ⟨hf', ?_⟩
  rw [Container.nbrOfPages_eq hf', Container.resized_reference]
  exact (span_le_of_le os.page_size_pos hB).trans (span_capacity hf hg).le

theorem Reallocated.counted (hr : Reallocated os G s t h hi k req sizeofT c l cs st L st' new)
    (hc : Counted os s (h * os.page_size) hi cs st L) (hl : L[k]? = some l)
    (hfit : (l.resized os req sizeofT).Fits os)
    (hpages : (l.resized os req sizeofT).nbrOfPages os ≤ req) :
    Counted os t (h * os.page_size) hi (cs.set k { c with
      elements_num_ := resizedElements os req (l.priorFreeBytes os) (l.guestBytes os) sizeofT }) st'
      (resizedList os L k l req sizeofT) := by
  constructor
  case core => exact hr.core
  case views => exact hr.views
  case fits =>
    intro d hd
    rw [resizedList_eq hl, List.mem_append, List.mem_cons, List.mem_map] at hd
    rcases hd with hd | rfl | ⟨e, he, rfl⟩
    · exact hc.fits d (List.mem_of_mem_take hd)
    · exact hfit
    · exact moved_fits _ (hc.fits e (List.mem_of_mem_drop he))
  case pages =>
    have h₁ := @pagesOf_resizedList os L k req sizeofT l hl hc.fits
    have h₂ := hc.pages
    rw [hr.pfns_num]
    omega

theorem Reallocated.placed (hr : Reallocated os True s t h hi k req sizeofT c l cs st L st' new)
    (hc : Counted os s (h * os.page_size) hi cs st L) (hp : Placed os s h st L) (hl : L[k]? = some l)
    (hg : l.guestBytes os ≤ req * os.page_size + l.priorFreeBytes os)
    (hexact : Exact os L.length k l req sizeofT)
    (hlim : (h + s.ctx.pfns_num_ + req) * os.page_size < 2 ^ 64)
    (hlim' : (h + t.ctx.pfns_num_) * os.page_size < 2 ^ 63) :
    Placed os t h st' (resizedList os L k l req sizeofT) := by
  have hP := os.page_size_pos
  have hf := hc.fits l (List.mem_of_getElem? hl)
  constructor
  case tiled =>
    refine hp.tiled.resized hl hf hg (fun d hd => ?_) hexact.bytes
    obtain ⟨j, hj⟩ := List.mem_iff_getElem?.mp hd
    have h₁ := hp.tiled.page_eq hc.fits hj
    have h₂ := @pagesOf_take_add_drop os L j
    have h₃ := le_ceil_mul hP d.reference_
    have h₄ : d.reference_ ⌈/⌉ os.page_size * os.page_size ≤ (h + s.ctx.pfns_num_) * os.page_size := by
      refine Nat.mul_le_mul_right _ ?_
      rw [h₁, ← hp.pages]
      omega
    rw [add_mul] at hlim
    omega
  case pages =>
    have h₁ := @pagesOf_resizedList os L k req sizeofT l hl hc.fits
    have h₂ := @pagesOf_eq os _ _ _ hl
    have h₃ := hp.pages
    rw [hexact.pages] at h₁
    rw [hr.pfns_num]
    omega
  case backed =>
    obtain ⟨m, hm, hw⟩ := hr.moved trivial
    exact ⟨hm.backed'.nodup, by rw [hw.allocated]; exact hm.backed'.held,
      by rw [hw.pageTable]; exact hm.backed'.page⟩
  case base_pos => exact hp.base_pos
  case limit => exact hlim'

end Preserved

end VcmallocBench
