import VcmallocBench.HyperContainer.BatchPages

/-! # Data in a growing batch

When each listed container grows, the second pass copies the guest bytes of each to
the first of its new frames, while the page that they are in gets the last one.
-/

namespace VcmallocBench

open Paging

section Staging

variable {os : OS} {s : State} {h R k start n buffer : ℕ} {cs : List ContainerContext}
  {st new : List Frame} {L : List Container} {l : Container} {p r : ℕ → ℕ} {f g x : Frame}
  {d : Frame → ℕ → Byte}

theorem Laid.site (hb : Laid os s h R cs st L) (hl : L[k]? = some l) :
    ∃ c, Site os True s h k (pagesOf os (L.take k)) c l cs s.ctx.containers_max_ st := by
  have hk := (List.getElem?_eq_some_iff.mp hl).1
  rw [← hb.counted.views.length_eq] at hk
  have hc := List.getElem?_eq_getElem hk
  exact ⟨_, hb.counted.site (fun _ => hb.placed) hc hl
    (Or.inr (hb.counted.views.var (List.mem_of_getElem? hc)))⟩

theorem Laid.next_page (hb : Laid os s h R cs st L) (hl : L[k]? = some l) :
    (l.reference_ + l.bytes) ⌈/⌉ os.page_size = h + pagesOf os (L.take (k + 1)) := by
  obtain ⟨c, site⟩ := hb.site hl
  rw [site.next_page trivial, pagesOf_take_succ hl, add_assoc]

/-- The page that holds the guest bytes of a container. -/
theorem Laid.guest_page (hb : Laid os s h R cs st L) (hl : L[k]? = some l)
    (hpos : 0 < l.guestBytes os) : 0 < pagesOf os (L.take (k + 1)) ∧
      (l.reference_ + l.bytes) / os.page_size = h + (pagesOf os (L.take (k + 1)) - 1) := by
  have hP := os.page_size_pos
  rw [Container.guestBytes_eq] at hpos
  obtain ⟨hq, -⟩ := page_of_gap hP hpos
  rw [hb.next_page hl] at hq
  have hle := hb.placed.tiled.spaced.le_reference hl
  have h₁ : h ≤ (l.reference_ + l.bytes) / os.page_size :=
    (Nat.le_div_iff_mul_le hP).mpr (by omega)
  omega

theorem stagedData_zero (pt : ℕ → Option Frame) (buffer : ℕ) (staged : Option Frame)
    (hz : l.guestBytes os = 0) (d : Frame → ℕ → Byte) : stagedData os pt buffer staged l d = d := by
  rw [stagedData, hz]
  rfl

/-- The guest bytes of a container are copied to the frame mapped at the page reserved for copies. -/
theorem Laid.memmove_staged (hb : Laid os s h R cs st L) (hbuf : Buffer os s.mach buffer)
    (hl : L[k]? = some l) (hpos : 0 < l.guestBytes os)
    (hg : (st.take s.ctx.pfns_num_)[pagesOf os (L.take (k + 1)) - 1]? = some g) {m : Machine}
    (hm : ∀ x ≠ buffer / os.page_size, m.pageTable x = s.mach.pageTable x)
    (hf : m.pageTable (buffer / os.page_size) = some f) :
    m.memmove os (u64 (buffer + l.lastPageOffset os))
      (sub64 (l.nextMappingAddress os) (l.guestBytes os)) (l.guestBytes os) =
        some { m with
          frameData := tailCopy os.page_size f g ((l.reference_ + l.bytes) % os.page_size)
            m.frameData } := by
  have hP := os.page_size_pos
  obtain ⟨c, site⟩ := hb.site hl
  obtain ⟨hq, hpage⟩ := hb.guest_page hl hpos
  obtain ⟨b, rfl⟩ := hbuf.dvd
  rw [Nat.mul_div_cancel_left _ hP] at hm hf
  have hmod := Nat.mod_lt (l.reference_ + l.bytes) hP
  have hlimit := hbuf.le
  have haddr := os.addressLimit_le
  have hnext := site.nextAddress_eq trivial
  have hsource : sub64 (l.nextMappingAddress os) (l.guestBytes os) = l.reference_ + l.bytes := by
    have h₁ := add_gap hP (l.reference_ + l.bytes)
    have h₂ := site.next_le trivial
    have h₃ := hb.placed.limit
    have h₄ : (l.reference_ + l.bytes) ⌈/⌉ os.page_size * os.page_size ≤
        (h + s.ctx.pfns_num_) * os.page_size :=
      Nat.mul_le_mul_right _ ((ceil_le_iff hP).mpr h₂)
    rw [Container.nextMappingAddress_eq, Container.guestBytes_eq, u64_of_lt (by omega), ← h₁]
    rw [sub64_of_le (by omega) (by omega), Nat.add_sub_cancel_right]
  have htarget : u64 (os.page_size * b + l.lastPageOffset os) =
      os.page_size * b + (l.reference_ + l.bytes) % os.page_size := by
    have hoff : l.lastPageOffset os = (l.reference_ + l.bytes) % os.page_size := by
      rw [Container.lastPageOffset, hnext]
      exact Nat.and_two_pow_sub_one_eq_mod _ _
    rw [hoff, u64_of_lt (by omega)]
  have hdiv : (os.page_size * b + (l.reference_ + l.bytes) % os.page_size) / os.page_size = b := by
    rw [Nat.mul_add_div hP, Nat.div_eq_of_lt hmod, add_zero]
  -- the page used for copies is none of the hypercontainer
  have hne : h + (pagesOf os (L.take (k + 1)) - 1) ≠ b := by
    rintro rfl
    have hlt := (List.getElem?_eq_some_iff.mp hg).1
    rw [site.length_take] at hlt
    have hle := hb.hosts.le
    have hown := hbuf.apart _ hb.hosts.own
    dsimp only at hown
    have h₁ : (h + (pagesOf os (L.take (k + 1)) - 1) + 1) * os.page_size ≤
        (h + R) * os.page_size := Nat.mul_le_mul_right _ (by omega)
    have h₂ : h * os.page_size ≤ (h + (pagesOf os (L.take (k + 1)) - 1)) * os.page_size :=
      Nat.mul_le_mul_right _ (by omega)
    rw [add_mul _ 1] at h₁
    rw [add_mul h R] at h₁
    rw [mul_comm os.page_size] at hown
    omega
  rw [hsource, htarget, Container.guestBytes_eq]
  refine Machine.memmove_gap (by rw [Nat.mul_add_mod, Nat.mod_mod])
    (by rwa [Container.guestBytes_eq] at hpos) ?_ (by rw [hdiv, hf])
  rw [hpage, hm _ hne, hb.placed.backed.page_eq hg]

theorem Laid.stagedData_eq (hb : Laid os s h R cs st L) (hbuf : Buffer os s.mach buffer)
    (hl : L[k]? = some l) (hpos : 0 < l.guestBytes os)
    (hg : (st.take s.ctx.pfns_num_)[pagesOf os (L.take (k + 1)) - 1]? = some g) :
    stagedData os s.mach.pageTable buffer (some f) l d =
      tailCopy os.page_size f g ((l.reference_ + l.bytes) % os.page_size) d :=
  (congrArg Machine.frameData (Machine.memmove_copied (hb.memmove_staged hbuf hl hpos hg
    (m := { s.mach with
      pageTable := Function.update s.mach.pageTable (buffer / os.page_size) (some f)
      frameData := d })
    (fun _ hx => Function.update_of_ne hx _ _) (Function.update_self _ _ _)))).symm

/-- A frame that is not staged keeps its contents. -/
theorem grownData_of_ne {pt : ℕ → Option Frame} {i : ℕ}
    (hz : ∀ j < i, ∀ l, L[start + j]? = some l → 0 < l.guestBytes os → ∀ staged,
      stagedData os pt buffer
        new[sumTo (fun j => r j - p j) n - sumTo (fun j => r j - p j) (j + 1)]? l staged x = staged x) :
    grownData os pt buffer start n p r new L d i x = d x := by
  induction i with
  | zero => rfl
  | succ i ih =>
    have ih := ih fun j hj => hz j (Nat.lt_succ_of_lt hj)
    rw [grownData]
    split
    · cases hl : L[start + i]? with
      | none => exact ih
      | some l =>
        rw [Option.elim_some]
        rcases Nat.eq_zero_or_pos (l.guestBytes os) with h₀ | hpos
        · rw [stagedData_zero _ _ _ h₀, ih]
        · rw [hz i (Nat.lt_succ_self i) l hl hpos, ih]
    · exact ih

end Staging

section Growth

variable {os : OS} {s : State} {h R sizeofT start n buffer i j : ℕ} {cs : List ContainerContext}
  {st new : List Frame} {L : List Container} {l : Container} {array : List ℕ} {p r : ℕ → ℕ}
  {x : Frame} {d : Frame → ℕ → Byte}

/-- Where the staged frame of a container lies among the new ones. -/
def stagedIndex (n : ℕ) (p r : ℕ → ℕ) (j : ℕ) : ℕ :=
  sumTo (fun j => r j - p j) n - sumTo (fun j => r j - p j) (j + 1)

theorem stagedIndex_le (hj : j < n) :
    stagedIndex n p r j + (r j - p j) ≤ sumTo (fun j => r j - p j) n := by
  have h₁ := sumTo_le (fun j => r j - p j) hj
  have h₂ := sumTo_succ (fun j => r j - p j) j
  rw [stagedIndex]
  omega

/-- The new frames of an earlier container lie behind those of a later one. -/
theorem stagedIndex_add_le (hij : i < j) (hj : j < n) :
    stagedIndex n p r j + (r j - p j) ≤ stagedIndex n p r i := by
  have h₁ := sumTo_le (fun j => r j - p j) hj
  have h₂ := sumTo_succ (fun j => r j - p j) j
  have h₃ := sumTo_mono (fun j => r j - p j) (show i + 1 ≤ j from hij)
  rw [stagedIndex, stagedIndex]
  omega

section Batch

variable (hb : Laid os s h R cs st L) (hbuf : Buffer os s.mach buffer)
  (hlist : start + n ≤ L.length) (hgrow : ∀ j < n, p j < r j)
  (hlen : new.length = sumTo (fun j => r j - p j) n)

include hb in
theorem Laid.guest_frame {k : ℕ} (hl : L[k]? = some l) (hpos : 0 < l.guestBytes os) :
    ∃ g, (st.take s.ctx.pfns_num_)[pagesOf os (L.take (k + 1)) - 1]? = some g := by
  obtain ⟨hq, -⟩ := hb.guest_page hl hpos
  obtain ⟨c, site⟩ := hb.site hl
  refine site.frame_exists ?_
  have h₁ := site.bound
  rw [pagesOf_take_succ hl] at hq ⊢
  omega

include hb hbuf in
/-- The guest bytes of a container are mapped, so that they can be copied. -/
theorem Laid.copiesUp {k : ℕ} (hl : L[k]? = some l) :
    CopiesUp os s.mach.pageTable buffer l := by
  intro m hm hsome
  rcases Nat.eq_zero_or_pos (l.guestBytes os) with hz | hpos
  · rw [hz, Machine.memmove_zero]
    rfl
  · obtain ⟨g, hg⟩ := hb.guest_frame hl hpos
    obtain ⟨f, hf⟩ := Option.isSome_iff_exists.mp hsome
    rw [hb.memmove_staged hbuf hl hpos hg hm hf]
    rfl

include hb hbuf hgrow hlen

/-- A frame that is staged for no container keeps its contents. -/
theorem Laid.grownData_of_ne (hi : i ≤ n) (hx : ∀ j < i, new[stagedIndex n p r j]? ≠ some x) :
    grownData os s.mach.pageTable buffer start n p r new L d i x = d x := by
  refine VcmallocBench.grownData_of_ne fun j hj l hl hpos staged => ?_
  have hr := hgrow j (hj.trans_le hi)
  have hlt := stagedIndex_le (p := p) (r := r) (hj.trans_le hi)
  obtain ⟨g, hg⟩ := hb.guest_frame hl hpos
  have hf := List.getElem?_eq_getElem (l := new) (i := stagedIndex n p r j) (by omega)
  have hne := hx j hj
  rw [← stagedIndex, hf, hb.stagedData_eq hbuf hl hpos hg]
  rw [hf] at hne
  funext o
  exact if_neg fun hc => hne (congrArg some hc.1.symm)

include hlist

/-- The staged frame of a container has its guest bytes. -/
theorem Laid.grownData_staged (hnew : new.Nodup) (hfresh : ∀ f ∈ new, f ∉ st.take s.ctx.pfns_num_)
    {g : Frame} (hi : i ≤ n) (hj : j < i) (hl : L[start + j]? = some l) (hpos : 0 < l.guestBytes os)
    (hg : (st.take s.ctx.pfns_num_)[pagesOf os (L.take (start + j + 1)) - 1]? = some g)
    (hx : new[stagedIndex n p r j]? = some x) (o : ℕ) :
    grownData os s.mach.pageTable buffer start n p r new L d i x o =
      if (l.reference_ + l.bytes) % os.page_size ≤ o ∧ o < os.page_size then d g o else d x o := by
  have hinj : ∀ k < n, k ≠ j → new[stagedIndex n p r k]? ≠ some x := by
    intro k hk hne he
    have hlt := stagedIndex_le (p := p) (r := r) hk
    have hlt' := stagedIndex_le (p := p) (r := r) (hj.trans_le hi)
    have hr := hgrow j (hj.trans_le hi)
    have hsame := (List.getElem?_inj (by omega) hnew).mp (hx.trans he.symm)
    rcases Nat.lt_or_gt_of_ne hne with hkj | hkj
    · have := stagedIndex_add_le (p := p) (r := r) hkj (hj.trans_le hi)
      omega
    · have := stagedIndex_add_le (p := p) (r := r) hkj hk
      have := hgrow k hk
      omega
  induction i with
  | zero => exact absurd hj (Nat.not_lt_zero j)
  | succ i ih =>
    rw [grownData, if_pos (hgrow i (by omega))]
    rcases Nat.lt_succ_iff_lt_or_eq.mp hj with hlt | rfl
    · -- another frame is staged
      rw [List.getElem?_eq_getElem (show start + i < L.length by omega), Option.elim_some]
      rw [← ih (by omega) hlt]
      rcases Nat.eq_zero_or_pos (L[start + i].guestBytes os) with h₀ | hpos'
      · rw [stagedData_zero _ _ _ h₀]
      · have hget := List.getElem?_eq_getElem (show start + i < L.length by omega)
        have hlt' := stagedIndex_le (p := p) (r := r) (show i < n by omega)
        have hr := hgrow i (by omega)
        obtain ⟨g', hg'⟩ := hb.guest_frame hget hpos'
        have hf := List.getElem?_eq_getElem (l := new) (i := stagedIndex n p r i) (by omega)
        have hne := hinj i (by omega) hlt.ne'
        rw [← stagedIndex, hf, hb.stagedData_eq hbuf hget hpos' hg']
        rw [hf] at hne
        exact if_neg fun hc => hne (congrArg some hc.1.symm)
    · rw [hl, Option.elim_some, ← stagedIndex, hx, hb.stagedData_eq hbuf hl hpos hg, tailCopy,
        hb.grownData_of_ne hbuf hgrow hlen (by omega) fun k hk => hinj k (by omega) hk.ne,
        hb.grownData_of_ne hbuf hgrow hlen (by omega) fun k hk he =>
          hfresh g (List.mem_of_getElem? he) (List.mem_of_getElem? hg)]
      by_cases hc : (l.reference_ + l.bytes) % os.page_size ≤ o ∧ o < os.page_size
      · rw [if_pos ⟨rfl, hc⟩, if_pos hc]
      · rw [if_neg fun h => hc h.2, if_neg hc]

end Batch

end Growth

section Listed

variable {os : OS} {s : State} {h R sizeofT start S N n : ℕ} {cs : List ContainerContext}
  {fs st new : List Frame} {L : List Container} {l : Container} {p r : ℕ → ℕ}

theorem lostFrames_none (hle : ∀ j < n, p j ≤ r j) : lostFrames fs S n p r = [] := by
  rw [lostFrames, pieces, List.flatMap_eq_nil_iff]
  intro j hj
  rw [Nat.sub_eq_zero_of_le (hle j (List.mem_range.mp hj)), slice_zero]

theorem spareFrames_none (hle : ∀ j < n, p j ≤ r j) : spareFrames fs new S n p r = new := by
  rw [spareFrames, lostFrames_none hle, List.take_nil, List.nil_append]

theorem keptFrames_none (hle : ∀ j < n, p j ≤ r j) (hend : S + sumTo p n ≤ N) :
    keptFrames fs S N n p r = slice fs S (N - S) := by
  have hpieces : pieces fs (fun j => S + sumTo p j) (fun j => min (p j) (r j)) n =
      pieces fs (fun j => S + sumTo p j) p n := by
    refine List.flatMap_congr fun j hj => ?_
    dsimp only
    rw [min_eq_left (hle j (List.mem_range.mp hj))]
  rw [keptFrames, hpieces, pieces_consecutive, slice_append_slice]
  congr 1
  omega

/-- Without a container that shrinks, the first pass changes nothing. -/
theorem shrunkList_none (hle : ∀ j < n, p j ≤ r j) (hf : ∀ d ∈ L, d.Fits os) :
    shrunkList os sizeofT start n p r L = L := by
  have hz : ∀ j ≤ n, sumTo (fun j => p j - r j) j = 0 := fun j hj =>
    Finset.sum_eq_zero fun k hk =>
      Nat.sub_eq_zero_of_le (hle k ((Finset.mem_range.mp hk).trans_le hj))
  refine List.ext_getElem? fun j => ?_
  rw [shrunkList, getElem?_moveFrom, firstPass, getElem?_passOver, hz n le_rfl, backWord_zero]
  cases hj : L[j]? with
  | none => split <;> rfl
  | some d =>
    have hd := (hf d (List.mem_of_getElem? hj)).reference_lt
    rw [Option.map_some]
    split
    · rw [if_neg (by omega), Option.map_some, Container.moved_zero hd]
    · split
      · rename_i h₁ h₂
        rw [Container.cut, if_neg (hle _ (by omega)).not_gt, hz _ (by omega), backWord_zero,
          Container.moved_zero hd]
      · rfl

theorem shrunkData_none (pageTable : ℕ → Option Frame) (d : Frame → ℕ → Byte) {i : ℕ}
    (hle : ∀ j < i, p j ≤ r j) : shrunkData os pageTable start p r L d i = d := by
  induction i with
  | zero => rfl
  | succ i ih =>
    rw [shrunkData, if_neg (hle i (Nat.lt_succ_self i)).not_gt,
      ih fun j hj => hle j (Nat.lt_succ_of_lt hj)]

theorem Laid.keptTable_none (hb : Laid os s h R cs st L) (hle : ∀ j < n, p j ≤ r j)
    (hend : S + sumTo p n ≤ s.ctx.pfns_num_) (hl : l.mappingAddress os = (h + S) * os.page_size) :
    keptTable os s st S l n p r = s.mach.pageTable := by
  have hlen : (st.take s.ctx.pfns_num_).length = s.ctx.pfns_num_ := by
    rw [List.length_take, Nat.min_eq_left hb.counted.core.num]
  have hslice : (slice (st.take s.ctx.pfns_num_) S (s.ctx.pfns_num_ - S)).length =
      s.ctx.pfns_num_ - S := length_slice (by omega)
  funext x
  rw [keptTable, surplusFrames, lostFrames_none hle, List.drop_nil, filter_not_mem_nil,
    keptFrames_none hle hend, hl, Nat.mul_div_cancel _ os.page_size_pos, remapPages, hslice]
  split
  · rename_i hx
    obtain ⟨i, rfl⟩ := Nat.exists_eq_add_of_le (show h ≤ x by omega)
    rw [getElem?_slice, if_pos (by omega), hb.placed.backed.page i (by omega)]
    congr 1
    omega
  · rename_i hx
    rw [unmapPages, if_neg hx]

end Listed

/-- A batch over the containers of a layout, each of which grows. -/
structure Enlarges (os : OS) (s t : State) (h R : ℕ) (refs : List PtrLoc) (cs : List ContainerContext)
    (st : List Frame) (L : List Container) (sizeofT start S : ℕ) (l : Container) (n : ℕ) (p r : ℕ → ℕ)
    (new : List Frame) : Prop where
  laid : Laid os s h R cs st L
  batched : Batched os s t refs st L sizeofT start S l n p r new
  entry : L[start]? = some l
  listed : start + n ≤ L.length
  position : ∀ j ≤ n, pagesOf os (L.take (start + j)) = S + sumTo p j
  counts : ∀ j < n, ∀ d, L[start + j]? = some d →
    d.elements_num_ ≤ (d.resized os (r j) sizeofT).elements_num_
  le : ∀ j, p j ≤ r j
  grows : ∀ j < n, p j < r j

namespace Enlarges

variable {os : OS} {s t : State} {h R sizeofT start S n i j : ℕ} {refs : List PtrLoc}
  {cs : List ContainerContext} {st new : List Frame} {L : List Container} {l : Container} {p r : ℕ → ℕ}

section Frames

variable (he : Enlarges os s t h R refs cs st L sizeofT start S l n p r new)

include he

theorem end_le : S + sumTo p n ≤ s.ctx.pfns_num_ := by
  have h₁ := he.position n le_rfl
  have h₂ := @pagesOf_take_add_drop os L (start + n)
  have h₃ := he.laid.placed.pages
  omega

theorem length_take : (st.take s.ctx.pfns_num_).length = s.ctx.pfns_num_ := by
  rw [List.length_take, Nat.min_eq_left he.laid.counted.core.num]

theorem new_length : new.length = sumTo (fun j => r j - p j) n := by
  have hz : sumTo (fun j => p j - r j) n = 0 :=
    Finset.sum_eq_zero fun j _ => Nat.sub_eq_zero_of_le (he.le j)
  rw [he.batched.new_length, hz, Nat.sub_zero]

theorem mappingAddress_eq : l.mappingAddress os = (h + S) * os.page_size := by
  obtain ⟨c, site⟩ := he.laid.site he.entry
  have hpos := he.position 0 (Nat.zero_le n)
  rw [sumTo_zero, add_zero, add_zero] at hpos
  rw [(site.mapping_page trivial).1, hpos]

theorem length_table : ((st.take s.ctx.pfns_num_).take S ++
    batchFrames (st.take s.ctx.pfns_num_) new S s.ctx.pfns_num_ n p r).length =
      s.ctx.pfns_num_ + sumTo (fun j => r j - p j) n := by
  have hend := he.end_le
  have hlen := he.length_take
  have hsum := sumTo_add_sub (i := n) fun j _ => he.le j
  have hframes := length_batchFrames (r := r) (hend.trans hlen.ge) hlen he.batched.new_length
  rw [List.length_append, List.length_take, Nat.min_eq_left (by omega)]
  omega

/-- The frames of the containers move by the pages added before them. -/
theorem table_own (hj : j ≤ n) (h₁ : S + sumTo p j ≤ i) (h₂ : j < n → i < S + sumTo p (j + 1))
    (hi : i < s.ctx.pfns_num_) :
    ((st.take s.ctx.pfns_num_).take S ++
      batchFrames (st.take s.ctx.pfns_num_) new S s.ctx.pfns_num_ n p r)[i +
        sumTo (fun j => r j - p j) j]? = (st.take s.ctx.pfns_num_)[i]? := by
  have hend := he.end_le
  have hlen := he.length_take
  have hsum := sumTo_add_sub (i := j) fun j _ => he.le j
  obtain ⟨m, rfl⟩ := Nat.exists_eq_add_of_le h₁
  rcases Nat.lt_or_eq_of_le hj with hlt | rfl
  · have hm := h₂ hlt
    have hle := he.le j
    rw [sumTo_succ] at hm
    have hget := getElem?_batchFrames (N := s.ctx.pfns_num_) (m := m) (hend.trans hlen.ge) (by omega)
      he.batched.new_length hlt (by omega)
    rw [if_pos (by omega)] at hget
    rw [← hget]
    congr 1
    omega
  · have hget := getElem?_batchFrames_ge (N := s.ctx.pfns_num_) (r := r) (m := m) (hend.trans hlen.ge)
      (by omega) he.batched.new_length (by omega)
    rw [← hget]
    congr 1
    omega

theorem table_low (hi : i < S) : ((st.take s.ctx.pfns_num_).take S ++
    batchFrames (st.take s.ctx.pfns_num_) new S s.ctx.pfns_num_ n p r)[i]? =
      (st.take s.ctx.pfns_num_)[i]? := by
  have hend := he.end_le
  have hlen := he.length_take
  rw [List.getElem?_append_left (by rw [List.length_take]; omega), List.getElem?_take_of_lt hi]

/-- The last frame of a container is the last one of those that it gets. -/
theorem table_last (hj : j < n) (hpos : 0 < S + sumTo p (j + 1)) :
    ((st.take s.ctx.pfns_num_).take S ++
      batchFrames (st.take s.ctx.pfns_num_) new S s.ctx.pfns_num_ n p r)[S + sumTo p (j + 1) - 1 +
        sumTo (fun j => r j - p j) (j + 1)]? = new[stagedIndex n p r j + (r j - p j - 1)]? := by
  have hend := he.end_le
  have hlen := he.length_take
  have hgrow := he.grows j hj
  have hsum := sumTo_add_sub (i := j + 1) fun j _ => he.le j
  have hr := sumTo_succ r j
  have hget := getElem?_batchFrames (N := s.ctx.pfns_num_) (m := r j - 1) (hend.trans hlen.ge)
    (by omega) he.batched.new_length hj (by omega)
  rw [if_neg (by omega), spareFrames_none fun j _ => he.le j, ← stagedIndex,
    min_eq_left (he.le j)] at hget
  rw [show r j - p j - 1 = r j - 1 - p j by omega, ← hget]
  congr 1
  omega

/-- The frames go to the reservation, or the only new one goes to a page that is gone again. -/
theorem fits : s.ctx.pfns_num_ + sumTo (fun j => r j - p j) n ≤ R ∨
    S = R ∧ s.ctx.pfns_num_ = S ∧ sumTo (fun j => r j - p j) n = 1 ∧
      t.mach.pageTable (h + S) = none := by
  have hend := he.end_le
  have hlen := he.length_take
  have hle := he.laid.hosts.le
  have htable := he.length_table
  rw [List.length_append, List.length_take, Nat.min_eq_left (by omega)] at htable
  by_cases hne : batchFrames (st.take s.ctx.pfns_num_) new S s.ctx.pfns_num_ n p r = []
  · rw [hne, List.length_nil] at htable
    omega
  · have hfits := he.batched.fits he.laid.hosts (by omega) he.mappingAddress_eq hne
    rcases hfits with hfit | ⟨hS, hone, hnone⟩
    · left
      omega
    · by_cases hz : sumTo (fun j => r j - p j) n = 0
      · left
        omega
      · right
        exact ⟨hS, by omega, by omega, hnone⟩

theorem page (hR : i < R) (hi : i < s.ctx.pfns_num_ + sumTo (fun j => r j - p j) n) :
    t.mach.pageTable (h + i) = ((st.take s.ctx.pfns_num_).take S ++
      batchFrames (st.take s.ctx.pfns_num_) new S s.ctx.pfns_num_ n p r)[i]? :=
  he.batched.page he.laid he.end_le he.mappingAddress_eq hR (by rwa [he.length_table])

/-- The guest bytes of each container were copied to the first of its new frames. -/
theorem data : ∃ buffer d, (0 < n → Buffer os s.mach buffer) ∧
    (∀ f ∉ new, d f = s.mach.frameData f) ∧ (∀ f ∈ new, ∃ k, d f = os.contents k f) ∧
    t.mach.frameData = grownData os s.mach.pageTable buffer start n p r new L d n := by
  have hmin : (fun j => min (p j) (r j)) = p := funext fun j => min_eq_left (he.le j)
  obtain ⟨buffer, d, hbuf, hd, hcontents, hdata⟩ := he.batched.data
  rw [he.laid.keptTable_none (fun j _ => he.le j) he.end_le he.mappingAddress_eq, hmin,
    spareFrames_none fun j _ => he.le j, shrunkList_none (fun j _ => he.le j) he.laid.counted.fits]
    at hdata
  refine ⟨buffer, d, fun hn => hbuf ?_, fun f hf => ?_, hcontents, hdata⟩
  · have h₁ := sumTo_le (fun j => r j - p j) hn
    have h₂ := he.grows 0 hn
    omega
  · rw [hd f hf, shrunkData_none _ _ fun j _ => he.le j]

end Frames

section Data

variable {f g : Frame} {d : Container} {a m o w : ℕ}
  (he : Enlarges os s t h R refs cs st L sizeofT start S l n p r new)

include he

theorem new_disjoint (hf : f ∈ new) : f ∉ st.take s.ctx.pfns_num_ := fun hold =>
  he.batched.new_fresh f hf (he.laid.placed.backed.held f hold)

/-- The frames of the containers keep their contents. -/
theorem frameData_of_mem (hf : f ∈ st.take s.ctx.pfns_num_) :
    t.mach.frameData f = s.mach.frameData f := by
  have hnew : f ∉ new := fun h => he.new_disjoint h hf
  obtain ⟨buffer, d, hbuf, hd, -, hdata⟩ := he.data
  rw [hdata, ← hd f hnew]
  rcases Nat.eq_zero_or_pos n with rfl | hn
  · rfl
  · exact he.laid.grownData_of_ne (hbuf hn) he.grows he.new_length le_rfl fun j _ hj =>
      hnew (List.mem_of_getElem? hj)

/-- The first new frame of a container has its guest bytes. -/
theorem frameData_staged (hj : j < n) (hd : L[start + j]? = some d) (hpos : 0 < d.guestBytes os)
    (hg : (st.take s.ctx.pfns_num_)[S + sumTo p (j + 1) - 1]? = some g)
    (hf : new[stagedIndex n p r j]? = some f) (h₁ : (d.reference_ + d.bytes) % os.page_size ≤ o)
    (h₂ : o < os.page_size) : t.mach.frameData f o = s.mach.frameData g o := by
  have hnew : g ∉ new := fun h => he.new_disjoint h (List.mem_of_getElem? hg)
  obtain ⟨buffer, c, hbuf, hc, -, hdata⟩ := he.data
  rw [hdata, ← hc g hnew, he.laid.grownData_staged (hbuf (by omega)) he.listed he.grows he.new_length
    he.batched.new_nodup (fun f hf => he.new_disjoint hf) le_rfl hj hd hpos
    (by rwa [add_assoc, he.position (j + 1) hj]) hf, if_pos ⟨h₁, h₂⟩]

/-- The other new frames are as they were delivered. -/
theorem frameData_delivered (hj : j < n) (hm : 0 < m) (hlt : m < r j - p j)
    (hf : new[stagedIndex n p r j + m]? = some f) :
    ∃ k, t.mach.frameData f = os.contents k f := by
  obtain ⟨buffer, d, hbuf, -, hcontents, hdata⟩ := he.data
  obtain ⟨k, hk⟩ := hcontents f (List.mem_of_getElem? hf)
  refine ⟨k, ?_⟩
  have hlen := he.new_length
  have hle := stagedIndex_le (p := p) (r := r) hj
  rw [hdata, ← hk]
  refine he.laid.grownData_of_ne (hbuf (by omega)) he.grows hlen le_rfl fun i hi hi' => ?_
  have hlt' := (List.getElem?_eq_some_iff.mp hf).1
  have hsame := (List.getElem?_inj hlt' he.batched.new_nodup).mp (hf.trans hi'.symm)
  rcases Nat.lt_trichotomy i j with hij | rfl | hij
  · have := stagedIndex_add_le (p := p) (r := r) hij hj
    omega
  · omega
  · have := stagedIndex_add_le (p := p) (r := r) hij hi
    have := he.grows i hi
    omega

/-- A byte of a page whose frame has moved along is found there. -/
theorem read_own (ha : a / os.page_size = h + i) (hi : i < s.ctx.pfns_num_)
    (hpage : t.mach.pageTable (h + (i + w)) = (st.take s.ctx.pfns_num_)[i]?) :
    t.mach.read os (a + w * os.page_size) = s.mach.read os a := by
  have hget := List.getElem?_eq_getElem (l := st.take s.ctx.pfns_num_) (i := i)
    (by rw [he.length_take]; exact hi)
  rw [he.laid.placed.backed.read_eq ha hget, Machine.read,
    Nat.add_mul_div_right _ _ os.page_size_pos, ha, add_assoc, hpage, hget, Option.map_some,
    Nat.add_mul_mod_self_right, he.frameData_of_mem (List.getElem_mem _)]

/-- A byte behind the end of a container in the same page is one of its guest bytes. -/
theorem guest_address (hj : j < n) (hd : L[start + j]? = some d) (hda : d.reference_ + d.bytes ≤ a)
    (ha : a / os.page_size = h + i) (hi : i < S + sumTo p (j + 1)) :
    0 < d.guestBytes os ∧ i + 1 = S + sumTo p (j + 1) ∧
      (d.reference_ + d.bytes) % os.page_size ≤ a % os.page_size := by
  have hP := os.page_size_pos
  have hnext := he.laid.next_page hd
  rw [add_assoc, he.position (j + 1) hj] at hnext
  have hceil := ceil_le_div_succ hP hda
  have hgap := add_gap hP (d.reference_ + d.bytes)
  have hpage : (d.reference_ + d.bytes) ⌈/⌉ os.page_size = a / os.page_size + 1 := by omega
  have hadd := Nat.div_add_mod a os.page_size
  have hmod := Nat.mod_lt a hP
  rw [hpage, add_mul, one_mul, mul_comm] at hgap
  have hpos : 0 < gap os.page_size (d.reference_ + d.bytes) := by omega
  obtain ⟨hq, -⟩ := page_of_gap hP hpos
  have hadd' := Nat.div_add_mod (d.reference_ + d.bytes) os.page_size
  rw [show (d.reference_ + d.bytes) / os.page_size = a / os.page_size by omega] at hadd'
  rw [Container.guestBytes_eq]
  exact ⟨hpos, by omega, by omega⟩

theorem pageTable_own (hj : j ≤ n) (h₁ : S + sumTo p j ≤ i)
    (h₂ : j < n → i < S + sumTo p (j + 1)) (hi : i < s.ctx.pfns_num_) :
    t.mach.pageTable (h + (i + sumTo (fun j => r j - p j) j)) = (st.take s.ctx.pfns_num_)[i]? := by
  have hmono := sumTo_mono (fun j => r j - p j) hj
  rw [he.page (he.fits.elim (fun h => by omega) fun h => by omega) (by omega),
    he.table_own hj h₁ h₂ hi]

theorem pageTable_low (hi : i < S) : t.mach.pageTable (h + i) = (st.take s.ctx.pfns_num_)[i]? := by
  have hend := he.end_le
  have hle := he.laid.hosts.le
  rw [he.page (by omega) (by omega), he.table_low hi]

/-- The page of the guest bytes of a container has the last of its new frames. -/
theorem pageTable_last (hj : j < n) (hpos : 0 < S + sumTo p (j + 1))
    (hR : s.ctx.pfns_num_ + sumTo (fun j => r j - p j) n ≤ R) :
    t.mach.pageTable (h + (S + sumTo p (j + 1) - 1 + sumTo (fun j => r j - p j) (j + 1))) =
      new[stagedIndex n p r j + (r j - p j - 1)]? := by
  have hend := he.end_le
  have hmono := sumTo_mono (fun j => r j - p j) (show j + 1 ≤ n from hj)
  have hmono' := sumTo_mono p (show j + 1 ≤ n from hj)
  rw [he.page (by omega) (by omega), he.table_last hj hpos]

/-- A guest byte of a container that grows by one page is found in its new frame. -/
theorem read_guest (hj : j < n) (hd : L[start + j]? = some d) (hda : d.reference_ + d.bytes ≤ a)
    (ha : a / os.page_size = h + i) (hi : i < S + sumTo p (j + 1)) (hone : r j = p j + 1)
    (hR : s.ctx.pfns_num_ + sumTo (fun j => r j - p j) n ≤ R) :
    t.mach.read os (a + sumTo (fun j => r j - p j) (j + 1) * os.page_size) = s.mach.read os a := by
  have hP := os.page_size_pos
  obtain ⟨hpos, hlast, hoff⟩ := he.guest_address hj hd hda ha hi
  obtain ⟨g, hg⟩ := he.laid.guest_frame hd hpos
  rw [add_assoc, he.position (j + 1) hj, show S + sumTo p (j + 1) - 1 = i by omega] at hg
  have hlt := stagedIndex_le (p := p) (r := r) hj
  have hf := List.getElem?_eq_getElem (l := new) (i := stagedIndex n p r j)
    (by rw [he.new_length]; omega)
  have hpage := he.pageTable_last hj (by omega) hR
  rw [show r j - p j - 1 = 0 by omega, add_zero, hf,
    show S + sumTo p (j + 1) - 1 = i by omega] at hpage
  rw [he.laid.placed.backed.read_eq ha hg, Machine.read, Nat.add_mul_div_right _ _ hP, ha, add_assoc,
    hpage, Option.map_some, Nat.add_mul_mod_self_right]
  refine congrArg some (he.frameData_staged hj hd hpos ?_ hf hoff (Nat.mod_lt a hP))
  rwa [show S + sumTo p (j + 1) - 1 = i by omega]

/-- A guest byte of a container that grows by more pages, or beyond the reservation, is lost. -/
theorem read_lost (hj : j < n) (hd : L[start + j]? = some d) (hda : d.reference_ + d.bytes ≤ a)
    (ha : a / os.page_size = h + i) (hi : i < S + sumTo p (j + 1))
    (hlost : ¬ (r j = p j + 1 ∧ s.ctx.pfns_num_ + sumTo (fun j => r j - p j) n ≤ R)) :
    t.mach.read os (a + sumTo (fun j => r j - p j) (j + 1) * os.page_size) = none ∨
      ∃ k f o, t.mach.read os (a + sumTo (fun j => r j - p j) (j + 1) * os.page_size) =
        some (os.contents k f o) := by
  have hP := os.page_size_pos
  obtain ⟨hpos, hlast, hoff⟩ := he.guest_address hj hd hda ha hi
  have hgrow := he.grows j hj
  have hsum := sumTo_le (fun j => r j - p j) hj
  rw [Machine.read, Nat.add_mul_div_right _ _ hP, ha, add_assoc]
  rcases he.fits with hR | ⟨hS, hnum, hT, hnone⟩
  · right
    have hlt := stagedIndex_le (p := p) (r := r) hj
    obtain ⟨f, hf⟩ : ∃ f, new[stagedIndex n p r j + (r j - p j - 1)]? = some f :=
      ⟨_, List.getElem?_eq_getElem (by rw [he.new_length]; omega)⟩
    have hpage := he.pageTable_last hj (by omega) hR
    rw [hf, show S + sumTo p (j + 1) - 1 = i by omega] at hpage
    obtain ⟨k, hk⟩ := he.frameData_delivered hj (m := r j - p j - 1) (by omega) (by omega) hf
    refine ⟨k, f, a % os.page_size, ?_⟩
    rw [hpage, Option.map_some, hk, Nat.add_mul_mod_self_right]
  · left
    have hend := he.end_le
    have hmono := sumTo_mono (fun j => r j - p j) (show j + 1 ≤ n from hj)
    have hsucc := sumTo_succ (fun j => r j - p j) j
    have hmono' := sumTo_mono p (show j + 1 ≤ n from hj)
    rw [show i + sumTo (fun j => r j - p j) (j + 1) = S by omega, hnone, Option.map_none]

end Data

end Enlarges

end VcmallocBench
