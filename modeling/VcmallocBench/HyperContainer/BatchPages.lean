import VcmallocBench.HyperContainer.OneByOne

/-! # Pages of a batch

The pages of a hypercontainer after a batch. Each container has the frames that it
keeps and then spare ones, mapped in the order of the new frame table.
-/

namespace VcmallocBench

open Paging

section Frames

variable {fs new : List Frame} {S N n i m : ℕ} {p r : ℕ → ℕ}

theorem length_spareFrames (h : S + sumTo p n ≤ fs.length)
    (hnew : new.length = sumTo (fun j => r j - p j) n - sumTo (fun j => p j - r j) n) :
    (spareFrames fs new S n p r).length = sumTo (fun j => r j - p j) n := by
  rw [spareFrames, List.length_append, List.length_take, length_lostFrames h, hnew]
  omega

/-- The pieces that a batch takes lie in the frame table and in the spare frames. -/
theorem batchFrames_bounds (h : S + sumTo p n ≤ fs.length)
    (hnew : new.length = sumTo (fun j => r j - p j) n - sumTo (fun j => p j - r j) n) :
    (∀ j < n, S + sumTo p j + min (p j) (r j) ≤ fs.length) ∧
      ∀ j < n, sumTo (fun j => r j - p j) n - sumTo (fun j => r j - p j) (j + 1) + (r j - p j) ≤
        (spareFrames fs new S n p r).length := by
  have hspare := length_spareFrames (r := r) h hnew
  refine ⟨fun j hj => ?_, fun j hj => ?_⟩
  · have := listed_le h hj
    omega
  · have h₁ := sumTo_le (fun j => r j - p j) hj
    have h₂ := sumTo_succ (fun j => r j - p j) j
    omega

/-- The frames of a listed container after a batch: those that it keeps, and spare ones. -/
theorem getElem?_batchFrames (h : S + sumTo p n ≤ fs.length) (hS : S ≤ fs.length)
    (hnew : new.length = sumTo (fun j => r j - p j) n - sumTo (fun j => p j - r j) n) (hi : i < n)
    (hm : m < r i) :
    (fs.take S ++ batchFrames fs new S N n p r)[S + (sumTo r i + m)]? =
      if m < min (p i) (r i) then fs[S + sumTo p i + m]? else
        (spareFrames fs new S n p r)[sumTo (fun j => r j - p j) n - sumTo (fun j => r j - p j) (i + 1) +
          (m - min (p i) (r i))]? := by
  obtain ⟨hlen, hlen'⟩ := batchFrames_bounds (r := r) h hnew
  have hsum : (fun j => min (p j) (r j) + (r j - p j)) = r := funext fun j => by omega
  have hle := sumTo_le r hi
  have hget := getElem?_joined hlen hlen' hi (m := m) (by omega)
  have hjoined := length_joined hlen hlen'
  rw [hsum] at hget hjoined
  rw [List.getElem?_append_right (by rw [List.length_take]; omega), List.length_take,
    Nat.min_eq_left hS, Nat.add_sub_cancel_left, batchFrames,
    List.getElem?_append_left (by omega), hget]

/-- The frames behind those of the listed containers. -/
theorem getElem?_batchFrames_ge (h : S + sumTo p n ≤ fs.length) (hS : S ≤ fs.length)
    (hnew : new.length = sumTo (fun j => r j - p j) n - sumTo (fun j => p j - r j) n)
    (hm : S + sumTo p n + m < N) :
    (fs.take S ++ batchFrames fs new S N n p r)[S + (sumTo r n + m)]? = fs[S + sumTo p n + m]? := by
  obtain ⟨hlen, hlen'⟩ := batchFrames_bounds (r := r) h hnew
  have hsum : (fun j => min (p j) (r j) + (r j - p j)) = r := funext fun j => by omega
  have hjoined := length_joined hlen hlen'
  rw [hsum] at hjoined
  rw [List.getElem?_append_right (by rw [List.length_take]; omega), List.length_take,
    Nat.min_eq_left hS, Nat.add_sub_cancel_left, batchFrames,
    List.getElem?_append_right (by omega), hjoined, Nat.add_sub_cancel_left, getElem?_slice,
    if_pos (by omega)]

theorem length_batchFrames (h : S + sumTo p n ≤ fs.length) (hN : fs.length = N)
    (hnew : new.length = sumTo (fun j => r j - p j) n - sumTo (fun j => p j - r j) n) :
    (batchFrames fs new S N n p r).length + sumTo p n + S = N + sumTo r n := by
  obtain ⟨hlen, hlen'⟩ := batchFrames_bounds (r := r) h hnew
  have hsum : (fun j => min (p j) (r j) + (r j - p j)) = r := funext fun j => by omega
  have hjoined := length_joined hlen hlen'
  rw [hsum] at hjoined
  rw [batchFrames, List.length_append, hjoined, length_slice (by omega)]
  omega

end Frames

section Pages

variable {os : OS} {s t : State} {h R sizeofT start S n i : ℕ} {refs : List PtrLoc}
  {cs : List ContainerContext} {st new : List Frame} {L : List Container} {l : Container} {p r : ℕ → ℕ}

/-- The frames of a batch go to the reservation of the hypercontainer, or the only one goes to the page
behind it, which was reserved for copies. -/
theorem Batched.fits (hbat : Batched os s t refs st L sizeofT start S l n p r new)
    (hh : s.mach.Hosts os h R s.ctx.pfns_num_) (hS : S ≤ s.ctx.pfns_num_)
    (hl : l.mappingAddress os = (h + S) * os.page_size)
    (hne : batchFrames (st.take s.ctx.pfns_num_) new S s.ctx.pfns_num_ n p r ≠ []) :
    S + (batchFrames (st.take s.ctx.pfns_num_) new S s.ctx.pfns_num_ n p r).length ≤ R ∨
      S = R ∧ (batchFrames (st.take s.ctx.pfns_num_) new S s.ctx.pfns_num_ n p r).length = 1 ∧
        t.mach.pageTable (h + S) = none := by
  have hP := os.page_size_pos
  have hpos := List.length_pos_iff.mpr hne
  have hle := hh.le
  have hregion := hbat.region hne
  generalize (batchFrames (st.take s.ctx.pfns_num_) new S s.ctx.pfns_num_ n p r).length = k at *
  rw [hl] at hregion
  have hpage : os.page_size ≤ k * os.page_size := Nat.le_mul_of_pos_left _ hpos
  rcases hregion with ⟨g, hg, hbase, hend⟩ | ⟨hone, hbuf, hnone⟩
  · rw [add_mul] at hbase hend
    rcases hh.below g hg with rfl | hbelow
    · left
      dsimp only at hend
      have : (S + k) * os.page_size ≤ R * os.page_size := by
        rw [add_mul]
        omega
      exact Nat.le_of_mul_le_mul_right this hP
    · omega
  · right
    have hown := hbuf.apart _ hh.own
    dsimp only at hown
    rw [add_mul] at hown
    have hR : R * os.page_size ≤ S * os.page_size := by omega
    have hR := Nat.le_of_mul_le_mul_right hR hP
    rw [Nat.mul_div_cancel _ hP] at hnone
    exact ⟨by omega, hone, hnone⟩

/-- Each page of the reservation is mapped to its frame in the new table. -/
theorem Batched.page (hbat : Batched os s t refs st L sizeofT start S l n p r new)
    (hb : Laid os s h R cs st L) (hle : S + sumTo p n ≤ s.ctx.pfns_num_)
    (hl : l.mappingAddress os = (h + S) * os.page_size) (hR : i < R)
    (hi : i < ((st.take s.ctx.pfns_num_).take S ++
      batchFrames (st.take s.ctx.pfns_num_) new S s.ctx.pfns_num_ n p r).length) :
    t.mach.pageTable (h + i) = ((st.take s.ctx.pfns_num_).take S ++
      batchFrames (st.take s.ctx.pfns_num_) new S s.ctx.pfns_num_ n p r)[i]? := by
  have hP := os.page_size_pos
  have hback := hb.placed.backed
  have hlen : (st.take s.ctx.pfns_num_).length = s.ctx.pfns_num_ := by
    rw [List.length_take, Nat.min_eq_left hb.counted.core.num]
  have hlenS : ((st.take s.ctx.pfns_num_).take S).length = S := by
    rw [List.length_take]
    omega
  obtain ⟨away, haway, hpage⟩ := hbat.pageTable hback.nodup
  have hout : h + i ∉ away := fun hmem => by
    have hown := haway _ hmem _ hb.hosts.own
    dsimp only at hown
    have h₁ : (h + i + 1) * os.page_size ≤ (h + R) * os.page_size := Nat.mul_le_mul_right _ (by omega)
    have h₂ : h * os.page_size ≤ (h + i) * os.page_size := Nat.mul_le_mul_right _ (by omega)
    rw [add_mul] at h₁
    rw [add_mul h R] at h₁
    rw [add_mul (h + i)] at hown
    omega
  rw [hpage _ hout, hl, Nat.mul_div_cancel _ hP, remapPages]
  rcases Nat.lt_or_ge i S with hlt | hge
  · have hget := List.getElem?_eq_getElem (l := st.take s.ctx.pfns_num_) (i := i) (by omega)
    rw [if_neg (by omega), unmapPages, if_neg (by omega), hback.page_eq hget,
      List.getElem?_append_left (by omega), List.getElem?_take_of_lt hlt, hget, Option.filter_some,
      if_pos]
    have hspec := (surplusFrames_spec (p := p) (r := r) hle hlen hback.nodup).2.2
    have hmem : (st.take s.ctx.pfns_num_)[i] ∈ (st.take s.ctx.pfns_num_).take S := by
      refine List.mem_iff_getElem?.mpr ⟨i, ?_⟩
      rw [List.getElem?_take_of_lt hlt, hget]
    simpa using hspec _ (List.mem_append_left _ hmem)
  · rw [List.length_append, hlenS] at hi
    rw [if_pos (by omega), List.getElem?_append_right (by omega), hlenS]
    congr 1
    omega

end Pages

end VcmallocBench
