import VcmallocBench.HyperContainer.Mapping

/-! # Layout

Containers that follow one another without a gap, the tables of a context, and
the invariants of a hypercontainer: its pages are counted by its containers, and
its containers are tiled from its base page and backed by its frames.
-/

namespace VcmallocBench

open Paging

def bytesOf (L : List Container) : ℕ := (L.map (·.bytes)).sum

/-- Each container starts where the one before it ends. -/
def Tiled : ℕ → List Container → Prop
  | _, [] => True
  | a, l :: L => l.reference_ = a ∧ Tiled (a + l.bytes) L

section Tiles

variable {os : OS} {L L' : List Container} {l : Container} {a k : ℕ}

@[simp] theorem bytesOf_nil : bytesOf [] = 0 := rfl

@[simp] theorem bytesOf_cons (l : Container) (L : List Container) :
    bytesOf (l :: L) = l.bytes + bytesOf L := by simp [bytesOf]

@[simp] theorem bytesOf_append (L L' : List Container) :
    bytesOf (L ++ L') = bytesOf L + bytesOf L' := by simp [bytesOf]

theorem tiled_append : ∀ {a : ℕ} {L : List Container},
    Tiled a (L ++ L') ↔ Tiled a L ∧ Tiled (a + bytesOf L) L'
  | _, [] => by simp [Tiled]
  | a, l :: L => by
    simp only [List.cons_append, Tiled, bytesOf_cons, ← add_assoc]
    rw [tiled_append, and_assoc]

theorem split_at (h : L[k]? = some l) : L = L.take k ++ l :: L.drop (k + 1) := by
  obtain ⟨hk, rfl⟩ := List.getElem?_eq_some_iff.mp h
  rw [List.cons_getElem_drop_succ, List.take_append_drop]

theorem Tiled.reference_eq (h : Tiled a L) (hl : L[k]? = some l) :
    l.reference_ = a + bytesOf (L.take k) := by
  rw [split_at hl, tiled_append] at h
  exact h.2.1

theorem Tiled.ascending (h : Tiled a L) : Ascending L := by
  intro i j l l' hij hl hl'
  rw [h.reference_eq hl, h.reference_eq hl']
  have hs : L.take j = L.take i ++ (L.take j).drop i := by
    conv_lhs => rw [← List.take_append_drop i (L.take j), List.take_take, Nat.min_eq_left hij]
  rw [hs, bytesOf_append]
  omega

theorem Tiled.ceil_eq : ∀ {a : ℕ} {L : List Container}, Tiled a L → (∀ l ∈ L, l.Fits os) →
    (a + bytesOf L) ⌈/⌉ os.page_size = a ⌈/⌉ os.page_size + pagesOf os L
  | a, [], _, _ => by simp
  | a, l :: L, h, hf => by
    have hl := hf l List.mem_cons_self
    have ih := Tiled.ceil_eq h.2 fun l' hl' => hf l' (List.mem_cons_of_mem _ hl')
    rw [bytesOf_cons, ← add_assoc, ih, ← span_add_ceil os.page_size_pos, pagesOf_cons,
      Container.nbrOfPages_eq hl, h.1, add_assoc]

/-- The page in which a container starts, or that starts behind it. -/
theorem Tiled.page_eq {h : ℕ} (ht : Tiled (h * os.page_size) L) (hf : ∀ l ∈ L, l.Fits os)
    (hl : L[k]? = some l) :
    l.reference_ ⌈/⌉ os.page_size = h + pagesOf os (L.take k) := by
  have ht' := ht
  rw [split_at hl, tiled_append] at ht'
  rw [ht.reference_eq hl, ht'.1.ceil_eq (fun l' hl' => hf l' (List.mem_of_mem_take hl')),
    ceil_mul_self os.page_size_pos]

end Tiles

/-- The tables of a context hold what its counters say. -/
structure Core (ctx : HyperContainerContext) (cs : List ContainerContext) (st : List Frame) :
    Prop where
  cells : ctx.containercontext_storage_ = some ⟨cs, ctx.containers_max_⟩
  containers_num : ctx.containers_num_ = cs.length
  containers_le : cs.length ≤ ctx.containers_max_
  containers_words : sizeofContainerContext * ctx.containers_max_ < 2 ^ 64
  table : ctx.pfns_storage_ = some st
  max : st.length = ctx.pfns_max_
  words : 8 * st.length < 2 ^ 64
  num : ctx.pfns_num_ ≤ st.length

/-- The containers of a context, read through references outside memory or in `[lo, hi)`, have no
more pages than it has frames. -/
structure Counted (os : OS) (s : State) (lo hi : ℕ) (cs : List ContainerContext)
    (st : List Frame) (L : List Container) : Prop where
  core : Core s.ctx cs st
  views : Views os s.mach lo hi cs L
  fits : ∀ l ∈ L, l.Fits os
  pages : pagesOf os L ≤ s.ctx.pfns_num_

/-- The containers are tiled from page `h` on, account for all pages, and are backed by the frames of
the table. -/
structure Placed (os : OS) (s : State) (h : ℕ) (st : List Frame) (L : List Container) : Prop where
  tiled : Tiled (h * os.page_size) L
  pages : pagesOf os L = s.ctx.pfns_num_
  backed : Backed os s.mach h (st.take s.ctx.pfns_num_)
  base_pos : 0 < h
  limit : (h + s.ctx.pfns_num_) * os.page_size < 2 ^ 63

section Invariants

variable {os : OS} {s : State} {lo hi h : ℕ} {cs : List ContainerContext} {st : List Frame}
  {L : List Container}

theorem Core.containers_eq {ctx : HyperContainerContext} (hc : Core ctx cs st) :
    ctx.containers = cs := by
  rw [HyperContainerContext.containers, hc.cells]; rfl

theorem Counted.views' (hc : Counted os s lo hi cs st L) :
    Views os s.mach lo hi s.ctx.containers L := by
  rw [hc.core.containers_eq]; exact hc.views

theorem Counted.num_eq (hc : Counted os s lo hi cs st L) : s.ctx.containers_num_ = L.length := by
  rw [hc.core.containers_num, hc.views.length_eq]

theorem Counted.length_le (hc : Counted os s lo hi cs st L) : L.length ≤ 2 ^ 63 := by
  have h₁ := hc.core.containers_le
  have h₂ := hc.core.containers_words
  have h₃ := hc.views.length_eq
  unfold sizeofContainerContext at h₂
  omega

theorem Counted.pages_lt (hc : Counted os s lo hi cs st L) : pagesOf os L < 2 ^ 61 := by
  have h₁ := hc.core.num
  have h₂ := hc.core.words
  have h₃ := hc.pages
  omega

theorem Counted.site {G : Prop} (hc : Counted os s lo hi cs st L) (hp : G → Placed os s h st L)
    {k : ℕ} {c : ContainerContext} {l : Container} (hk : cs[k]? = some c) (hl : L[k]? = some l)
    (hin : G ∧ c.reference_.Within (h * os.page_size) l.reference_ ∨ ∃ x, c.reference_ = .var x) :
    Site os G s h k (pagesOf os (L.take k)) c l cs s.ctx.containers_max_ st where
  cells := hc.core.cells
  length_le := hc.core.containers_le
  entry := hk
  resolve m' hv hr := by
    have h₀ := hc.views.resolve k c hk
    rw [hl] at h₀
    rw [← h₀, ContainerContext.resolve, ContainerContext.resolve]
    congr 1
    refine Machine.load_congr (fun x _ => by rw [hv]) fun a ha => ?_
    rcases hin with ⟨hG, hw⟩ | ⟨x, hx⟩
    · obtain ⟨h₁, h₂⟩ := hw.bounds ha
      exact hr hG a h₁ h₂
    · rw [hx] at ha
      exact ha.elim
  table := hc.core.table
  max := hc.core.max
  words := hc.core.words
  num := hc.core.num
  fits := hc.fits l (List.mem_of_getElem? hl)
  bound := by
    have := hc.pages
    rw [pagesOf_eq hl] at this
    omega
  backed hG := (hp hG).backed
  page hG := (hp hG).tiled.page_eq hc.fits hl
  base hG := by
    rw [(hp hG).tiled.reference_eq hl]
    omega
  base_pos hG := (hp hG).base_pos
  limit hG := by
    have := (hp hG).limit
    omega

end Invariants

end VcmallocBench
