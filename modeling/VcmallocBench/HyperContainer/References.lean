import VcmallocBench.HyperContainer.Rules

/-! # References

A container context refers to a pointer variable of the user, outside the
hypercontainer or in eight bytes of it. A table of contexts is read as a list of
containers. Assigning to one variable changes that one container, as long as the
variables are apart and their bytes are mapped one to one.
-/

namespace VcmallocBench

open Paging

namespace PtrLoc

def Covers : PtrLoc → ℕ → Prop
  | .var _, _ => False
  | .mem b, a => b ≤ a ∧ a < b + 8

def Within (lo hi : ℕ) : PtrLoc → Prop
  | .var _ => True
  | .mem a => lo ≤ a ∧ a + 8 ≤ hi

def Apart : PtrLoc → PtrLoc → Prop
  | .var x, .var y => x ≠ y
  | .mem a, .mem b => a + 8 ≤ b ∨ b + 8 ≤ a
  | _, _ => True

theorem Apart.symm {l l' : PtrLoc} (h : l.Apart l') : l'.Apart l := by
  cases l <;> cases l' <;> simp only [Apart] at * <;> exact h.symm

theorem Within.mono {lo hi lo' hi' : ℕ} {l : PtrLoc} (h : l.Within lo hi) (hlo : lo' ≤ lo)
    (hhi : hi ≤ hi') : l.Within lo' hi' := by
  cases l
  · trivial
  · exact ⟨hlo.trans h.1, h.2.trans hhi⟩

theorem Within.bounds {lo hi a : ℕ} {l : PtrLoc} (h : l.Within lo hi) (ha : l.Covers a) :
    lo ≤ a ∧ a < hi := by
  cases l
  · exact ha.elim
  · exact ⟨h.1.trans ha.1, ha.2.trans_le h.2⟩

end PtrLoc

namespace Machine

variable {os : OS} {m m' : Machine} {lo hi : ℕ}

/-- The addresses of a range are mapped, different pages to different frames. -/
structure Held (os : OS) (m : Machine) (lo hi : ℕ) : Prop where
  mapped : ∀ a, lo ≤ a → a < hi → m.mapped os a
  inj : ∀ a b, lo ≤ a → a < hi → lo ≤ b → b < hi →
    m.pageTable (a / os.page_size) = m.pageTable (b / os.page_size) →
    a / os.page_size = b / os.page_size

theorem mapped_eq (a : ℕ) : m.mapped os a = (m.read os a).isSome := by
  rw [mapped, read, Option.isSome_map]

theorem load_congr {l : PtrLoc} (hv : ∀ x, l = .var x → m'.vars x = m.vars x)
    (hr : ∀ a, l.Covers a → m'.read os a = m.read os a) : m'.load os l = m.load os l := by
  cases l with
  | var x => rw [load_var, load_var, hv x rfl]
  | mem b =>
    have hb : ∀ i < 8, m'.read os (b + i) = m.read os (b + i) := fun i hi =>
      hr _ ⟨by omega, by omega⟩
    have hm : (∀ i < 8, m'.mapped os (b + i)) ↔ ∀ i < 8, m.mapped os (b + i) := by
      refine forall₂_congr fun i hi => ?_
      rw [mapped_eq, mapped_eq, hb i hi]
    have hw : (leWord fun i => (m'.read os (b + i)).getD 0) =
        leWord fun i => (m.read os (b + i)).getD 0 :=
      leWord_congr fun i hi => by rw [hb i hi]
    simp only [load, hm, hw]

structure Rewritten (os : OS) (m m' : Machine) (lo hi : ℕ) (refs : List PtrLoc) : Prop where
  pageTable : m'.pageTable = m.pageTable
  regions : m'.regions = m.regions
  allocated : m'.allocated = m.allocated
  calls : m'.calls = m.calls
  vars : ∀ x, .var x ∉ refs → m'.vars x = m.vars x
  read : ∀ a, lo ≤ a → a < hi → (∀ l ∈ refs, ¬ l.Covers a) → m'.read os a = m.read os a

namespace Rewritten

variable {refs : List PtrLoc}

theorem refl (os : OS) (m : Machine) (lo hi : ℕ) (refs : List PtrLoc) :
    Rewritten os m m lo hi refs :=
  ⟨rfl, rfl, rfl, rfl, fun _ _ => rfl, fun _ _ _ _ => rfl⟩

theorem trans {m'' : Machine} (h : Rewritten os m m' lo hi refs)
    (h' : Rewritten os m' m'' lo hi refs) : Rewritten os m m'' lo hi refs where
  pageTable := h'.pageTable.trans h.pageTable
  regions := h'.regions.trans h.regions
  allocated := h'.allocated.trans h.allocated
  calls := h'.calls.trans h.calls
  vars x hx := (h'.vars x hx).trans (h.vars x hx)
  read a hl hh ha := (h'.read a hl hh ha).trans (h.read a hl hh ha)

theorem mono {refs' : List PtrLoc} (h : Rewritten os m m' lo hi refs) (hs : ∀ l ∈ refs, l ∈ refs') :
    Rewritten os m m' lo hi refs' where
  pageTable := h.pageTable
  regions := h.regions
  allocated := h.allocated
  calls := h.calls
  vars x hx := h.vars x fun hm => hx (hs _ hm)
  read a hl hh ha := h.read a hl hh fun l hm => ha l (hs l hm)

theorem held (h : Rewritten os m m' lo hi refs) (hm : Held os m lo hi) : Held os m' lo hi where
  mapped a h₁ h₂ := by
    have := hm.mapped a h₁ h₂
    rwa [mapped, h.pageTable]
  inj a b h₁ h₂ h₃ h₄ he := by
    rw [h.pageTable] at he
    exact hm.inj a b h₁ h₂ h₃ h₄ he

theorem failures (h : Rewritten os m m' lo hi refs) : m'.failures = m.failures := by
  rw [Machine.failures, Machine.failures, h.calls]

end Rewritten

theorem store_spec {b n : ℕ} (bs : ℕ → Byte) (hl : lo ≤ b) (hu : b + n ≤ hi)
    (hh : Held os m lo hi) :
    ∃ d, m.store os b bs n = some { m with frameData := d } ∧ ∀ a, lo ≤ a → a < hi →
      read os { m with frameData := d } a =
        if b ≤ a ∧ a < b + n then some (bs (a - b)) else m.read os a := by
  have hm : ∀ i < n, m.mapped os (b + i) := fun i hi => hh.mapped _ (by omega) (by omega)
  refine ⟨poke m.pageTable os.page_size b bs n m.frameData, if_pos hm, fun a h₁ h₂ => ?_⟩
  obtain ⟨f, hf⟩ := Option.isSome_iff_exists.mp (hh.mapped a h₁ h₂)
  have hp := poke_read bs m.frameData (fun i hi => Option.isSome_iff_exists.mp (hm i hi)) hf
    fun i hi he => hh.inj _ _ (by omega) (by omega) h₁ h₂ (he.trans hf.symm)
  rw [read, read, hf, Option.map_some, Option.map_some]
  exact (congrArg some hp).trans (apply_ite some _ _ _)

theorem assign_spec {l : PtrLoc} {v : ℕ} (hv : v < 2 ^ 64) (hw : l.Within lo hi)
    (hh : Held os m lo hi) :
    ∃ m', m.assign os l v = some m' ∧ Rewritten os m m' lo hi [l] ∧ m'.load os l = some v := by
  cases l with
  | var x =>
    refine ⟨_, rfl, ⟨rfl, rfl, rfl, rfl, fun y hy => ?_, fun _ _ _ _ => rfl⟩, ?_⟩
    · have hne : y ≠ x := by
        rintro rfl
        exact hy (List.mem_singleton.mpr rfl)
      exact Function.update_of_ne hne _ _
    · exact congrArg some (Function.update_self x v m.vars)
  | mem b =>
    obtain ⟨hl, hu⟩ := hw
    obtain ⟨d, hs, hr⟩ := store_spec (leByte v) hl hu hh
    refine ⟨_, hs, ⟨rfl, rfl, rfl, rfl, fun _ _ => rfl, fun a h₁ h₂ ha => ?_⟩, ?_⟩
    · rw [hr a h₁ h₂]
      exact if_neg fun hc => ha _ (List.mem_singleton.mpr rfl) hc
    · have hm : ∀ i < 8, mapped os { m with frameData := d } (b + i) := fun i hi =>
        hh.mapped _ (by omega) (by omega)
      have hb : (leWord fun i => (read os { m with frameData := d } (b + i)).getD 0) =
          leWord (leByte v) :=
        leWord_congr fun i hi => by
          rw [hr _ (by omega) (by omega), if_pos (by omega), Nat.add_sub_cancel_left]
          rfl
      rw [load, if_pos hm, hb, leWord_leByte hv]

theorem Rewritten.load {l l' : PtrLoc} (h : Rewritten os m m' lo hi [l]) (hw : l'.Within lo hi)
    (ha : l.Apart l') : m'.load os l' = m.load os l' := by
  refine load_congr (fun x hx => h.vars x ?_) fun a hc => ?_
  · rw [List.mem_singleton]
    rintro rfl
    rw [hx] at ha
    exact ha rfl
  · obtain ⟨h₁, h₂⟩ := hw.bounds hc
    refine h.read a h₁ h₂ fun l₀ hl₀ hc₀ => ?_
    rw [List.mem_singleton] at hl₀
    subst hl₀
    cases l₀ with
    | var x => exact hc₀
    | mem b =>
      cases l' with
      | var y => exact hc
      | mem b' =>
        simp only [PtrLoc.Apart, PtrLoc.Covers] at *
        omega

end Machine

/-- A table of container contexts read as a list of containers, with variables that are pairwise
apart and lie outside memory or in `[lo, hi)`. -/
structure Views (os : OS) (m : Machine) (lo hi : ℕ) (cs : List ContainerContext)
    (L : List Container) : Prop where
  length_eq : cs.length = L.length
  resolve : ∀ (j : ℕ) c, cs[j]? = some c → c.resolve os m = L[j]?
  within : ∀ c ∈ cs, c.reference_.Within lo hi
  apart : cs.Pairwise fun c d => c.reference_.Apart d.reference_

namespace Container

def moved (delta : ℕ) (l : Container) : Container := { l with reference_ := u64 (l.reference_ + delta) }

section Moved

variable (delta : ℕ) (l : Container)

theorem moved_eq : l.moved delta = { l with reference_ := u64 (l.reference_ + delta) } := rfl

theorem moved_reference_eq : (l.moved delta).reference_ = u64 (l.reference_ + delta) := rfl

theorem moved_reference_lt : (l.moved delta).reference_ < 2 ^ 64 := by
  rw [moved_reference_eq]
  exact u64_lt _

@[simp] theorem moved_type_size : (l.moved delta).type_size_ = l.type_size_ := rfl

@[simp] theorem moved_elements_num : (l.moved delta).elements_num_ = l.elements_num_ := rfl

@[simp] theorem moved_bytes : (l.moved delta).bytes = l.bytes := rfl

-- comparing wrapped references must not evaluate the wrap
attribute [irreducible] moved

end Moved

end Container

namespace Views

variable {os : OS} {m m' : Machine} {lo hi : ℕ} {cs : List ContainerContext} {L : List Container}

theorem congr (h : Views os m lo hi cs L) (hv : ∀ c ∈ cs, ∀ x, c.reference_ = .var x →
      m'.vars x = m.vars x)
    (hr : ∀ a, lo ≤ a → a < hi → m'.read os a = m.read os a) : Views os m' lo hi cs L where
  length_eq := h.length_eq
  resolve j c hc := by
    have hm := List.mem_of_getElem? hc
    rw [← h.resolve j c hc, ContainerContext.resolve, ContainerContext.resolve,
      Machine.load_congr (fun x hx => hv c hm x hx) fun a ha => ?_]
    obtain ⟨h₁, h₂⟩ := (h.within c hm).bounds ha
    exact hr a h₁ h₂
  within := h.within
  apart := h.apart

theorem get (h : Views os m lo hi cs L) {j : ℕ} {l : Container} (hl : L[j]? = some l) :
    ∃ c, cs[j]? = some c ∧ c.resolve os m = some l := by
  obtain ⟨hj, -⟩ := List.getElem?_eq_some_iff.mp hl
  have hc := List.getElem?_eq_getElem (l := cs) (i := j) (by rw [h.length_eq]; exact hj)
  exact ⟨_, hc, by rw [h.resolve j _ hc, hl]⟩

theorem get_left (h : Views os m lo hi cs L) {j : ℕ} {c : ContainerContext}
    (hc : cs[j]? = some c) : ∃ l, L[j]? = some l ∧ c.resolve os m = some l := by
  obtain ⟨hj, -⟩ := List.getElem?_eq_some_iff.mp hc
  have hl := List.getElem?_eq_getElem (l := L) (i := j) (by rw [← h.length_eq]; exact hj)
  exact ⟨_, hl, by rw [h.resolve j _ hc, hl]⟩

theorem sizes (h : Views os m lo hi cs L) {j : ℕ} {c : ContainerContext} {l : Container}
    (hc : cs[j]? = some c) (hl : L[j]? = some l) :
    c.type_size_ = l.type_size_ ∧ c.elements_num_ = l.elements_num_ ∧
      m.load os c.reference_ = some l.reference_ := by
  have hr := h.resolve j c hc
  rw [hl, ContainerContext.resolve, Option.map_eq_some_iff] at hr
  obtain ⟨r, hr, rfl⟩ := hr
  exact ⟨rfl, rfl, hr⟩

theorem apart_of_ne (h : Views os m lo hi cs L) {i j : ℕ} {c d : ContainerContext} (hne : i ≠ j)
    (hc : cs[i]? = some c) (hd : cs[j]? = some d) : c.reference_.Apart d.reference_ := by
  obtain ⟨hi, rfl⟩ := List.getElem?_eq_some_iff.mp hc
  obtain ⟨hj, rfl⟩ := List.getElem?_eq_some_iff.mp hd
  rcases Nat.lt_or_gt_of_ne hne with hlt | hlt
  · exact List.pairwise_iff_getElem.mp h.apart i j hi hj hlt
  · exact (List.pairwise_iff_getElem.mp h.apart j i hj hi hlt).symm

theorem set_elements (h : Views os m lo hi cs L) {k n : ℕ} {c : ContainerContext} {l : Container}
    (hc : cs[k]? = some c) (hl : L[k]? = some l) :
    Views os m lo hi (cs.set k { c with elements_num_ := n })
      (L.set k { l with elements_num_ := n }) where
  length_eq := by rw [List.length_set, List.length_set, h.length_eq]
  resolve j d hd := by
    obtain ⟨hk, -⟩ := List.getElem?_eq_some_iff.mp hc
    have hkL : k < L.length := h.length_eq ▸ hk
    rw [List.getElem?_set] at hd ⊢
    by_cases hj : k = j
    · subst hj
      rw [if_pos rfl, if_pos hk] at hd
      obtain rfl := Option.some.inj hd
      obtain ⟨h₁, -, h₃⟩ := h.sizes hc hl
      rw [if_pos rfl, if_pos hkL, ContainerContext.resolve]
      dsimp only
      rw [h₃, Option.map_some, h₁]
    · rw [if_neg hj] at hd ⊢
      exact h.resolve j d hd
  within d hd := by
    rcases List.mem_or_eq_of_mem_set hd with hd | rfl
    · exact h.within d hd
    · exact h.within c (List.mem_of_getElem? hc)
  apart := by
    rw [List.pairwise_iff_getElem]
    intro i j hi hj hij
    have key : ∀ x (hx : x < (cs.set k { c with elements_num_ := n }).length),
        ∃ d, cs[x]? = some d ∧
          d.reference_ = (cs.set k { c with elements_num_ := n })[x].reference_ := by
      intro x hx
      rw [List.length_set] at hx
      rw [List.getElem_set]
      split
      · rename_i hkx
        exact ⟨c, hkx ▸ hc, rfl⟩
      · exact ⟨cs[x], List.getElem?_eq_getElem hx, rfl⟩
    obtain ⟨d, hd, hd'⟩ := key i hi
    obtain ⟨e, he, he'⟩ := key j hj
    rw [← hd', ← he']
    exact h.apart_of_ne (by omega) hd he

theorem assign (h : Views os m lo hi cs L) {k v hi' : ℕ} {c : ContainerContext} {l : Container}
    (hc : cs[k]? = some c) (hl : L[k]? = some l) (hv : v < 2 ^ 64) (hhi : hi ≤ hi')
    (hh : m.Held os lo hi') :
    ∃ m', m.assign os c.reference_ v = some m' ∧
      m.Rewritten os m' lo hi' (cs.map (·.reference_)) ∧
      Views os m' lo hi cs (L.set k { l with reference_ := v }) := by
  have hmem := List.mem_of_getElem? hc
  have hcw := (h.within c hmem).mono le_rfl hhi
  obtain ⟨m', hm', hrw, hload⟩ := Machine.assign_spec hv hcw hh
  refine ⟨m', hm', hrw.mono fun l hl => ?_, ⟨?_, fun j d hd => ?_, h.within, h.apart⟩⟩
  · rw [List.mem_singleton] at hl
    exact hl ▸ List.mem_map_of_mem hmem
  · rw [List.length_set, h.length_eq]
  · rw [List.getElem?_set]
    by_cases hj : k = j
    · subst hj
      obtain rfl := Option.some.inj (hc.symm.trans hd)
      obtain ⟨h₁, h₂, -⟩ := h.sizes hc hl
      rw [if_pos rfl, if_pos (List.getElem?_eq_some_iff.mp hl).1, ContainerContext.resolve, hload,
        Option.map_some, h₁, h₂]
    · have hdw := (h.within d (List.mem_of_getElem? hd)).mono le_rfl hhi
      rw [if_neg hj, ← h.resolve j d hd, ContainerContext.resolve, ContainerContext.resolve,
        hrw.load hdw (h.apart_of_ne hj hc hd)]

end Views

section Rules

variable {os : OS} {s : State} {E : Fault → State → Prop} {lo hi hi' : ℕ}
  {cs : List ContainerContext} {L : List Container}

theorem Views.meets_containerAt (h : Views os s.mach lo hi s.ctx.containers L) {k : ℕ}
    {l : Container} (hl : L[k]? = some l) {Q : Container → State → Prop} :
    Meets (containerAt os k) s Q E ↔ Q l s := by
  obtain ⟨c, hc, hr⟩ := h.get hl
  exact VcmallocBench.meets_containerAt hc hr

theorem Views.meets_moveReference (h : Views os s.mach lo hi s.ctx.containers L) {k delta : ℕ}
    {l : Container} (hl : L[k]? = some l) (hhi : hi ≤ hi') (hh : s.mach.Held os lo hi') :
    Meets (moveReference os k delta) s (fun _ t => t.ctx = s.ctx ∧
      s.mach.Rewritten os t.mach lo hi' (s.ctx.containers.map (·.reference_)) ∧
      Views os t.mach lo hi s.ctx.containers (L.set k (l.moved delta))) E := by
  obtain ⟨c, hc, -⟩ := h.get hl
  obtain ⟨-, -, hr⟩ := h.sizes hc hl
  obtain ⟨m', hm', hrw, hv⟩ :=
    h.assign (v := u64 (l.reference_ + delta)) hc hl (u64_lt _) hhi hh
  rw [moveReference, meets_bind, meets_contextAt hc, meets_bind, meets_loadPtr hr, storePtr,
    meets_onMachine hm', Container.moved_eq]
  exact ⟨rfl, hrw, hv⟩

def moveFrom (start delta : ℕ) (L : List Container) : List Container :=
  L.take start ++ (L.drop start).map (·.moved delta)

theorem getElem?_moveFrom (start delta : ℕ) (L : List Container) (j : ℕ) :
    (moveFrom start delta L)[j]? =
      if start ≤ j then L[j]?.map (·.moved delta) else L[j]? := by
  rw [moveFrom]
  rcases Nat.lt_or_ge j (L.take start).length with hj | hj
  · have h₁ : j < start := by rw [List.length_take] at hj; omega
    rw [List.getElem?_append_left hj, if_neg (by omega), List.getElem?_take_of_lt h₁]
  · rw [List.getElem?_append_right hj, List.getElem?_map, List.getElem?_drop, List.length_take]
    rw [List.length_take] at hj
    rcases Nat.lt_or_ge j L.length with hjl | hjl
    · rw [if_pos (by omega), show start + (j - min start L.length) = j by omega]
    · rw [List.getElem?_eq_none hjl, List.getElem?_eq_none (by omega), Option.map_none, ite_self]

@[simp] theorem length_moveFrom (start delta : ℕ) (L : List Container) :
    (moveFrom start delta L).length = L.length := by
  simp only [moveFrom, List.length_append, List.length_take, List.length_map, List.length_drop]
  omega

/-- The loop over the references from index `start` on. -/
theorem Views.meets_shiftReferences (h : Views os s.mach lo hi s.ctx.containers L)
    {start delta : ℕ} (hn : s.ctx.containers_num_ = L.length) (hs : start ≤ L.length)
    (hhi : hi ≤ hi') (hh : s.mach.Held os lo hi') :
    Meets (shiftReferences os start delta) s (fun _ t => t.ctx = s.ctx ∧
      s.mach.Rewritten os t.mach lo hi' (s.ctx.containers.map (·.reference_)) ∧
      Views os t.mach lo hi s.ctx.containers (moveFrom start delta L)) E := by
  -- before index `j`, the references from `start` to `j` are moved
  let I : ℕ → State → Prop := fun j t => t.ctx = s.ctx ∧
    s.mach.Rewritten os t.mach lo hi' (s.ctx.containers.map (·.reference_)) ∧
    ∃ L', Views os t.mach lo hi s.ctx.containers L' ∧
      ∀ i, L'[i]? = if start ≤ i ∧ i < j then L[i]?.map (·.moved delta) else L[i]?
  have h₀ : I start s := ⟨rfl, .refl .., L, h, fun i => (if_neg (by omega)).symm⟩
  rw [shiftReferences, meets_bind, meets_getCtx]
  refine (meets_forM_range (I := I) _ start s h₀ fun j t hj hjn hI => ?_).imp fun _ t hI => ?_
  · obtain ⟨hctx, hrw, L', hv, hL'⟩ := hI
    have hl : L'[j]? = L[j]? := by rw [hL', if_neg (by omega)]
    obtain ⟨l, hLj⟩ : ∃ l, L[j]? = some l := ⟨_, List.getElem?_eq_getElem (by omega)⟩
    rw [← hctx] at hv hrw
    refine (hv.meets_moveReference (hl.trans hLj) hhi (hrw.held hh)).imp fun _ u hu => ?_
    obtain ⟨h₁, h₂, h₃⟩ := hu
    refine ⟨h₁.trans hctx, hctx ▸ hrw.trans h₂, _, hctx ▸ h₃, fun i => ?_⟩
    rw [List.getElem?_set, hL']
    by_cases hji : j = i
    · subst hji
      rw [if_pos rfl, if_pos (List.getElem?_eq_some_iff.mp (hl.trans hLj)).1, if_pos (by omega),
        hLj, Option.map_some]
    · rw [if_neg hji]
      by_cases hi : start ≤ i ∧ i < j
      · rw [if_pos hi, if_pos (by omega)]
      · rw [if_neg hi, if_neg (by omega)]
  · obtain ⟨hctx, hrw, L', hv, hL'⟩ := hI
    refine ⟨hctx, hrw, ?_⟩
    have he : L' = moveFrom start delta L := by
      refine List.ext_getElem? fun i => ?_
      rw [hL', getElem?_moveFrom]
      by_cases hi : start ≤ i
      · rcases Nat.lt_or_ge i L.length with hlt | hge
        · rw [if_pos (by omega), if_pos hi]
        · rw [List.getElem?_eq_none hge, Option.map_none, ite_self, ite_self]
      · rw [if_neg (by omega), if_neg hi]
    rwa [← he]

end Rules

end VcmallocBench
