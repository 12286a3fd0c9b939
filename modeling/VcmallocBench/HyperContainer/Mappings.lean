import VcmallocBench.HyperContainer.Effects
import VcmallocBench.HyperContainer.Bounds

/-! # Requests to map and unmap

Which requests of the allocator are for at least one page. `ContainerAlloc` and
`ContainerRealloc2` ask whether there is a page to map; the shrinking branch of
`ContainerRealloc` does not, and leaves none when the container that loses its
pages is the last one with pages.
-/

namespace VcmallocBench

open Paging

def OsCall.coversPage : OsCall → Bool
  | .map _ pages _ => pages != 0
  | _ => true

/-- The number of frames is the same, and all requests made in between cover a page. -/
structure Steady (s t : State) : Prop where
  pfns_num : t.ctx.pfns_num_ = s.ctx.pfns_num_
  calls : ∀ c ∈ t.mach.calls, c ∈ s.mach.calls ∨ c.coversPage = true

/-- If the number of frames is a word, it stays one, and all requests made in between cover a
page. -/
def Covers (s t : State) : Prop :=
  s.ctx.pfns_num_ < 2 ^ 64 → t.ctx.pfns_num_ < 2 ^ 64 ∧
    ∀ c ∈ t.mach.calls, c ∈ s.mach.calls ∨ c.coversPage = true

structure Owned (os : OS) (s : State) (L : List Container) : Prop where
  reads : s.Reads os L
  pages : pagesOf os L ≤ s.ctx.pfns_num_
  words : s.ctx.pfns_num_ < 2 ^ 63

/-- A resize that takes pages from a container asks for a page, or a container behind owns one. -/
def LeavesPage (os : OS) (s : State) : Call → Prop
  | .vcrealloc user sizeofT n => ∀ L elem k l, s.Reads os L → s.mach.load os user = some elem →
      s.find os elem = .ok (some k) → L[k]? = some l →
      l.requestedPages os sizeofT n < l.nbrOfPages os → 0 < l.requestedPages os sizeofT n ∨
        ∃ j d, k < j ∧ L[j]? = some d ∧ 0 < d.nbrOfPages os
  | _ => True

/-- A resize that leaves a page, of one of the containers that own no more pages than there are
frames. -/
def LeavesOwned (os : OS) (s : State) : Call → Prop
  | .vcrealloc user sizeofT n => (∃ L, Owned os s L) ∧ LeavesPage os s (.vcrealloc user sizeofT n)
  | _ => True

instance : Std.Refl Steady := ⟨fun _ => ⟨rfl, fun _ hc => Or.inl hc⟩⟩

instance : IsTrans State Steady where
  trans _ _ _ h₁ h₂ := ⟨h₂.pfns_num.trans h₁.pfns_num, fun c hc => (h₂.calls c hc).elim (h₁.calls c) Or.inr⟩

instance : Std.Refl Covers := ⟨fun _ hw => ⟨hw, fun _ hc => Or.inl hc⟩⟩

instance : IsTrans State Covers where
  trans _ _ _ h₁ h₂ hw := by
    obtain ⟨hw₁, hc₁⟩ := h₁ hw
    obtain ⟨hw₂, hc₂⟩ := h₂ hw₁
    exact ⟨hw₂, fun c hc => (hc₂ c hc).elim (hc₁ c) Or.inr⟩

theorem Steady.covers {s t : State} (h : Steady s t) : Covers s t :=
  fun hw => ⟨h.pfns_num ▸ hw, h.calls⟩

section Steps

variable (os : OS)

theorem Steady.of_call {s : State} {m : Machine} {c : OsCall} (hm : m.calls = c :: s.mach.calls)
    (hc : c.coversPage = true) : Steady s ⟨m, s.ctx⟩ := by
  refine ⟨rfl, fun d hd => ?_⟩
  rw [hm] at hd
  rcases List.mem_cons.mp hd with rfl | hd
  · exact Or.inr hc
  · exact Or.inl hd

theorem Steady.of_ctx {s : State} {ctx : HyperContainerContext}
    (h : ctx.pfns_num_ = s.ctx.pfns_num_) : Steady s ⟨s.mach, ctx⟩ := ⟨h, fun _ hc => Or.inl hc⟩

theorem steady_heapCall (bytes : ℕ) : Leads Steady (osCall (·.heapCall os bytes)) :=
  leads_osCall fun _ => .of_call rfl rfl

theorem steady_HeapAlloc (bytes : ℕ) : Leads Steady (HeapAlloc os bytes) :=
  (steady_heapCall os bytes).bind fun _ => .pure _

theorem steady_HeapFree : Leads Steady (HeapFree os) := leads_osCall fun _ => .of_call rfl rfl

theorem steady_HeapReAlloc (block : List Frame) (bytes : ℕ) :
    Leads Steady (HeapReAlloc os block bytes) :=
  (steady_heapCall os bytes).bind fun _ => .pure _

theorem steady_FreeUserPhysicalPages (fs : List Frame) :
    Leads Steady (FreeUserPhysicalPages os fs) := leads_osCall fun _ => .of_call rfl rfl

theorem steady_AllocateUserPhysicalPages (n : ℕ) :
    Leads Steady (AllocateUserPhysicalPages os n) := by
  refine leads_osCall fun s => ?_
  unfold Machine.allocateCall
  dsimp only
  split
  · exact .of_call rfl rfl
  · exact .of_call rfl rfl

theorem steady_reserveCall (requested size : ℕ) :
    Leads Steady (osCall (·.reserveCall os requested size)) := by
  refine leads_osCall fun s => ?_
  unfold Machine.reserveCall
  dsimp only
  split
  · exact .of_call rfl rfl
  · exact .of_call rfl rfl

theorem steady_releaseCall (address : ℕ) :
    Leads Steady (osCall (·.releaseCall os address)) := leads_osCall fun _ => .of_call rfl rfl

theorem steady_MapUserPhysicalPages (a : ℕ) {n : ℕ} (fs : Option (List Frame)) (hn : n ≠ 0) :
    Leads Steady (MapUserPhysicalPages os a n fs) :=
  leads_osCall fun _ => .of_call rfl (bne_iff_ne.mpr hn)

theorem steady_ensure (ok : Bool) (message : String) : Leads Steady (ensure ok message) :=
  .of_eq (leads_ensure ok message)

theorem steady_storePtr (l : PtrLoc) (v : ℕ) : Leads Steady (storePtr os l v) :=
  leads_onMachine _ fun _ _ hm => ⟨rfl, fun _ hc => Or.inl ((assign_fields hm).2.2.2 ▸ hc)⟩

theorem steady_memmove (dst src n : ℕ) : Leads Steady (memmove os dst src n) := by
  refine leads_onMachine _ fun s m hm => ?_
  obtain ⟨d, rfl⟩ := Machine.memmove_some hm
  exact ⟨rfl, fun _ hc => Or.inl hc⟩

theorem steady_modifyCtx {f : HyperContainerContext → HyperContainerContext}
    (h : ∀ ctx, (f ctx).pfns_num_ = ctx.pfns_num_) : Leads Steady (modifyCtx f) :=
  leads_modifyCtx fun s => .of_ctx (h s.ctx)

theorem steady_writeContext (k : ℕ) (c : ContainerContext) : Leads Steady (writeContext k c) :=
  leads_writeContext k c fun _ _ => .of_ctx rfl

theorem steady_setElements (k n : ℕ) : Leads Steady (setElements k n) :=
  (Leads.of_eq (leads_contextAt k)).bind fun _ => steady_writeContext _ _

theorem steady_writePFNs (i : ℕ) (fs : List Frame) : Leads Steady (writePFNs i fs) :=
  (Leads.of_eq (leads_fetch _ _)).bind fun _ => steady_modifyCtx fun _ => rfl

theorem steady_movePFNs (dst src n : ℕ) : Leads Steady (movePFNs dst src n) :=
  (Leads.of_eq (leads_fetch _ _)).bind fun _ => steady_modifyCtx fun _ => rfl

theorem steady_AssertPfnsStorage (n : ℕ) : Leads Steady (AssertPfnsStorage os n) := by
  refine (Leads.of_eq leads_getCtx).bind fun ctx => .ite ?_ (.pure _)
  refine (Leads.of_eq (leads_fetch _ _)).bind fun _ => (steady_HeapReAlloc os _ _).bind fun _ => ?_
  refine (steady_modifyCtx ?_).bind fun _ => (steady_ensure _ _).bind fun _ => steady_modifyCtx ?_
  · exact fun _ => rfl
  · exact fun _ => rfl

theorem steady_AssertContainerContextStorage (n : ℕ) :
    Leads Steady (AssertContainerContextStorage os n) := by
  refine (Leads.of_eq leads_getCtx).bind fun ctx => .ite ?_ (.pure _)
  refine (Leads.of_eq (leads_fetch _ _)).bind fun _ => (steady_heapCall os _).bind fun _ => ?_
  refine (steady_modifyCtx ?_).bind fun _ => (steady_ensure _ _).bind fun _ => steady_modifyCtx ?_
  · exact fun _ => rfl
  · exact fun _ => rfl

theorem steady_insert (user : PtrLoc) (size n : ℕ) : Leads Steady (insert os user size n) := by
  refine (steady_AssertContainerContextStorage os 1).bind fun _ => (steady_modifyCtx ?_).bind fun _ => ?_
  · exact fun _ => rfl
  · exact (Leads.of_eq leads_getCtx).bind fun _ => steady_writeContext _ _

theorem steady_moveReference (k delta : ℕ) : Leads Steady (moveReference os k delta) :=
  (Leads.of_eq (leads_contextAt k)).bind fun _ => (Leads.of_eq (leads_loadPtr os _)).bind fun _ =>
    steady_storePtr os _ _

theorem steady_shiftReferences (start delta : ℕ) : Leads Steady (shiftReferences os start delta) :=
  (Leads.of_eq leads_getCtx).bind fun _ => .forM (fun _ => steady_moveReference os _ _) _

theorem steady_copyGuest (k : ℕ) (dst : ℕ → ℕ) (message : String) :
    Leads Steady (copyGuest os k dst message) :=
  (Leads.of_eq (leads_containerAt os k)).bind fun _ => (steady_memmove os _ _ _).bind fun _ =>
    steady_ensure _ _

theorem steady_updateStruct (k sizeofT pages : ℕ) : Leads Steady (updateStruct os k sizeofT pages) :=
  (Leads.of_eq (leads_containerAt os k)).bind fun _ => steady_setElements _ _

theorem steady_shrinkFrames (start req pages : ℕ) : Leads Steady (shrinkFrames os start req pages) := by
  refine (Leads.of_eq (leads_readPFNs _ _)).bind fun fs => ?_
  refine (steady_FreeUserPhysicalPages os fs).bind fun r => ?_
  refine (steady_ensure _ _).bind fun _ => (steady_ensure _ _).bind fun _ => ?_
  exact (Leads.of_eq leads_getCtx).bind fun _ => steady_movePFNs _ _ _

theorem steady_growFrames (start req pages : ℕ) : Leads Steady (growFrames os start req pages) := by
  refine (steady_AssertPfnsStorage os _).bind fun _ => (Leads.of_eq leads_getCtx).bind fun ctx => ?_
  refine (steady_movePFNs _ _ _).bind fun _ => (steady_AllocateUserPhysicalPages os _).bind fun r => ?_
  exact (steady_writePFNs _ _).bind fun _ => (steady_ensure _ _).bind fun _ => steady_ensure _ _

variable {os : OS} {s : State}

theorem steady_shrinkRemap {k start steps : ℕ} (h₁ : sub64 s.ctx.pfns_num_ start ≠ 0)
    (h₂ : sub64 (sub64 s.ctx.pfns_num_ start) steps ≠ 0) :
    Meets (shrinkRemap os k start steps) s (fun _ => Steady s) fun _ => Steady s := by
  rw [shrinkRemap, meets_bind, meets_getCtx]
  refine ((Leads.of_eq (leads_containerAt os k)).bind fun l => ?_) s
  refine (steady_MapUserPhysicalPages os _ _ h₁).bind fun _ => (steady_ensure _ _).bind fun _ => ?_
  refine (Leads.of_eq (leads_containerAt os k)).bind fun l => ?_
  refine (Leads.of_eq (leads_readPFNs _ _)).bind fun _ => ?_
  exact (steady_MapUserPhysicalPages os _ _ h₂).bind fun _ => steady_ensure _ _

theorem steady_growRemap {k start steps : ℕ} (h₀ : s.ctx.pfns_num_ < 2 ^ 64) (hs : start < 2 ^ 64)
    (h₁ : u64 (sub64 s.ctx.pfns_num_ start + steps) ≠ 0) :
    Meets (growRemap os k start steps) s (fun _ => Steady s) fun _ => Steady s := by
  rw [growRemap, meets_bind, meets_getCtx]
  have hmap : Leads Steady (do
      let concerned ← containerAt os k
      let PFNs ← readPFNs start (u64 (sub64 s.ctx.pfns_num_ start + steps))
      let ok ← MapUserPhysicalPages os (concerned.mappingAddress os)
        (u64 (sub64 s.ctx.pfns_num_ start + steps)) (some PFNs)
      ensure ok "structRealloc: couldn't map comitted deallocation changes") := by
    refine (Leads.of_eq (leads_containerAt os k)).bind fun l => ?_
    refine (Leads.of_eq (leads_readPFNs _ _)).bind fun _ => ?_
    exact (steady_MapUserPhysicalPages os _ _ h₁).bind fun _ => steady_ensure _ _
  refine (Leads.bind (leads_onlyIf fun hne => ?_) fun _ => hmap) s
  refine (Leads.of_eq (leads_containerAt os k)).bind fun l => ?_
  refine (steady_MapUserPhysicalPages os _ _ ?_).bind fun _ => steady_ensure _ _
  rw [sub64]
  omega

end Steps

section Calls

variable {os : OS} {s : State}

theorem covers_modifyCtx {f : HyperContainerContext → HyperContainerContext}
    (h : ∀ ctx, ctx.pfns_num_ < 2 ^ 64 → (f ctx).pfns_num_ < 2 ^ 64) : Leads Covers (modifyCtx f) :=
  leads_modifyCtx fun s hw => ⟨h s.ctx hw, fun _ hc => Or.inl hc⟩

theorem Leads.covers {α : Type} {p : Op α} (h : Leads Steady p) : Leads Covers p :=
  h.mono fun _ _ => Steady.covers

theorem covers_allocPages (a req : ℕ) : Leads Covers (allocPages os a req) := by
  refine (steady_AssertPfnsStorage os req).covers.bind fun _ => (Leads.of_eq leads_getCtx).bind fun ctx => ?_
  refine (steady_AllocateUserPhysicalPages os req).covers.bind fun r => ?_
  refine (steady_writePFNs _ _).covers.bind fun _ => (steady_ensure _ _).covers.bind fun _ => ?_
  refine (steady_ensure _ _).covers.bind fun _ => Leads.bind (leads_onlyIf fun hne => ?_) fun _ =>
    covers_modifyCtx fun _ _ => u64_lt _
  refine (Leads.of_eq (leads_readPFNs _ _)).bind fun _ => ?_
  exact (steady_MapUserPhysicalPages os _ _ hne).covers.bind fun _ => (steady_ensure _ _).covers

theorem covers_ContainerAlloc (base : ℕ) (user : PtrLoc) (sizeofT n : ℕ) :
    Leads Covers (ContainerAlloc os base user sizeofT n) := by
  refine (Leads.of_eq (leads_nextSlot os base)).bind fun slot => ?_
  refine (steady_insert os _ _ _).covers.bind fun _ => (steady_storePtr os _ _).covers.bind fun _ => ?_
  exact .ite (.pure _) (covers_allocPages _ _)

/-- From a state whose number of frames is a word. -/
theorem meets_covers {α : Type} {p : Op α}
    (h : s.ctx.pfns_num_ < 2 ^ 64 → Meets p s (fun _ => Covers s) fun _ => Covers s) :
    Meets p s (fun _ => Covers s) fun _ => Covers s := by
  by_cases hw : s.ctx.pfns_num_ < 2 ^ 64
  · exact h hw
  · exact Meets.trivial.mono (fun _ _ _ hw' => absurd hw' hw) fun _ _ _ hw' => absurd hw' hw

theorem covers_reallocShrink {k sizeofT start req pages : ℕ} (h₁ : sub64 s.ctx.pfns_num_ start ≠ 0)
    (h₂ : sub64 (sub64 s.ctx.pfns_num_ start) (sub64 pages req) ≠ 0) :
    Meets (reallocShrink os k sizeofT start req pages) s (fun _ => Covers s) fun _ => Covers s := by
  have hmapping : Meets (shrinkMapping os k sizeofT start req pages) s (fun _ => Steady s)
      fun _ => Steady s := by
    refine (steady_copyGuest os k _ _).meets_then fun _ t ht => ?_
    refine (steady_shrinkFrames os start req pages).meets_then fun _ u hu => ?_
    have hnum : u.ctx.pfns_num_ = s.ctx.pfns_num_ := hu.pfns_num.trans ht.pfns_num
    refine Leads.meets_bind (Q := fun _ _ => True)
      ((steady_shrinkRemap (by rwa [hnum]) (by rwa [hnum])).imp fun _ _ hv => ⟨hv, trivial⟩)
      fun _ v _ _ => steady_updateStruct os k sizeofT req v
  refine Leads.meets_bind (Q := fun _ _ => True)
    (hmapping.mono (fun _ _ ht => ⟨ht.covers, trivial⟩) fun _ _ ht => ht.covers) fun _ t _ _ => ?_
  refine ((steady_shiftReferences os _ _).covers.bind fun _ => ?_) t
  exact covers_modifyCtx fun _ _ => sub64_lt _ _

theorem covers_reallocGrow {k sizeofT start req pages : ℕ} (h₀ : s.ctx.pfns_num_ < 2 ^ 64)
    (hs : start < 2 ^ 64) (h₁ : u64 (sub64 s.ctx.pfns_num_ start + sub64 req pages) ≠ 0) :
    Meets (reallocGrow os k sizeofT start req pages) s (fun _ => Covers s) fun _ => Covers s := by
  have hmapping : Meets (growMapping os k sizeofT start req pages) s (fun _ => Steady s)
      fun _ => Steady s := by
    refine (steady_growFrames os start req pages).meets_then fun _ t ht => ?_
    refine Leads.meets_bind (Q := fun _ _ => True)
      ((steady_growRemap (by rwa [ht.pfns_num]) hs (by rwa [ht.pfns_num])).imp
        fun _ _ hv => ⟨hv, trivial⟩) fun _ u _ _ => ?_
    exact ((steady_copyGuest os k _ _).bind fun _ => steady_updateStruct os k sizeofT req) u
  refine Leads.meets_bind (Q := fun _ _ => True)
    (hmapping.mono (fun _ _ ht => ⟨ht.covers, trivial⟩) fun _ _ ht => ht.covers) fun _ t _ _ => ?_
  refine ((steady_shiftReferences os _ _).covers.bind fun _ => ?_) t
  exact covers_modifyCtx fun _ _ => u64_lt _

theorem pagesOf_pos {L : List Container} {d : Container} {j : ℕ} (hd : L[j]? = some d)
    (hpos : 0 < d.nbrOfPages os) : 0 < pagesOf os L := by
  rw [pagesOf_eq hd]
  omega

theorem Owned.pages_left {L : List Container} {l : Container} {k req : ℕ} (ho : Owned os s L)
    (hl : L[k]? = some l) (hreq : req ≤ 2 ^ 63)
    (hleave : req < l.nbrOfPages os →
      0 < req ∨ ∃ j d, k < j ∧ L[j]? = some d ∧ 0 < d.nbrOfPages os) :
    (req < l.nbrOfPages os → sub64 s.ctx.pfns_num_ (pagesOf os (L.take k)) ≠ 0 ∧
      sub64 (sub64 s.ctx.pfns_num_ (pagesOf os (L.take k))) (sub64 (l.nbrOfPages os) req) ≠ 0) ∧
    (l.nbrOfPages os < req →
      u64 (sub64 s.ctx.pfns_num_ (pagesOf os (L.take k)) + sub64 req (l.nbrOfPages os)) ≠ 0) := by
  have hpages := ho.pages
  have hwords := ho.words
  rw [pagesOf_eq hl] at hpages
  rw [sub64_of_le (show pagesOf os (L.take k) ≤ s.ctx.pfns_num_ by omega) (by omega)]
  constructor
  · intro hlt
    rw [sub64_of_le hlt.le (by omega), sub64_of_le (by omega) (by omega)]
    rcases hleave hlt with hpos | ⟨j, d, hj, hd, hpos⟩
    · omega
    · -- the later container is one of those behind
      obtain ⟨i, rfl⟩ := Nat.exists_eq_add_of_le (show k + 1 ≤ j from hj)
      rw [← List.getElem?_drop] at hd
      have := pagesOf_pos hd hpos
      omega
  · intro hlt
    rw [sub64_of_le hlt.le (by omega), u64_of_lt (by omega)]
    omega

theorem covers_ContainerRealloc {user : PtrLoc} {sizeofT n : ℕ}
    (hok : LeavesOwned os s (.vcrealloc user sizeofT n)) :
    Meets (ContainerRealloc os user sizeofT n) s (fun _ => Covers s) fun _ => Covers s := by
  obtain ⟨⟨L, ho⟩, hleave⟩ := hok
  have hpages := ho.pages
  have hwords := ho.words
  rw [ContainerRealloc, meets_bind, loadPtr]
  refine meets_fetch_cases (fun elem helem => ?_) (refl_of Covers s)
  rw [meets_bind]
  refine meets_lookup_cases (fun r hr => ?_) fun _ => refl_of Covers s
  cases r with
  | none => exact Leads.throw _ s
  | some k =>
    dsimp only
    rw [ContainerReallocAt, meets_bind]
    refine meets_getPFNsPosition_cases (fun start hstart _ => ?_) fun _ => refl_of Covers s
    rw [meets_bind]
    refine meets_containerAt_cases (fun l hl => ?_) fun _ => refl_of Covers s
    rw [ho.reads.container?_eq] at hl
    -- the position is the number of pages before the container
    have hk := (List.getElem?_eq_some_iff.mp hl).1.le
    have hposition : Meets (getPFNsPosition os 0 k) s (fun a _ => a = pagesOf os (L.take k))
        fun _ _ => True := ho.reads.meets_getPFNsPosition hk (by omega) rfl
    obtain rfl := hposition.of_value hstart
    have hle := pagesOf_take_le os L hk
    rw [List.take_length] at hle
    obtain ⟨hshrink, hgrow⟩ := ho.pages_left hl (requestedPages_le_word)
      (hleave L elem k l ho.reads helem hr hl)
    dsimp only
    refine meets_ite (fun h => ?_) fun _ => meets_ite (fun h => ?_) fun _ => Leads.pure _ s
    · exact covers_reallocShrink (hshrink h).1 (hshrink h).2
    · exact covers_reallocGrow (by omega) (by omega) (hgrow h)

end Calls

section Realloc2

variable {os : OS} {s : State}

theorem steady_keepPages (v : Pass) (pages : ℕ) : Leads Steady (keepPages os v pages) :=
  (Leads.of_eq (leads_fetch _ _)).bind fun _ => (steady_moveReference os _ _).bind fun _ => .pure _

theorem covers_shrinkPages (sizeofT : ℕ) (v : Pass) (i : ℕ) (it : Container) (req : ℕ) :
    Leads Covers (shrinkPages os sizeofT v i it req) := by
  refine (steady_memmove os _ _ _).covers.bind fun _ => (Leads.of_eq (leads_fetch _ _)).bind fun _ => ?_
  refine (Leads.of_eq (leads_fetch _ _)).bind fun _ => (steady_setElements _ _).covers.bind fun _ => ?_
  refine (steady_moveReference os _ _).covers.bind fun _ => (covers_modifyCtx ?_).bind fun _ => .pure _
  exact fun _ _ => sub64_lt _ _

theorem covers_shrinkRound (sizeofT : ℕ) (v : Pass) (i : ℕ) :
    Leads Covers (shrinkRound os sizeofT v i) := by
  refine (Leads.of_eq (leads_fetch _ _)).bind fun n => (Leads.of_eq (leads_containerAt os _)).bind fun it => ?_
  refine .ite (steady_keepPages _ _).covers (.ite (steady_keepPages _ _).covers ?_)
  exact .ite (steady_keepPages _ _).covers (covers_shrinkPages _ _ _ _ _)

theorem covers_growPages (sizeofT copy_buffer : ℕ) (v : Pass) (it : Container) (req : ℕ) :
    Leads Covers (growPages os sizeofT copy_buffer v it req) := by
  refine (Leads.of_eq (leads_fetch _ _)).bind fun staged => ?_
  refine (steady_MapUserPhysicalPages os _ _ Nat.one_ne_zero).covers.bind fun _ => ?_
  refine (steady_ensure _ _).covers.bind fun _ => (steady_memmove os _ _ _).covers.bind fun _ => ?_
  refine (Leads.of_eq (leads_fetch _ _)).bind fun _ => (Leads.of_eq (leads_fetch _ _)).bind fun _ => ?_
  refine (steady_MapUserPhysicalPages os _ _ Nat.one_ne_zero).covers.bind fun _ => ?_
  refine (steady_ensure _ _).covers.bind fun _ => (steady_setElements _ _).covers.bind fun _ => ?_
  refine (steady_moveReference os _ _).covers.bind fun _ => (covers_modifyCtx ?_).bind fun _ => .pure _
  exact fun _ _ => u64_lt _

theorem covers_growRound (sizeofT copy_buffer : ℕ) (v : Pass) (i : ℕ) :
    Leads Covers (growRound os sizeofT copy_buffer v i) := by
  refine (Leads.of_eq (leads_fetch _ _)).bind fun n => (Leads.of_eq (leads_containerAt os _)).bind fun it => ?_
  refine .ite (steady_keepPages _ _).covers (.ite (steady_keepPages _ _).covers ?_)
  exact .ite (covers_growPages _ _ _ _ _) (.pure _)

/-- Both requests are made only when there is a page. -/
theorem steady_commitPages {start startPFNsIdx startNumberOfPFNs post : ℕ} (v : Pass)
    (unmapMessage mapMessage : String) (hs : startPFNsIdx < 2 ^ 64)
    (hn : startNumberOfPFNs < 2 ^ 64) :
    Leads Steady (commitPages os start startPFNsIdx startNumberOfPFNs post v unmapMessage
      mapMessage) := by
  refine (Leads.of_eq (leads_fetch _ _)).bind fun _ => (Leads.of_eq (leads_fetch _ _)).bind fun _ => ?_
  refine (steady_modifyCtx ?_).bind fun _ => (leads_onlyIf fun hne => ?_).bind fun _ =>
    (leads_onlyIf fun hne => ?_).bind fun _ => .pure _
  · exact fun _ => rfl
  · refine (Leads.of_eq (leads_containerAt os _)).bind fun _ => ?_
    refine (steady_MapUserPhysicalPages os _ _ ?_).bind fun _ => steady_ensure _ _
    rw [sub64]
    omega
  · refine (Leads.of_eq (leads_containerAt os _)).bind fun _ => ?_
    refine (Leads.of_eq (leads_readPFNs _ _)).bind fun _ => ?_
    exact (steady_MapUserPhysicalPages os _ _ hne).bind fun _ => steady_ensure _ _

theorem covers_shrinkPass {sizeofT start startPFNsIdx startNumberOfPFNs size : ℕ} (v : Pass)
    (hs : startPFNsIdx < 2 ^ 64) (hn : startNumberOfPFNs < 2 ^ 64) :
    Leads Covers (shrinkPass os sizeofT start startPFNsIdx startNumberOfPFNs size v) := by
  refine (Leads.foldlM (fun _ _ => covers_shrinkRound _ _ _) _ _).bind fun v => ?_
  refine (steady_shiftReferences os _ _).covers.bind fun _ => ?_
  refine (steady_commitPages _ _ _ hs hn).covers.bind fun v => ?_
  exact (steady_HeapFree os).covers.bind fun _ => (steady_ensure _ _).covers.bind fun _ => .pure _

theorem steady_freeSpare (v : Pass) : Leads Steady (freeSpare os v) := by
  refine .ite ((Leads.of_eq (leads_fetch _ _)).bind fun fs => ?_) (.pure _)
  refine (steady_FreeUserPhysicalPages os fs).bind fun r => ?_
  exact (steady_ensure _ _).bind fun _ => steady_ensure _ _

theorem steady_topUpSpare (v : Pass) : Leads Steady (topUpSpare os v) := by
  refine .ite ((steady_HeapReAlloc os _ _).bind fun block => ?_) (.pure _)
  refine (steady_AllocateUserPhysicalPages os _).bind fun r => ?_
  refine (Leads.of_eq (leads_fetch _ _)).bind fun _ => (steady_ensure _ _).bind fun _ => ?_
  exact (steady_ensure _ _).bind fun _ => .pure _

theorem covers_growPass {sizeofT start startPFNsIdx startNumberOfPFNs size post : ℕ} (v : Pass)
    (hs : startPFNsIdx < 2 ^ 64) (hn : startNumberOfPFNs < 2 ^ 64) :
    Leads Covers (growPass os sizeofT start startPFNsIdx startNumberOfPFNs size post v) := by
  refine (steady_topUpSpare v).covers.bind fun v => (Leads.of_eq leads_getCtx).bind fun ctx => ?_
  refine (steady_HeapAlloc os _).covers.bind fun temp => (steady_reserveCall os _ _).covers.bind fun _ => ?_
  refine (steady_AssertPfnsStorage os _).covers.bind fun _ => ?_
  refine (Leads.foldlM (fun _ _ => covers_growRound _ _ _ _) _ _).bind fun v => ?_
  refine (steady_shiftReferences os _ _).covers.bind fun _ => ?_
  refine (steady_commitPages _ _ _ hs hn).covers.bind fun v => ?_
  refine (steady_HeapFree os).covers.bind fun _ => (steady_ensure _ _).covers.bind fun _ => ?_
  exact (steady_releaseCall os _).covers.bind fun _ => (steady_ensure _ _).covers

theorem covers_ContainerRealloc2 (user : PtrLoc) (sizeofT : ℕ) (array : List ℕ) :
    Leads Covers (ContainerRealloc2 os user sizeofT array) := by
  have hblocks : Leads Covers (reallocBlocks os) :=
    (Leads.of_eq leads_getCtx).bind fun _ => (steady_HeapAlloc os _).covers.bind fun _ =>
      (steady_HeapAlloc os _).covers.bind fun _ => .pure _
  refine hblocks.bind fun blocks => (Leads.of_eq (leads_loadPtr os _)).bind fun elem => ?_
  refine (Leads.of_eq (leads_lookup os elem)).bind fun r => ?_
  cases r with
  | none => exact .throw _
  | some start =>
    refine fun s => meets_covers fun hw => ?_
    dsimp only
    rw [ContainerRealloc2At, meets_bind]
    refine meets_getPFNsPosition_cases (fun startPFNsIdx _ hlt => ?_) fun _ => refl_of Covers s
    rw [meets_bind, meets_getCtx]
    refine ((covers_shrinkPass _ hlt hw).bind fun v => ?_) s
    refine (steady_freeSpare v).covers.bind fun _ => (leads_onlyIf fun _ => ?_).bind fun _ => ?_
    · exact covers_growPass _ hlt hw
    · exact (steady_HeapFree os).covers.bind fun _ => (steady_ensure _ _).covers

end Realloc2

section Runs

variable {os : OS} {base : ℕ} {s₀ s : State} {calls : List Call} {call : Call}

theorem covers_run (hok : LeavesOwned os s call) : Covers s (endState (call.run os base s)) := by
  cases call with
  | vcmalloc user sizeofT n => exact (covers_ContainerAlloc base user sizeofT n).endState s
  | vcrealloc user sizeofT n => exact meets_same_iff.mp (covers_ContainerRealloc hok)
  | vcrealloc2 user sizeofT array => exact (covers_ContainerRealloc2 user sizeofT array).endState s

theorem Counted.owned {lo hi : ℕ} {cs : List ContainerContext} {st : List Frame} {L : List Container}
    (hc : Counted os s lo hi cs st L) : Owned os s L where
  reads := hc.views'.reads
  pages := hc.pages
  words := by
    have h₁ := hc.core.num
    have h₂ := hc.core.words
    omega

end Runs

end VcmallocBench
