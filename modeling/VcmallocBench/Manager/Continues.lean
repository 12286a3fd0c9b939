import VcmallocBench.HyperContainer.Effects
import VcmallocBench.HyperContainer.Calls

/-! # What every call leaves alone

No operation on a hypercontainer changes the size of its address range, and the
calls made to the system are only added to, whether the operation returns or not.
-/

namespace VcmallocBench

/-- The hypercontainer is as large as before, and calls have only been added to those made. -/
structure Continues (s t : State) : Prop where
  size : t.ctx.hypercontainer_size_ = s.ctx.hypercontainer_size_
  calls : s.mach.calls <:+ t.mach.calls

instance : Std.Refl Continues := ⟨fun _ => ⟨rfl, List.suffix_rfl⟩⟩

instance : IsTrans State Continues where
  trans _ _ _ h₁ h₂ := ⟨h₂.size.trans h₁.size, h₁.calls.trans h₂.calls⟩

section Primitives

variable (os : OS)

theorem continues_osCall {α : Type} {f : Machine → α × Machine}
    (h : ∀ m : Machine, ∃ c, (f m).2.calls = c :: m.calls) : Leads Continues (osCall f) := by
  refine leads_osCall fun s => ⟨rfl, ?_⟩
  obtain ⟨c, hc⟩ := h s.mach
  exact hc ▸ List.suffix_cons c _

theorem continues_heapCall (bytes : ℕ) : Leads Continues (osCall (·.heapCall os bytes)) :=
  continues_osCall fun _ => ⟨_, rfl⟩

theorem continues_HeapAlloc (bytes : ℕ) : Leads Continues (HeapAlloc os bytes) :=
  (continues_heapCall os bytes).bind fun _ => .pure _

theorem continues_HeapFree : Leads Continues (HeapFree os) := continues_osCall fun _ => ⟨_, rfl⟩

theorem continues_HeapReAlloc (block : List Frame) (bytes : ℕ) :
    Leads Continues (HeapReAlloc os block bytes) :=
  (continues_heapCall os bytes).bind fun _ => .pure _

theorem continues_FreeUserPhysicalPages (fs : List Frame) :
    Leads Continues (FreeUserPhysicalPages os fs) := continues_osCall fun _ => ⟨_, rfl⟩

theorem continues_AllocateUserPhysicalPages (n : ℕ) :
    Leads Continues (AllocateUserPhysicalPages os n) := by
  refine continues_osCall fun m => ?_
  unfold Machine.allocateCall
  dsimp only
  split
  · exact ⟨_, rfl⟩
  · exact ⟨_, rfl⟩

theorem continues_MapUserPhysicalPages (a n : ℕ) (fs : Option (List Frame)) :
    Leads Continues (MapUserPhysicalPages os a n fs) := continues_osCall fun _ => ⟨_, rfl⟩

theorem continues_reserveCall (requested size : ℕ) :
    Leads Continues (osCall (·.reserveCall os requested size)) := by
  refine continues_osCall fun m => ?_
  unfold Machine.reserveCall
  dsimp only
  split
  · exact ⟨_, rfl⟩
  · exact ⟨_, rfl⟩

theorem continues_releaseCall (address : ℕ) : Leads Continues (osCall (·.releaseCall os address)) :=
  continues_osCall fun _ => ⟨_, rfl⟩

theorem continues_ensure (ok : Bool) (message : String) : Leads Continues (ensure ok message) :=
  .of_eq (leads_ensure ok message)

theorem continues_storePtr (l : PtrLoc) (v : ℕ) : Leads Continues (storePtr os l v) :=
  leads_onMachine _ fun _ _ hm => ⟨rfl, (assign_fields hm).2.2.2 ▸ List.suffix_rfl⟩

theorem continues_memmove (dst src n : ℕ) : Leads Continues (memmove os dst src n) := by
  refine leads_onMachine _ fun s m hm => ?_
  obtain ⟨d, rfl⟩ := Machine.memmove_some hm
  exact ⟨rfl, List.suffix_rfl⟩

theorem continues_modifyCtx {f : HyperContainerContext → HyperContainerContext}
    (h : ∀ ctx, (f ctx).hypercontainer_size_ = ctx.hypercontainer_size_) :
    Leads Continues (modifyCtx f) := leads_modifyCtx fun s => ⟨h s.ctx, List.suffix_rfl⟩

theorem continues_writeContext (k : ℕ) (c : ContainerContext) : Leads Continues (writeContext k c) :=
  leads_writeContext k c fun _ _ => ⟨rfl, List.suffix_rfl⟩

theorem continues_setElements (k n : ℕ) : Leads Continues (setElements k n) :=
  (Leads.of_eq (leads_contextAt k)).bind fun _ => continues_writeContext _ _

theorem continues_writePFNs (i : ℕ) (fs : List Frame) : Leads Continues (writePFNs i fs) :=
  (Leads.of_eq (leads_fetch _ _)).bind fun _ => continues_modifyCtx fun _ => rfl

theorem continues_movePFNs (dst src n : ℕ) : Leads Continues (movePFNs dst src n) :=
  (Leads.of_eq (leads_fetch _ _)).bind fun _ => continues_modifyCtx fun _ => rfl

theorem continues_AssertPfnsStorage (n : ℕ) : Leads Continues (AssertPfnsStorage os n) := by
  refine (Leads.of_eq leads_getCtx).bind fun ctx => .ite ?_ (.pure _)
  refine (Leads.of_eq (leads_fetch _ _)).bind fun _ => (continues_HeapReAlloc os _ _).bind fun _ => ?_
  refine (continues_modifyCtx ?_).bind fun _ => (continues_ensure _ _).bind fun _ =>
    continues_modifyCtx ?_
  · exact fun _ => rfl
  · exact fun _ => rfl

theorem continues_AssertContainerContextStorage (n : ℕ) :
    Leads Continues (AssertContainerContextStorage os n) := by
  refine (Leads.of_eq leads_getCtx).bind fun ctx => .ite ?_ (.pure _)
  refine (Leads.of_eq (leads_fetch _ _)).bind fun _ => (continues_heapCall os _).bind fun _ => ?_
  refine (continues_modifyCtx ?_).bind fun _ => (continues_ensure _ _).bind fun _ =>
    continues_modifyCtx ?_
  · exact fun _ => rfl
  · exact fun _ => rfl

theorem continues_moveReference (k delta : ℕ) : Leads Continues (moveReference os k delta) :=
  (Leads.of_eq (leads_contextAt k)).bind fun _ => (Leads.of_eq (leads_loadPtr os _)).bind fun _ =>
    continues_storePtr os _ _

theorem continues_shiftReferences (start delta : ℕ) :
    Leads Continues (shiftReferences os start delta) :=
  (Leads.of_eq leads_getCtx).bind fun _ => .forM (fun _ => continues_moveReference os _ _) _

end Primitives

section Calls

variable (os : OS)

theorem continues_allocPages (a req : ℕ) : Leads Continues (allocPages os a req) := by
  refine (continues_AssertPfnsStorage os req).bind fun _ => (Leads.of_eq leads_getCtx).bind fun ctx => ?_
  refine (continues_AllocateUserPhysicalPages os req).bind fun r => ?_
  refine (continues_writePFNs _ _).bind fun _ => (continues_ensure _ _).bind fun _ => ?_
  refine (continues_ensure _ _).bind fun _ => Leads.bind (leads_onlyIf fun _ => ?_) fun _ =>
    continues_modifyCtx fun _ => rfl
  refine (Leads.of_eq (leads_readPFNs _ _)).bind fun _ => ?_
  exact (continues_MapUserPhysicalPages os _ _ _).bind fun _ => continues_ensure _ _

theorem continues_ContainerAlloc (base : ℕ) (user : PtrLoc) (sizeofT n : ℕ) :
    Leads Continues (ContainerAlloc os base user sizeofT n) := by
  refine (Leads.of_eq (leads_nextSlot os base)).bind fun slot => Leads.bind ?_ fun _ =>
    (continues_storePtr os _ _).bind fun _ => .ite (.pure _) (continues_allocPages os _ _)
  refine (continues_AssertContainerContextStorage os 1).bind fun _ => (continues_modifyCtx ?_).bind fun _ =>
    (Leads.of_eq leads_getCtx).bind fun _ => continues_writeContext _ _
  exact fun _ => rfl

theorem continues_copyGuest (k : ℕ) (dst : ℕ → ℕ) (message : String) :
    Leads Continues (copyGuest os k dst message) :=
  (Leads.of_eq (leads_containerAt os k)).bind fun _ => (continues_memmove os _ _ _).bind fun _ =>
    continues_ensure _ _

theorem continues_updateStruct (k sizeofT pages : ℕ) :
    Leads Continues (updateStruct os k sizeofT pages) :=
  (Leads.of_eq (leads_containerAt os k)).bind fun _ => continues_setElements _ _

theorem continues_remap (k pages start : ℕ) (message : String) : Leads Continues (do
    let c ← containerAt os k
    let PFNs ← readPFNs start pages
    let ok ← MapUserPhysicalPages os (c.mappingAddress os) pages (some PFNs)
    ensure ok message) := by
  refine (Leads.of_eq (leads_containerAt os k)).bind fun l => ?_
  refine (Leads.of_eq (leads_readPFNs _ _)).bind fun _ => ?_
  exact (continues_MapUserPhysicalPages os _ _ _).bind fun _ => continues_ensure _ _

theorem continues_unmap (k pages : ℕ) (message : String) : Leads Continues (do
    let c ← containerAt os k
    let ok ← MapUserPhysicalPages os (c.mappingAddress os) pages none
    ensure ok message) := by
  refine (Leads.of_eq (leads_containerAt os k)).bind fun l => ?_
  exact (continues_MapUserPhysicalPages os _ _ _).bind fun _ => continues_ensure _ _

theorem continues_reallocShrink (k sizeofT start req pages : ℕ) :
    Leads Continues (reallocShrink os k sizeofT start req pages) := by
  have hframes : Leads Continues (shrinkFrames os start req pages) := by
    refine (Leads.of_eq (leads_readPFNs _ _)).bind fun fs => ?_
    refine (continues_FreeUserPhysicalPages os fs).bind fun r => ?_
    refine (continues_ensure _ _).bind fun _ => (continues_ensure _ _).bind fun _ => ?_
    exact (Leads.of_eq leads_getCtx).bind fun _ => continues_movePFNs _ _ _
  have hremap : Leads Continues (shrinkRemap os k start (sub64 pages req)) := by
    refine (Leads.of_eq leads_getCtx).bind fun ctx => (Leads.of_eq (leads_containerAt os k)).bind fun l => ?_
    refine (continues_MapUserPhysicalPages os _ _ _).bind fun _ => (continues_ensure _ _).bind fun _ => ?_
    exact continues_remap os _ _ _ _
  refine Leads.bind ((continues_copyGuest os k _ _).bind fun _ => hframes.bind fun _ =>
    hremap.bind fun _ => continues_updateStruct os k sizeofT req) fun _ => ?_
  exact (continues_shiftReferences os _ _).bind fun _ => continues_modifyCtx fun _ => rfl

theorem continues_reallocGrow (k sizeofT start req pages : ℕ) :
    Leads Continues (reallocGrow os k sizeofT start req pages) := by
  have hframes : Leads Continues (growFrames os start req pages) := by
    refine (continues_AssertPfnsStorage os _).bind fun _ => (Leads.of_eq leads_getCtx).bind fun ctx => ?_
    refine (continues_movePFNs _ _ _).bind fun _ => (continues_AllocateUserPhysicalPages os _).bind fun r => ?_
    exact (continues_writePFNs _ _).bind fun _ => (continues_ensure _ _).bind fun _ => continues_ensure _ _
  have hremap : Leads Continues (growRemap os k start (sub64 req pages)) :=
    (Leads.of_eq leads_getCtx).bind fun ctx => Leads.bind (leads_onlyIf fun _ => continues_unmap os _ _ _)
      fun _ => continues_remap os _ _ _ _
  refine Leads.bind (hframes.bind fun _ => hremap.bind fun _ => (continues_copyGuest os k _ _).bind fun _ =>
    continues_updateStruct os k sizeofT req) fun _ => ?_
  exact (continues_shiftReferences os _ _).bind fun _ => continues_modifyCtx fun _ => rfl

theorem continues_ContainerRealloc (user : PtrLoc) (sizeofT n : ℕ) :
    Leads Continues (ContainerRealloc os user sizeofT n) := by
  refine (Leads.of_eq (leads_loadPtr os user)).bind fun elem => ?_
  refine (Leads.of_eq (leads_lookup os elem)).bind fun r => ?_
  cases r with
  | none => exact .throw _
  | some k =>
    refine (Leads.of_eq (leads_getPFNsPosition os 0 k)).bind fun start => ?_
    refine (Leads.of_eq (leads_containerAt os k)).bind fun l => ?_
    exact .ite (continues_reallocShrink os _ _ _ _ _) (.ite (continues_reallocGrow os _ _ _ _ _) (.pure _))

end Calls

section Realloc2

variable (os : OS)

theorem continues_keepPages (v : Pass) (pages : ℕ) : Leads Continues (keepPages os v pages) :=
  (Leads.of_eq (leads_fetch _ _)).bind fun _ => (continues_moveReference os _ _).bind fun _ => .pure _

theorem continues_shrinkPages (sizeofT : ℕ) (v : Pass) (i : ℕ) (it : Container) (req : ℕ) :
    Leads Continues (shrinkPages os sizeofT v i it req) := by
  refine (continues_memmove os _ _ _).bind fun _ => (Leads.of_eq (leads_fetch _ _)).bind fun _ => ?_
  refine (Leads.of_eq (leads_fetch _ _)).bind fun _ => (continues_setElements _ _).bind fun _ => ?_
  refine (continues_moveReference os _ _).bind fun _ => (continues_modifyCtx ?_).bind fun _ => .pure _
  exact fun _ => rfl

theorem continues_growPages (sizeofT copy_buffer : ℕ) (v : Pass) (it : Container) (req : ℕ) :
    Leads Continues (growPages os sizeofT copy_buffer v it req) := by
  refine (Leads.of_eq (leads_fetch _ _)).bind fun staged => ?_
  refine (continues_MapUserPhysicalPages os _ _ _).bind fun _ => (continues_ensure _ _).bind fun _ => ?_
  refine (continues_memmove os _ _ _).bind fun _ => (Leads.of_eq (leads_fetch _ _)).bind fun _ => ?_
  refine (Leads.of_eq (leads_fetch _ _)).bind fun _ => (continues_MapUserPhysicalPages os _ _ _).bind fun _ => ?_
  refine (continues_ensure _ _).bind fun _ => (continues_setElements _ _).bind fun _ => ?_
  refine (continues_moveReference os _ _).bind fun _ => (continues_modifyCtx ?_).bind fun _ => .pure _
  exact fun _ => rfl

theorem continues_shrinkRound (sizeofT : ℕ) (v : Pass) (i : ℕ) :
    Leads Continues (shrinkRound os sizeofT v i) := by
  refine (Leads.of_eq (leads_fetch _ _)).bind fun n => (Leads.of_eq (leads_containerAt os _)).bind fun it => ?_
  refine .ite (continues_keepPages os _ _) (.ite (continues_keepPages os _ _) ?_)
  exact .ite (continues_keepPages os _ _) (continues_shrinkPages os _ _ _ _ _)

theorem continues_growRound (sizeofT copy_buffer : ℕ) (v : Pass) (i : ℕ) :
    Leads Continues (growRound os sizeofT copy_buffer v i) := by
  refine (Leads.of_eq (leads_fetch _ _)).bind fun n => (Leads.of_eq (leads_containerAt os _)).bind fun it => ?_
  refine .ite (continues_keepPages os _ _) (.ite (continues_keepPages os _ _) ?_)
  exact .ite (continues_growPages os _ _ _ _ _) (.pure _)

theorem continues_commitPages (start startPFNsIdx startNumberOfPFNs post : ℕ) (v : Pass)
    (unmapMessage mapMessage : String) :
    Leads Continues (commitPages os start startPFNsIdx startNumberOfPFNs post v unmapMessage
      mapMessage) := by
  refine (Leads.of_eq (leads_fetch _ _)).bind fun _ => (Leads.of_eq (leads_fetch _ _)).bind fun _ => ?_
  refine (continues_modifyCtx ?_).bind fun _ => (leads_onlyIf fun _ => continues_unmap os _ _ _).bind fun _ =>
    (leads_onlyIf fun _ => continues_remap os _ _ _ _).bind fun _ => .pure _
  exact fun _ => rfl

theorem continues_shrinkPass (sizeofT start startPFNsIdx startNumberOfPFNs size : ℕ) (v : Pass) :
    Leads Continues (shrinkPass os sizeofT start startPFNsIdx startNumberOfPFNs size v) := by
  refine (Leads.foldlM (fun _ _ => continues_shrinkRound os _ _ _) _ _).bind fun v => ?_
  refine (continues_shiftReferences os _ _).bind fun _ => (continues_commitPages os _ _ _ _ _ _ _).bind fun v => ?_
  exact (continues_HeapFree os).bind fun _ => (continues_ensure _ _).bind fun _ => .pure _

theorem continues_freeSpare (v : Pass) : Leads Continues (freeSpare os v) := by
  refine .ite ((Leads.of_eq (leads_fetch _ _)).bind fun fs => ?_) (.pure _)
  refine (continues_FreeUserPhysicalPages os fs).bind fun r => ?_
  exact (continues_ensure _ _).bind fun _ => continues_ensure _ _

theorem continues_topUpSpare (v : Pass) : Leads Continues (topUpSpare os v) := by
  refine .ite ((continues_HeapReAlloc os _ _).bind fun block => ?_) (.pure _)
  refine (continues_AllocateUserPhysicalPages os _).bind fun r => ?_
  refine (Leads.of_eq (leads_fetch _ _)).bind fun _ => (continues_ensure _ _).bind fun _ => ?_
  exact (continues_ensure _ _).bind fun _ => .pure _

theorem continues_growPass (sizeofT start startPFNsIdx startNumberOfPFNs size post : ℕ) (v : Pass) :
    Leads Continues (growPass os sizeofT start startPFNsIdx startNumberOfPFNs size post v) := by
  refine (continues_topUpSpare os v).bind fun v => (Leads.of_eq leads_getCtx).bind fun ctx => ?_
  refine (continues_HeapAlloc os _).bind fun temp => (continues_reserveCall os _ _).bind fun _ => ?_
  refine (continues_AssertPfnsStorage os _).bind fun _ => ?_
  refine (Leads.foldlM (fun _ _ => continues_growRound os _ _ _ _) _ _).bind fun v => ?_
  refine (continues_shiftReferences os _ _).bind fun _ => (continues_commitPages os _ _ _ _ _ _ _).bind fun v => ?_
  refine (continues_HeapFree os).bind fun _ => (continues_ensure _ _).bind fun _ => ?_
  exact (continues_releaseCall os _).bind fun _ => continues_ensure _ _

theorem continues_ContainerRealloc2At (start sizeofT : ℕ) (spare temp : List Frame)
    (array : List ℕ) : Leads Continues (ContainerRealloc2At os start sizeofT spare temp array) := by
  refine (Leads.of_eq (leads_getPFNsPosition os 0 start)).bind fun startPFNsIdx => ?_
  refine (Leads.of_eq leads_getCtx).bind fun ctx => (continues_shrinkPass os _ _ _ _ _ _).bind fun v => ?_
  refine (continues_freeSpare os v).bind fun _ => ?_
  refine (leads_onlyIf fun _ => continues_growPass os _ _ _ _ _ _ _).bind fun _ => ?_
  exact (continues_HeapFree os).bind fun _ => continues_ensure _ _

theorem continues_ContainerRealloc2 (user : PtrLoc) (sizeofT : ℕ) (array : List ℕ) :
    Leads Continues (ContainerRealloc2 os user sizeofT array) := by
  have hblocks : Leads Continues (reallocBlocks os) :=
    (Leads.of_eq leads_getCtx).bind fun _ => (continues_HeapAlloc os _).bind fun _ =>
      (continues_HeapAlloc os _).bind fun _ => .pure _
  refine hblocks.bind fun blocks => (Leads.of_eq (leads_loadPtr os _)).bind fun elem => ?_
  refine (Leads.of_eq (leads_lookup os elem)).bind fun r => ?_
  cases r with
  | none => exact .throw _
  | some start => exact continues_ContainerRealloc2At os start sizeofT _ _ array

/-- No call changes the size of its hypercontainer. -/
theorem continues_run (base : ℕ) (call : Call) : Leads Continues (call.run os base) := by
  cases call with
  | vcmalloc user sizeofT n => exact continues_ContainerAlloc os base user sizeofT n
  | vcrealloc user sizeofT n => exact continues_ContainerRealloc os user sizeofT n
  | vcrealloc2 user sizeofT array => exact continues_ContainerRealloc2 os user sizeofT array

end Realloc2

end VcmallocBench
