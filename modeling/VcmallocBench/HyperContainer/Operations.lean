import VcmallocBench.HyperContainer.Context

/-! # Allocation and reallocation

`ContainerAlloc` appends a container, `ContainerRealloc` resizes one and moves
those after it, and `ContainerRealloc2` resizes consecutive containers in two
passes, first those that shrink and then those that grow.
-/

namespace VcmallocBench

variable (os : OS)

/-- `(int)x` of a double, widened to `SIZE_T`: out of range, the conversion yields `INT_MIN`. -/
def intCast (n : ℕ) : ℕ := if n < 2 ^ 31 then n else 2 ^ 64 - 2 ^ 31

section Alloc

/-- The part of `ContainerAlloc` that obtains and maps new pages. -/
def allocPages (mappingAddress requestedPages : ℕ) : Op Unit := do
  AssertPfnsStorage os requestedPages
  let ctx ← getCtx
  let (ok, allocatedPFNs) ← AllocateUserPhysicalPages os requestedPages
  writePFNs ctx.pfns_num_ allocatedPFNs
  ensure ok
    "vcmalloc: Physical Memory Allocation Error , Probably Physical Memory Unavailable"
  ensure (allocatedPFNs.length == requestedPages)
    "vcmalloc: Physical Memory Allocation Incomplete , Probably Physical Memory Unavailable"
  onlyIf (requestedPages ≠ 0) do
    let PFNs ← readPFNs ctx.pfns_num_ requestedPages
    let ok ← MapUserPhysicalPages os mappingAddress requestedPages (some PFNs)
    ensure ok "vcmalloc: MapUserPhysicalPages failed"
  modifyCtx fun ctx => { ctx with pfns_num_ := u64 (ctx.pfns_num_ + requestedPages) }

/-- Where the next container starts: its mapping address, its address, and the bytes it shares with
the last page. -/
def nextSlot (hypercontainer_address : ℕ) : Op (ℕ × ℕ × ℕ) := do
  let ctx ← getCtx
  if ctx.containers_num_ = 0 then pure (hypercontainer_address, hypercontainer_address, 0)
  else do
    let last ← containerAt os (ctx.containers_num_ - 1)
    pure (last.nextMappingAddress os, last.nextAddress, last.guestBytes os)

def ContainerAlloc (hypercontainer_address : ℕ) (user_pointer : PtrLoc)
    (sizeofT elements_num : ℕ) : Op Unit := do
  let requestedBytes := u64 (sizeofT * elements_num)
  let (mappingAddress, nextAddress, lastGuestBytes) ← nextSlot os hypercontainer_address
  insert os user_pointer sizeofT elements_num
  storePtr os user_pointer nextAddress
  if requestedBytes ≤ lastGuestBytes then pure ()
  else
    allocPages os mappingAddress (intCast (ceilPages os (sub64 requestedBytes lastGuestBytes)))

end Alloc

section Realloc

/-- Copy the guest bytes of a container to where it will end. -/
def copyGuest (k : ℕ) (dst : ℕ → ℕ) (message : String) : Op Unit := do
  let concerned ← containerAt os k
  let src := concerned.nextAddress
  memmove os (dst src) src (concerned.guestBytes os)
  ensure (dst src != 0) message

/-- Update the element count of a container that now has `requestedPages` pages. -/
def updateStruct (k sizeofT requestedPages : ℕ) : Op Unit := do
  let concerned ← containerAt os k
  setElements k (resizedElements os requestedPages (concerned.priorFreeBytes os)
    (concerned.guestBytes os) sizeofT)

/-- Free the last frames of a container and close the gap in the frame table. -/
def shrinkFrames (startPFNsIdx requestedPages pages : ℕ) : Op Unit := do
  let steps := sub64 pages requestedPages
  let freeIdx := u64 (startPFNsIdx + requestedPages)
  let toFree ← readPFNs freeIdx steps
  let (ok, pagesToFree) ← FreeUserPhysicalPages os toFree
  ensure ok "structRealloc: couldn't free remaining frames"
  ensure (pagesToFree == steps) "structRealloc: couldn't free all remaining frames"
  let ctx ← getCtx
  movePFNs freeIdx (u64 (startPFNsIdx + pages)) (sub64 (sub64 ctx.pfns_num_ startPFNsIdx) pages)

def shrinkRemap (k startPFNsIdx steps : ℕ) : Op Unit := do
  let behind := sub64 (← getCtx).pfns_num_ startPFNsIdx
  let concerned ← containerAt os k
  let ok ← MapUserPhysicalPages os (concerned.mappingAddress os) behind none
  ensure ok "structRealloc: couldn't unmap previous mappings"
  let concerned ← containerAt os k
  let PFNs ← readPFNs startPFNsIdx (sub64 behind steps)
  let ok ← MapUserPhysicalPages os (concerned.mappingAddress os) (sub64 behind steps) (some PFNs)
  ensure ok "structRealloc: couldn't map comitted deallocation changes"

/-- The shrinking branch of `ContainerRealloc`, up to the update of the references. -/
def shrinkMapping (k sizeofT startPFNsIdx requestedPages pages : ℕ) : Op Unit := do
  let steps := sub64 pages requestedPages
  copyGuest os k (fun next => sub64 next (u64 (steps * os.page_size)))
    "structRealloc: Coudln't copy guest bytes"
  shrinkFrames os startPFNsIdx requestedPages pages
  shrinkRemap os k startPFNsIdx steps
  updateStruct os k sizeofT requestedPages

/-- Open a gap in the frame table behind the frames of a container and allocate into it. -/
def growFrames (startPFNsIdx requestedPages pages : ℕ) : Op Unit := do
  let steps := sub64 requestedPages pages
  AssertPfnsStorage os steps
  let ctx ← getCtx
  movePFNs (u64 (startPFNsIdx + requestedPages)) (u64 (startPFNsIdx + pages))
    (sub64 (sub64 ctx.pfns_num_ startPFNsIdx) pages)
  let (ok, allocated) ← AllocateUserPhysicalPages os steps
  writePFNs (u64 (startPFNsIdx + pages)) allocated
  ensure ok "structRealloc: couldn't allocate additional required frames"
  ensure (allocated.length == steps)
    "structRealloc: couldn't allocate enough additional required frames"

def growRemap (k startPFNsIdx steps : ℕ) : Op Unit := do
  let ctx ← getCtx
  let behind := sub64 ctx.pfns_num_ startPFNsIdx
  onlyIf (ctx.pfns_num_ ≠ startPFNsIdx) do
    let concerned ← containerAt os k
    let ok ← MapUserPhysicalPages os (concerned.mappingAddress os) behind none
    ensure ok "structRealloc: couldn't unmap previous mappings"
  let concerned ← containerAt os k
  let PFNs ← readPFNs startPFNsIdx (u64 (behind + steps))
  let ok ← MapUserPhysicalPages os (concerned.mappingAddress os) (u64 (behind + steps)) (some PFNs)
  ensure ok "structRealloc: couldn't map comitted deallocation changes"

/-- The growing branch of `ContainerRealloc`, up to the update of the references. -/
def growMapping (k sizeofT startPFNsIdx requestedPages pages : ℕ) : Op Unit := do
  let steps := sub64 requestedPages pages
  growFrames os startPFNsIdx requestedPages pages
  growRemap os k startPFNsIdx steps
  copyGuest os k (fun next => u64 (next + u64 (steps * os.page_size)))
    "structRealloc: couldn't couldn't copy guest bytes"
  updateStruct os k sizeofT requestedPages

def reallocShrink (k sizeofT startPFNsIdx requestedPages pages : ℕ) : Op Unit := do
  let steps := sub64 pages requestedPages
  shrinkMapping os k sizeofT startPFNsIdx requestedPages pages
  -- post-reallocation structs updates
  shiftReferences os (k + 1) (sub64 0 (u64 (steps * os.page_size)))
  modifyCtx fun ctx => { ctx with pfns_num_ := sub64 ctx.pfns_num_ steps }

def reallocGrow (k sizeofT startPFNsIdx requestedPages pages : ℕ) : Op Unit := do
  let steps := sub64 requestedPages pages
  growMapping os k sizeofT startPFNsIdx requestedPages pages
  -- update post-reallocation structs
  shiftReferences os (k + 1) (u64 (steps * os.page_size))
  modifyCtx fun ctx => { ctx with pfns_num_ := u64 (ctx.pfns_num_ + steps) }

/-- `ContainerRealloc` of the container found at index `k`. -/
def ContainerReallocAt (k sizeofT newSize : ℕ) : Op Unit := do
  let startPFNsIdx ← getPFNsPosition os 0 k
  let concerned ← containerAt os k
  let requestedPages := concerned.requestedPages os sizeofT newSize
  let pages := concerned.nbrOfPages os
  if requestedPages < pages then reallocShrink os k sizeofT startPFNsIdx requestedPages pages
  else if pages < requestedPages then reallocGrow os k sizeofT startPFNsIdx requestedPages pages
  else pure ()

def ContainerRealloc (user_pointer : PtrLoc) (sizeofT newSize : ℕ) : Op Unit := do
  let elem ← loadPtr os user_pointer
  match ← lookup os elem with
  | none => throw (.thrown "vcrealloc: Data Structure not found")
  | some k => ContainerReallocAt os k sizeofT newSize

end Realloc

section Realloc2

/-- The variables of the two loops of `ContainerRealloc2`. -/
structure Pass where
  itStruct : ℕ
  PFNsIdx : ℕ
  tempPFNsIdx : ℕ
  steps : ℕ
  requested_pages : ℕ
  tempPFNs : List Frame
  sparePFNs : List Frame
  elements_num_array : List ℕ

/-- The entry that stands for keeping the container. -/
def keepEntry : ℕ := 2 ^ 64 - 1

/-- The branches that take over all pages of a container: its frames are copied, and its reference
moves down by the steps so far, in both loops. -/
def keepPages (v : Pass) (container_pages : ℕ) : Op Pass := do
  let temp ← fetch
    (fun s => blit s.ctx.frames v.PFNsIdx v.tempPFNs v.tempPFNsIdx container_pages) .bounds
  moveReference os v.itStruct (sub64 0 (u64 (v.steps * os.page_size)))
  return { v with
    tempPFNs := temp
    PFNsIdx := u64 (v.PFNsIdx + container_pages)
    tempPFNsIdx := u64 (v.tempPFNsIdx + container_pages)
    itStruct := v.itStruct + 1 }

/-- The branch of the first loop for a container that shrinks. -/
def shrinkPages (sizeofT : ℕ) (v : Pass) (i : ℕ) (it : Container) (requestedNumberOfPages : ℕ) :
    Op Pass := do
  let guest := it.guestBytes os
  let itSteps := sub64 (it.nbrOfPages os) requestedNumberOfPages
  let source := sub64 (it.nextMappingAddress os) guest
  let destination := sub64 source (u64 (itSteps * os.page_size))
  memmove os destination source guest
  let temp ← fetch
    (fun s => blit s.ctx.frames v.PFNsIdx v.tempPFNs v.tempPFNsIdx requestedNumberOfPages) .bounds
  let spare ← fetch (fun s => blit s.ctx.frames (u64 (v.PFNsIdx + requestedNumberOfPages))
    v.sparePFNs v.steps itSteps) .bounds
  setElements v.itStruct
    (resizedElements os requestedNumberOfPages (it.priorFreeBytes os) guest sizeofT)
  moveReference os v.itStruct (sub64 0 (u64 (v.steps * os.page_size)))
  modifyCtx fun ctx => { ctx with pfns_num_ := sub64 ctx.pfns_num_ itSteps }
  return { v with
    tempPFNs := temp
    sparePFNs := spare
    PFNsIdx := u64 (v.PFNsIdx + it.nbrOfPages os)
    tempPFNsIdx := u64 (v.tempPFNsIdx + requestedNumberOfPages)
    steps := u64 (v.steps + itSteps)
    elements_num_array := v.elements_num_array.set i keepEntry
    itStruct := v.itStruct + 1 }

/-- One round of the first loop. -/
def shrinkRound (sizeofT : ℕ) (v : Pass) (i : ℕ) : Op Pass := do
  let number_of_containers ← fetch (fun _ => v.elements_num_array[i]?) .bounds
  let it ← containerAt os v.itStruct
  let container_pages := it.nbrOfPages os
  if number_of_containers = it.elements_num_ ∨ number_of_containers = keepEntry then
    keepPages os v container_pages
  else
    let requestedNumberOfPages := it.requestedPages os sizeofT number_of_containers
    if requestedNumberOfPages = container_pages then keepPages os v container_pages
    else if container_pages < requestedNumberOfPages then
      let requested := u64 (v.requested_pages + sub64 requestedNumberOfPages container_pages)
      keepPages os { v with requested_pages := requested } container_pages
    else shrinkPages os sizeofT v i it requestedNumberOfPages

/-- The branch of the second loop for a container that grows. -/
def growPages (sizeofT copy_buffer : ℕ) (v : Pass) (it : Container)
    (requestedNumberOfPages : ℕ) : Op Pass := do
  let guest := it.guestBytes os
  let container_pages := it.nbrOfPages os
  let itSteps := sub64 requestedNumberOfPages container_pages
  let source := sub64 (it.nextMappingAddress os) guest
  let destination := u64 (copy_buffer + it.lastPageOffset os)
  let spareIdx := sub64 v.requested_pages itSteps
  let staged ← fetch (fun _ => readSlice v.sparePFNs spareIdx 1) .bounds
  let ok ← MapUserPhysicalPages os copy_buffer 1 (some staged)
  ensure ok "vcrealloc: failed to map guest destination"
  memmove os destination source guest
  let temp ← fetch
    (fun s => blit s.ctx.frames v.PFNsIdx v.tempPFNs v.tempPFNsIdx container_pages) .bounds
  let temp ← fetch
    (fun _ => blit v.sparePFNs spareIdx temp (u64 (v.tempPFNsIdx + container_pages)) itSteps) .bounds
  let ok ← MapUserPhysicalPages os copy_buffer 1 none
  ensure ok "vcrealloc: failed to ummap guest destination"
  setElements v.itStruct
    (resizedElements os requestedNumberOfPages (it.priorFreeBytes os) guest sizeofT)
  moveReference os v.itStruct (u64 (v.steps * os.page_size))
  modifyCtx fun ctx => { ctx with pfns_num_ := u64 (ctx.pfns_num_ + itSteps) }
  return { v with
    tempPFNs := temp
    PFNsIdx := u64 (v.PFNsIdx + container_pages)
    tempPFNsIdx := u64 (v.tempPFNsIdx + requestedNumberOfPages)
    requested_pages := spareIdx
    steps := u64 (v.steps + itSteps)
    itStruct := v.itStruct + 1 }

/-- One round of the second loop. A container that would still have to shrink is not advanced
over. -/
def growRound (sizeofT copy_buffer : ℕ) (v : Pass) (i : ℕ) : Op Pass := do
  let numberOfStructs ← fetch (fun _ => v.elements_num_array[i]?) .bounds
  let it ← containerAt os v.itStruct
  let container_pages := it.nbrOfPages os
  if numberOfStructs = it.elements_num_ ∨ numberOfStructs = keepEntry then
    keepPages os v container_pages
  else
    let requestedNumberOfPages := it.requestedPages os sizeofT numberOfStructs
    if requestedNumberOfPages = container_pages then keepPages os v container_pages
    else if container_pages < requestedNumberOfPages then
      growPages os sizeofT copy_buffer v it requestedNumberOfPages
    else pure v

/-- Copy the frames behind the listed containers, commit the new frame table from
`startPFNsIdx` on, and map it in place of the pages mapped at the start of the call. -/
def commitPages (start startPFNsIdx startNumberOfPFNs numberOfPostReallocPages : ℕ) (v : Pass)
    (unmapMessage mapMessage : String) : Op Pass := do
  let numberofPagesToCommit := u64 (v.tempPFNsIdx + numberOfPostReallocPages)
  let temp ← fetch (fun s => blit s.ctx.frames v.PFNsIdx v.tempPFNs v.tempPFNsIdx
    numberOfPostReallocPages) .bounds
  let block ← fetch (fun s => blit temp 0 s.ctx.frames startPFNsIdx numberofPagesToCommit) .bounds
  modifyCtx fun ctx => { ctx with pfns_storage_ := ctx.pfns_storage_.map fun _ => block }
  onlyIf (startNumberOfPFNs ≠ startPFNsIdx) do
    let c ← containerAt os start
    let ok ← MapUserPhysicalPages os (c.mappingAddress os) (sub64 startNumberOfPFNs startPFNsIdx)
      none
    ensure ok unmapMessage
  onlyIf (numberofPagesToCommit ≠ 0) do
    let c ← containerAt os start
    let PFNs ← readPFNs startPFNsIdx numberofPagesToCommit
    let ok ← MapUserPhysicalPages os (c.mappingAddress os) numberofPagesToCommit (some PFNs)
    ensure ok mapMessage
  return { v with tempPFNs := temp }

/-- The first pass: every listed container that shrinks is cut, and its frames become spare. -/
def shrinkPass (sizeofT start startPFNsIdx startNumberOfPFNs array_size : ℕ) (v : Pass) :
    Op Pass := do
  let v ← (List.range array_size).foldlM (shrinkRound os sizeofT) v
  shiftReferences os v.itStruct (sub64 0 (u64 (v.steps * os.page_size)))
  let v ← commitPages os start startPFNsIdx startNumberOfPFNs
    (sub64 startNumberOfPFNs v.PFNsIdx) v
    "vcrealloc: couldn't unmap previous mappings"
    "vcrealloc: couldn't map comitted deallocation changes"
  let ok ← HeapFree os
  ensure ok "vcrealloc: couldn't free the temporary PFNs array"
  return v

/-- Spare frames that no container asks for are given back. -/
def freeSpare (v : Pass) : Op Unit := do
  let remainingPages := int64 (sub64 v.steps v.requested_pages)
  if 0 < remainingPages then do
    let toFree ← fetch (fun _ => readSlice v.sparePFNs v.requested_pages remainingPages.toNat)
      .bounds
    let (ok, pagesToFree) ← FreeUserPhysicalPages os toFree
    ensure ok "vcrealloc: couldn't free remaining frames"
    ensure (pagesToFree == remainingPages.toNat) "vcrealloc: couldn't free all remaining frames"
  else pure ()

/-- Frames that the spare ones do not cover are allocated behind them. -/
def topUpSpare (v : Pass) : Op Pass := do
  let remainingPages := int64 (sub64 v.steps v.requested_pages)
  if remainingPages < 0 then do
    let pagesToAlloc := (-remainingPages).toNat
    let block ← HeapReAlloc os v.sparePFNs (u64 (u64 (v.steps + pagesToAlloc) * sizeofFrame))
    let (ok, allocated) ← AllocateUserPhysicalPages os pagesToAlloc
    let spare ← fetch (fun _ => blit allocated 0 (block.getD []) v.steps allocated.length) .bounds
    ensure ok "vcrealloc: couldn't allocate additional required frames"
    ensure (allocated.length == pagesToAlloc)
      "vcrealloc: couldn't allocate enough additional required frames"
    return { v with sparePFNs := spare }
  else pure v

/-- The second pass: every listed container that grows takes its frames from the end of the spare
ones. -/
def growPass (sizeofT start startPFNsIdx startNumberOfPFNs array_size numberOfPostReallocPages : ℕ)
    (v : Pass) : Op Unit := do
  let v ← topUpSpare os v
  let ctx ← getCtx
  let tempPFNs ← HeapAlloc os (u64 (u64 (ctx.pfns_num_ + v.requested_pages) * sizeofFrame))
  let copy_buffer ← osCall (·.reserveCall os 0 os.page_size)
  let copy_buffer := copy_buffer.getD 0
  AssertPfnsStorage os (u64 (ctx.pfns_num_ + v.requested_pages))
  let v ← (List.range array_size).foldlM (growRound os sizeofT copy_buffer) { v with
    itStruct := start
    PFNsIdx := startPFNsIdx
    tempPFNsIdx := 0
    steps := 0
    tempPFNs := tempPFNs }
  shiftReferences os v.itStruct (u64 (v.steps * os.page_size))
  let _ ← commitPages os start startPFNsIdx startNumberOfPFNs numberOfPostReallocPages v
    "vcrealloc: couldn't unmap old frames upon allocation"
    "vcrealloc: couldn't map comitted allocation changes"
  let ok ← HeapFree os
  ensure ok "vcrealloc: couldn't free the temporary PFNs array"
  let ok ← osCall (·.releaseCall os copy_buffer)
  ensure ok "vcrealloc: failed to release virtuall buffer"

/-- `ContainerRealloc2` of the containers from index `start` on. -/
def ContainerRealloc2At (start sizeofT : ℕ) (sparePFNs tempPFNs : List Frame)
    (elements_num_array : List ℕ) : Op Unit := do
  let array_size := elements_num_array.length
  let startPFNsIdx ← getPFNsPosition os 0 start
  let startNumberOfPFNs := (← getCtx).pfns_num_
  let v ← shrinkPass os sizeofT start startPFNsIdx startNumberOfPFNs array_size {
    itStruct := start
    PFNsIdx := startPFNsIdx
    tempPFNsIdx := 0
    steps := 0
    requested_pages := 0
    tempPFNs := tempPFNs
    sparePFNs := sparePFNs
    elements_num_array := elements_num_array }
  freeSpare os v
  onlyIf (0 < v.requested_pages)
    (growPass os sizeofT start startPFNsIdx startNumberOfPFNs array_size
      (sub64 startNumberOfPFNs v.PFNsIdx) v)
  let ok ← HeapFree os
  ensure ok "vcrealloc: couldn't free the spare PFNs array"

def reallocBlocks : Op (List Frame × List Frame) := do
  let ctx ← getCtx
  let sparePFNs ← HeapAlloc os (u64 (ctx.pfns_num_ * sizeofFrame))
  let tempPFNs ← HeapAlloc os (u64 (ctx.pfns_num_ * sizeofFrame))
  return (sparePFNs, tempPFNs)

def ContainerRealloc2 (user_pointer : PtrLoc) (sizeofT : ℕ) (elements_num_array : List ℕ) :
    Op Unit := do
  let (sparePFNs, tempPFNs) ← reallocBlocks os
  let elem ← loadPtr os user_pointer
  match ← lookup os elem with
  | none => throw (.thrown "vcrealloc: Data Structure not found")
  | some start => ContainerRealloc2At os start sizeofT sparePFNs tempPFNs elements_num_array

end Realloc2

end VcmallocBench
