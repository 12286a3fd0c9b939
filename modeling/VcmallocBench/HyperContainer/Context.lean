import VcmallocBench.Library.Meets
import VcmallocBench.Library.Blocks
import VcmallocBench.HyperContainer.Container
import VcmallocBench.HyperContainer.Search

/-! # The hypercontainer context

A hypercontainer keeps a table of its containers and a table of the page frames
mapped to it. Operations run in a state of the machine and the context; what
they have changed before an exception stays changed.
-/

namespace VcmallocBench

/-- A heap block for container contexts: those constructed in it and the number it has room for. -/
structure ContainerTable where
  cells : List ContainerContext
  room : ℕ

/-- The information system of one hypercontainer. Both tables may be null. -/
structure HyperContainerContext where
  containercontext_storage_ : Option ContainerTable
  pfns_storage_ : Option (List Frame)
  containers_num_ : ℕ
  containers_max_ : ℕ
  pfns_num_ : ℕ
  pfns_max_ : ℕ
  hypercontainer_size_ : ℕ

namespace HyperContainerContext

variable (ctx : HyperContainerContext)

def containers : List ContainerContext := (ctx.containercontext_storage_.map (·.cells)).getD []

def frames : List Frame := ctx.pfns_storage_.getD []

end HyperContainerContext

structure State where
  mach : Machine
  ctx : HyperContainerContext

abbrev Op := EStateM Fault State

def sizeofFrame : ℕ := 8

def sizeofContainerContext : ℕ := 24

/-- `while (cond x) x = next x`, with a bound on the number of rounds. -/
def whileLoop (cond : ℕ → Bool) (next : ℕ → ℕ) : ℕ → ℕ → Option ℕ
  | 0, _ => none
  | fuel + 1, x => if cond x then whileLoop cond next fuel (next x) else some x

section Primitives

variable (os : OS)

def fetch {α : Type} (f : State → Option α) (e : Fault) : Op α := fun s =>
  match f s with
  | some a => .ok a s
  | none => .error e s

def onMachine (f : Machine → Option Machine) (e : Fault) : Op Unit := fun s =>
  match f s.mach with
  | some m => .ok () { s with mach := m }
  | none => .error e s

def osCall {α : Type} (f : Machine → α × Machine) : Op α :=
  modifyGet fun s => ((f s.mach).1, { s with mach := (f s.mach).2 })

def ensure (ok : Bool) (message : String) : Op Unit :=
  if ok then pure () else throw (.thrown message)

def onlyIf (c : Prop) [Decidable c] (p : Op Unit) : Op Unit := if c then p else pure ()

def modifyCtx (f : HyperContainerContext → HyperContainerContext) : Op Unit :=
  modify fun s => { s with ctx := f s.ctx }

def getCtx : Op HyperContainerContext := do return (← get).ctx

def loadPtr (l : PtrLoc) : Op ℕ := fetch (fun s => s.mach.load os l) .segv

def storePtr (l : PtrLoc) (v : ℕ) : Op Unit := onMachine (·.assign os l v) .segv

def memmove (dst src n : ℕ) : Op Unit := onMachine (·.memmove os dst src n) .segv

def MapUserPhysicalPages (address pages : ℕ) (frames : Option (List Frame)) : Op Bool :=
  osCall (·.mapCall os address pages frames)

def AllocateUserPhysicalPages (n : ℕ) : Op (Bool × List Frame) := osCall (·.allocateCall os n)

def FreeUserPhysicalPages (frames : List Frame) : Op (Bool × ℕ) := osCall (·.freeCall os frames)

/-- A heap block of frames; a null result has no cells. -/
def HeapAlloc (bytes : ℕ) : Op (List Frame) := do
  let ok ← osCall (·.heapCall os bytes)
  return if ok then (List.range (bytes / sizeofFrame)).map os.uninit else []

def HeapFree : Op Bool := osCall (·.heapFreeCall os)

def resize (block : List Frame) (n : ℕ) : List Frame :=
  (block ++ (List.range n).map os.uninit).take n

def HeapReAlloc (block : List Frame) (bytes : ℕ) : Op (Option (List Frame)) := do
  let ok ← osCall (·.heapCall os bytes)
  return if ok then some (resize os block (bytes / sizeofFrame)) else none

def contextAt (k : ℕ) : Op ContainerContext := fetch (·.ctx.containers[k]?) .bounds

def containerAt (k : ℕ) : Op Container := do
  let c ← contextAt k
  fetch (fun s => c.resolve os s.mach) .segv

def writeContext (k : ℕ) (c : ContainerContext) : Op Unit := fun s =>
  match s.ctx.containercontext_storage_ with
  | some ⟨cells, room⟩ =>
    if k < room ∧ k ≤ cells.length then
      let cells := cells.take k ++ c :: cells.drop (k + 1)
      .ok () { s with ctx := { s.ctx with containercontext_storage_ := some ⟨cells, room⟩ } }
    else .error .bounds s
  | none => .error .bounds s

def setElements (k n : ℕ) : Op Unit := do
  let c ← contextAt k
  writeContext k { c with elements_num_ := n }

def readPFNs (i n : ℕ) : Op (List Frame) := fetch (fun s => readSlice s.ctx.frames i n) .bounds

def writePFNs (i : ℕ) (fs : List Frame) : Op Unit := do
  let block ← fetch (fun s => blit fs 0 s.ctx.frames i fs.length) .bounds
  modifyCtx fun ctx => { ctx with pfns_storage_ := ctx.pfns_storage_.map fun _ => block }

def movePFNs (dst src n : ℕ) : Op Unit := do
  let block ← fetch (fun s => blit s.ctx.frames src s.ctx.frames dst n) .bounds
  modifyCtx fun ctx => { ctx with pfns_storage_ := ctx.pfns_storage_.map fun _ => block }

end Primitives

section Tables

variable (os : OS)

/-- The doubling loop of `AssertPfnsStorage`. A 64-bit loop variable that has taken `2 ^ 64` values
comes back to an earlier one, so that the loop has ended by then or never does. -/
def doubledMax (pfns_max needed : ℕ) : Option ℕ :=
  whileLoop (· < needed) (fun n => u64 (n * 2)) (2 ^ 64) pfns_max

def steppedMax (containers_max needed step : ℕ) : Option ℕ :=
  whileLoop (· < needed) (fun n => u64 (n + step)) (2 ^ 64) containers_max

def AssertPfnsStorage (additional_pfns_num : ℕ) : Op Unit := do
  let ctx ← getCtx
  let needed := u64 (ctx.pfns_num_ + additional_pfns_num)
  if ctx.pfns_max_ < needed then do
    let new_pfns_max ← fetch (fun _ => doubledMax ctx.pfns_max_ needed) .diverge
    let block ← HeapReAlloc os ctx.frames (u64 (new_pfns_max * sizeofFrame))
    modifyCtx ({ · with pfns_storage_ := block })
    ensure block.isSome "vcmalloc : Couldn't allocate space for Container's aPFNs array"
    modifyCtx ({ · with pfns_max_ := new_pfns_max })
  else pure ()

def AssertContainerContextStorage (additional_cc_num : ℕ) : Op Unit := do
  let ctx ← getCtx
  let needed := u64 (ctx.containers_num_ + additional_cc_num)
  if ctx.containers_max_ < needed then do
    let container_per_page := os.page_size / sizeofContainerContext
    let newMax ← fetch (fun _ => steppedMax ctx.containers_max_ needed container_per_page) .diverge
    let bytes := u64 (newMax * sizeofContainerContext)
    let ok ← osCall (·.heapCall os bytes)
    modifyCtx fun ctx => { ctx with
      containercontext_storage_ :=
        if ok then
          some ⟨ctx.containers.take (bytes / sizeofContainerContext), bytes / sizeofContainerContext⟩
        else none }
    ensure ok "vcmalloc :: Unable to extend ContainerContextStorage"
    modifyCtx ({ · with containers_max_ := newMax })
  else pure ()

def insert (user_ptr : PtrLoc) (sizeOfType nbr_elem : ℕ) : Op Unit := do
  AssertContainerContextStorage os 1
  modifyCtx fun ctx => { ctx with containers_num_ := u64 (ctx.containers_num_ + 1) }
  let ctx ← getCtx
  writeContext (sub64 ctx.containers_num_ 1) ⟨user_ptr, sizeOfType, nbr_elem⟩

def getPFNsPosition (start stop : ℕ) : Op ℕ :=
  (List.range' start (stop - start)).foldlM (fun position k => do
    let c ← containerAt os k
    return u64 (position + c.nbrOfPages os)) 0

def ofSearch {α : Type} : Except Fault α → Op α
  | .ok a => pure a
  | .error e => throw e

def lookup (elem : ℕ) : Op (Option ℕ) := do
  let s ← get
  ofSearch (Search.binarySearch (fun k => s.ctx.containers[k]?.bind fun c =>
    s.mach.load os c.reference_) s.ctx.containers_num_ elem)

/-- `(char*&)reference_ += delta` for one container, with `delta` a word that may stand for a
negative number. -/
def moveReference (k delta : ℕ) : Op Unit := do
  let c ← contextAt k
  let r ← loadPtr os c.reference_
  storePtr os c.reference_ (u64 (r + delta))

def shiftReferences (start delta : ℕ) : Op Unit := do
  let ctx ← getCtx
  (List.range' start (ctx.containers_num_ - start)).forM fun k => moveReference os k delta

end Tables

/-- `HyperContainerContext(size)` with the answers of the two heap calls it makes. -/
def HyperContainerContext.new (os : OS) (size : ℕ) (pfns containers : Bool) :
    HyperContainerContext where
  containercontext_storage_ :=
    if containers then some ⟨[], os.page_size / sizeofContainerContext⟩ else none
  pfns_storage_ :=
    if pfns then some ((List.range (os.page_size / sizeofFrame)).map os.uninit) else none
  containers_num_ := 0
  containers_max_ := os.page_size / sizeofContainerContext
  pfns_num_ := 0
  pfns_max_ := os.page_size / sizeofFrame
  hypercontainer_size_ := size

end VcmallocBench
