import VcmallocBench.HyperContainer.Calls

/-! # The hypercontainer manager

A process keeps its hypercontainers in two heap arrays, one of their contexts
and one of their addresses. `vccalloc` reserves an address range behind the last
one and appends it; `vccfree` takes a hypercontainer out of both arrays. What
lies behind the hypercontainers in use are the cells of earlier ones.
-/

namespace VcmallocBench

/-- A heap array: the elements written to it so far and the number it has room for. -/
structure HeapArray (α : Type) where
  cells : List α
  room : ℕ

namespace HeapArray

variable {α : Type}

def write (b : HeapArray α) (k : ℕ) (a : α) : Option (HeapArray α) :=
  if k < b.room ∧ k ≤ b.cells.length then
    some { b with cells := b.cells.take k ++ a :: b.cells.drop (k + 1) }
  else none

def resize (b : Option (HeapArray α)) (room : ℕ) : HeapArray α :=
  ⟨((b.map (·.cells)).getD []).take room, room⟩

def moveDown (b : HeapArray α) (position num : ℕ) : Option (HeapArray α) :=
  (blit b.cells (position + 1) b.cells position (sub64 num (position + 1))).map
    fun cells => { b with cells := cells }

end HeapArray

/-- The table of hypercontainers. Both arrays may be null. -/
structure HyperContainerManager where
  hyper_containers_storage_ : Option (HeapArray HyperContainerContext)
  pointers_storage_ : Option (HeapArray ℕ)
  hypercontainers_num_ : ℕ
  hypercontainers_max_ : ℕ

def sizeofHyperContainerContext : ℕ := 56

def sizeofPointer : ℕ := 8

namespace HyperContainerManager

variable (manager : HyperContainerManager)

def contexts : List HyperContainerContext := (manager.hyper_containers_storage_.map (·.cells)).getD []

def pointers : List ℕ := (manager.pointers_storage_.map (·.cells)).getD []

/-- The manager of a process, with the answers to the two heap calls of its constructor. -/
def new (os : OS) (contexts pointers : Bool) : HyperContainerManager where
  hyper_containers_storage_ :=
    if contexts then some ⟨[], os.page_size / sizeofHyperContainerContext⟩ else none
  pointers_storage_ :=
    if pointers then some ⟨[], os.page_size / sizeofHyperContainerContext⟩ else none
  hypercontainers_num_ := 0
  hypercontainers_max_ := os.page_size / sizeofHyperContainerContext

def find (hypercontainer_address : ℕ) : Except Fault (Option ℕ) :=
  Search.binarySearch (manager.pointers[·]?) manager.hypercontainers_num_ hypercontainer_address

def setContext (k : ℕ) (ctx : HyperContainerContext) : HyperContainerManager :=
  { manager with
    hyper_containers_storage_ := manager.hyper_containers_storage_.map
      fun b => { b with cells := b.cells.set k ctx } }

end HyperContainerManager

structure Process where
  mach : Machine
  manager : HyperContainerManager

/-- A call of the library. -/
abbrev ProcessOp := EStateM Fault Process

namespace Process

section Primitives

def fetch {α : Type} (f : HyperContainerManager → Option α) (e : Fault) : ProcessOp α := fun s =>
  match f s.manager with
  | some a => .ok a s
  | none => .error e s

def osCall {α : Type} (f : Machine → α × Machine) : ProcessOp α :=
  modifyGet fun s => ((f s.mach).1, { s with mach := (f s.mach).2 })

def ensure (ok : Bool) (message : String) : ProcessOp Unit :=
  if ok then pure () else throw (.thrown message)

def getManager : ProcessOp HyperContainerManager := do return (← get).manager

def setManager (manager : HyperContainerManager) : ProcessOp Unit :=
  modify fun s => { s with manager := manager }

/-- Run an operation on the context at an index. What it has changed before an exception stays
changed. -/
def onContext (k : ℕ) (p : Op Unit) : ProcessOp Unit := fun s =>
  match s.manager.contexts[k]? with
  | none => .error .bounds s
  | some ctx =>
    match p ⟨s.mach, ctx⟩ with
    | .ok a t => .ok a ⟨t.mach, s.manager.setContext k t.ctx⟩
    | .error e t => .error e ⟨t.mach, s.manager.setContext k t.ctx⟩

end Primitives

variable (os : OS)

def search (hypercontainer_address : ℕ) : ProcessOp (Option ℕ) := do
  let manager ← getManager
  match manager.find hypercontainer_address with
  | .ok r => pure r
  | .error e => throw e

section Alloc

/-- Both arrays get room for one more page of contexts. -/
def extendStorage : ProcessOp Unit := do
  let manager ← getManager
  let nbrElem := os.page_size / sizeofHyperContainerContext
  let max := u64 (manager.hypercontainers_max_ + nbrElem)
  let contextBytes := u64 (max * sizeofHyperContainerContext)
  let pointerBytes := u64 (max * sizeofPointer)
  let contexts ← osCall (·.heapCall os contextBytes)
  let pointers ← osCall (·.heapCall os pointerBytes)
  setManager { manager with
    hyper_containers_storage_ :=
      if contexts then
        some (.resize manager.hyper_containers_storage_ (contextBytes / sizeofHyperContainerContext))
      else none
    pointers_storage_ :=
      if pointers then some (.resize manager.pointers_storage_ (pointerBytes / sizeofPointer))
      else none }
  ensure (contexts && pointers)
    "CL_MALLOC :: _Struct_Manager , Probably Physical Memory Unavailable"
  let manager ← getManager
  setManager { manager with hypercontainers_max_ := max }

/-- The part of `HyperContainerManager::insert` that constructs the context behind the last one. -/
def append (newPointer size : ℕ) : ProcessOp Unit := do
  let pfns ← osCall (·.heapCall os (os.page_size / sizeofFrame * sizeofFrame))
  let containers ← osCall
    (·.heapCall os (os.page_size / sizeofContainerContext * sizeofContainerContext))
  let manager ← getManager
  let num := u64 (manager.hypercontainers_num_ + 1)
  let contexts ← fetch (fun manager => manager.hyper_containers_storage_.bind
    (·.write (sub64 num 1) (.new os size pfns containers))) .bounds
  let pointers ← fetch (fun manager => manager.pointers_storage_.bind
    (·.write (sub64 num 1) newPointer)) .bounds
  setManager { manager with
    hyper_containers_storage_ := some contexts
    pointers_storage_ := some pointers
    hypercontainers_num_ := num }

def insert (newPointer size : ℕ) : ProcessOp Unit := do
  let manager ← getManager
  if manager.hypercontainers_max_ ≤ u64 (manager.hypercontainers_num_ + 1) then do
    extendStorage os
    append os newPointer size
  else append os newPointer size

/-- The loop of `vccalloc`, with a bound on the number of its attempts. -/
def reserve (dwSize : ℕ) : ℕ → ℕ → ProcessOp ℕ
  | 0, _ => throw .diverge
  | attempts + 1, requestedAddress => do
    match ← osCall (·.reserveCall os requestedAddress dwSize) with
    | some lpMemReserved => pure lpMemReserved
    | none => reserve dwSize attempts (u64 (requestedAddress + os.granularity))

/-- Where `vccalloc` first tries to reserve: behind the last hypercontainer, or anywhere. -/
def requestedAddress : ProcessOp ℕ := do
  let manager ← getManager
  if manager.hypercontainers_num_ = 0 then return 0
  else do
    let last := manager.hypercontainers_num_ - 1
    let lastAddress ← fetch (·.pointers[last]?) .bounds
    let lastContext ← fetch (·.contexts[last]?) .bounds
    return u64 (lastAddress + lastContext.hypercontainer_size_)

def containerSize (dwSize : ℕ) : ℕ :=
  u64 ((dwSize / os.granularity + if dwSize % os.granularity = 0 then 0 else 1) * os.granularity)

def vccalloc (attempts dwSize : ℕ) : ProcessOp ℕ := do
  let requested ← requestedAddress
  let lpMemReserved ← reserve os dwSize attempts requested
  insert os lpMemReserved (containerSize os dwSize)
  return lpMemReserved

end Alloc

section Free

def freeFrames (hcc : HyperContainerContext) : ProcessOp ℕ := do
  if hcc.pfns_num_ ≠ 0 then do
    let frames ← fetch (fun _ => readSlice hcc.frames 0 hcc.pfns_num_) .bounds
    let (ok, frames_to_free) ← osCall (·.freeCall os frames)
    ensure ok "vcfree: couldn't free container frames"
    return frames_to_free
  else return 0

def remove (position : ℕ) : ProcessOp Unit := do
  let manager ← getManager
  let contexts ← fetch (fun manager => manager.hyper_containers_storage_.bind
    (·.moveDown position manager.hypercontainers_num_)) .bounds
  let pointers ← fetch (fun manager => manager.pointers_storage_.bind
    (·.moveDown position manager.hypercontainers_num_)) .bounds
  setManager { manager with
    hyper_containers_storage_ := some contexts
    pointers_storage_ := some pointers
    hypercontainers_num_ := sub64 manager.hypercontainers_num_ 1 }

def HyperContainerFree (hypercontainer_address : ℕ) : ProcessOp Unit := do
  match ← search hypercontainer_address with
  | none => throw (.thrown "vcfree: container not found")
  | some position => do
    let hcc ← fetch (·.contexts[position]?) .bounds
    let frames_to_free ← freeFrames os hcc
    ensure (frames_to_free == hcc.pfns_num_) "vcfree: couldn't free all container's frames"
    let ok ← osCall (·.releaseCall os hypercontainer_address)
    ensure ok "vcfree: couldn't free hypercontainer's virtual space"
    let _ ← osCall (·.heapFreeCall os)
    let _ ← osCall (·.heapFreeCall os)
    remove position

end Free

def call (hypercontainer_address : ℕ) (c : Call) : ProcessOp Unit := do
  match ← search hypercontainer_address with
  | none => throw (.thrown "Container not found")
  | some k => onContext k (c.run os hypercontainer_address)

end Process

end VcmallocBench
