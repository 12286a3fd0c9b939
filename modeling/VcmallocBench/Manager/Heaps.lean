import VcmallocBench.Manager.Registry

/-! # The arrays of the manager

Entering a hypercontainer into the table and taking it out of the table are calls
to the heap and assignments to the manager. What both leave alone, the whole
operation leaves alone.
-/

namespace VcmallocBench

/-- Assignments to the manager and calls to the heap are steps of `r`. -/
structure Process.Heaps (os : OS) (r : Process → Process → Prop) : Prop where
  set : ∀ (s : Process) (manager : HyperContainerManager), r s { s with manager := manager }
  heapCall : ∀ (s : Process) (bytes : ℕ), r s { s with mach := (s.mach.heapCall os bytes).2 }
  heapFreeCall : ∀ s : Process, r s { s with mach := (s.mach.heapFreeCall os).2 }

namespace Process

section Reads

variable {r : Process → Process → Prop} [Std.Refl r] {α : Type}

theorem leads_fetch (f : HyperContainerManager → Option α) (e : Fault) : Leads r (fetch f e) := by
  intro s
  exact meets_fetch_cases (fun _ _ => refl_of r s) (refl_of r s)

theorem leads_ensure (ok : Bool) (message : String) : Leads r (ensure ok message) :=
  .ite (.pure _) (.throw _)

theorem leads_getManager : Leads r getManager := by
  intro s
  rw [meets_getManager]
  exact refl_of r s

theorem leads_search (b : ℕ) : Leads r (search b) := by
  intro s
  exact meets_search (fun _ _ => refl_of r s) fun _ _ => refl_of r s

variable [IsTrans Process r]

theorem leads_requestedAddress : Leads r requestedAddress := by
  refine leads_getManager.bind fun manager => .ite (.pure _) ?_
  exact (leads_fetch _ _).bind fun _ => (leads_fetch _ _).bind fun _ => .pure _

end Reads

end Process

namespace Process.Heaps

variable {os : OS} {r : Process → Process → Prop} (h : Heaps os r)

include h

theorem leads_setManager (manager : HyperContainerManager) : Leads r (setManager manager) :=
  .modify fun s => h.set s manager

theorem leads_heapCall (bytes : ℕ) : Leads r (osCall (·.heapCall os bytes)) :=
  .modifyGet fun s => h.heapCall s bytes

theorem leads_heapFreeCall : Leads r (osCall (·.heapFreeCall os)) := .modifyGet h.heapFreeCall

variable [Std.Refl r] [IsTrans Process r]

theorem leads_extendStorage : Leads r (extendStorage os) := by
  refine leads_getManager.bind fun manager => (h.leads_heapCall _).bind fun _ => ?_
  refine (h.leads_heapCall _).bind fun _ => (h.leads_setManager _).bind fun _ => ?_
  exact (leads_ensure _ _).bind fun _ => leads_getManager.bind fun _ => h.leads_setManager _

theorem leads_append (newPointer size : ℕ) : Leads r (append os newPointer size) := by
  refine (h.leads_heapCall _).bind fun _ => (h.leads_heapCall _).bind fun _ => ?_
  refine leads_getManager.bind fun manager => (leads_fetch _ _).bind fun _ => ?_
  exact (leads_fetch _ _).bind fun _ => h.leads_setManager _

theorem leads_insert (newPointer size : ℕ) : Leads r (insert os newPointer size) := by
  refine leads_getManager.bind fun manager => .ite ?_ (h.leads_append _ _)
  exact h.leads_extendStorage.bind fun _ => h.leads_append _ _

theorem leads_remove (position : ℕ) : Leads r (remove position) := by
  refine leads_getManager.bind fun manager => (leads_fetch _ _).bind fun _ => ?_
  exact (leads_fetch _ _).bind fun _ => h.leads_setManager _

end Process.Heaps

end VcmallocBench
