import VcmallocBench.Library.Runs
import VcmallocBench.HyperContainer.Reservation

/-! # Calls

The calls of a program on one hypercontainer. Between two calls the program
writes to its memory and to its own variables.
-/

namespace VcmallocBench

inductive Call where
  | vcmalloc (user_pointer : PtrLoc) (sizeofT elements_num : ℕ)
  | vcrealloc (user_pointer : PtrLoc) (sizeofT elements_new_num : ℕ)
  | vcrealloc2 (user_pointer : PtrLoc) (sizeofT : ℕ) (elements_num_array : List ℕ)

/-- The operation that a call runs on the context found for the hypercontainer. -/
def Call.run (os : OS) (hypercontainer_address : ℕ) : Call → Op Unit
  | .vcmalloc user sizeofT n => ContainerAlloc os hypercontainer_address user sizeofT n
  | .vcrealloc user sizeofT n => ContainerRealloc os user sizeofT n
  | .vcrealloc2 user sizeofT array => ContainerRealloc2 os user sizeofT array

/-- A call returns, or throws although every call to the system has done what it was asked to do. -/
def Completes (p : Op Unit) (s t : State) : Prop :=
  p s = .ok () t ∨ ∃ message, p s = .error (.thrown message) t ∧ t.mach.failures = s.mach.failures

/-- The program writes to its memory and its variables, but not to the ones of the given
containers. -/
structure Between (os : OS) (s t : State) (kept : List ContainerContext) : Prop where
  ctx : t.ctx = s.ctx
  pageTable : t.mach.pageTable = s.mach.pageTable
  regions : t.mach.regions = s.mach.regions
  allocated : t.mach.allocated = s.mach.allocated
  kept : ∀ c ∈ kept, t.mach.load os c.reference_ = s.mach.load os c.reference_

/-- The program writes, and then a call takes it from a state that meets `ok` to the next state. -/
def Calling (os : OS) (ok : State → Call → Prop) (runs : State → Call → State → Prop)
    (s : State) (call : Call) (t : State) : Prop :=
  ∃ s', Between os s s' s.ctx.containers ∧ ok s' call ∧ runs s' call t

/-- The program makes a call, which returns or fails, and goes on in the state that it leaves. Between
the calls it may write anything to memory. -/
def Making (os : OS) (base : ℕ) (ok : State → Call → Prop) (s : State) (call : Call) (t : State) :
    Prop :=
  ∃ m : Machine, m.calls = s.mach.calls ∧ ok ⟨m, s.ctx⟩ call ∧
    t = endState (call.run os base ⟨m, s.ctx⟩)

theorem Making.of_state {os : OS} {base : ℕ} {ok : State → Call → Prop} {s : State} {call : Call}
    (hok : ok s call) : Making os base ok s call (endState (call.run os base s)) :=
  ⟨s.mach, rfl, hok, rfl⟩

theorem Between.refl (os : OS) (s : State) (kept : List ContainerContext) :
    Between os s s kept := ⟨rfl, rfl, rfl, rfl, fun _ _ => rfl⟩

theorem Completes.of_meets {p : Op Unit} {s t : State} {Q : Unit → State → Prop}
    {E : Fault → State → Prop} (hc : Completes p s t) (hm : Meets p s Q E)
    (hE : ∀ message, E (.thrown message) t → s.mach.failures < t.mach.failures) : Q () t := by
  rcases hc with hok | ⟨message, herr, heq⟩
  · exact hm.of_ok hok
  · exact absurd (hE message (hm.of_error herr)) (by omega)

theorem Completes.of_returned {p : Op Unit} {s : State} (h : returned (p s) = true) :
    Completes p s (endState (p s)) := Or.inl (eq_ok_of_returned h)

theorem Calling.of_returned (os : OS) (ok : State → Call → Prop) (base : ℕ) (s : State)
    (call : Call) (hok : ok s call) (h : returned (call.run os base s) = true) :
    Calling os ok (fun s call t => Completes (call.run os base) s t) s call
      (endState (call.run os base s)) :=
  ⟨s, .refl os s _, hok, .of_returned h⟩

end VcmallocBench
