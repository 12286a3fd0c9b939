import VcmallocBench.HyperContainer.Effects
import VcmallocBench.HyperContainer.Bump
import VcmallocBench.HyperContainer.Histories

/-! # Exceptions

What a call leaves behind when it throws. A request for a new container enters
the container before it asks for memory, and no exception takes it out again.
-/

namespace VcmallocBench

open Paging

/-- No exception is thrown. The program may still access memory that is not its own. -/
def Silent {α : Type} (p : Op α) : Prop :=
  ∀ s, Meets p s (fun _ _ => True) fun e _ => ∀ message, e ≠ .thrown message

/-- If an exception is thrown, it is thrown in a state in `P`. -/
def Throws {α : Type} (p : Op α) (s : State) (P : State → Prop) : Prop :=
  Meets p s (fun _ _ => True) fun e t => (∃ message, e = .thrown message) → P t

section Silent

variable {os : OS} {s : State} {α β : Type} {p : Op α} {P : State → Prop}

theorem Silent.pure (a : α) : Silent (pure a : Op α) := fun _ => (meets_pure a).mpr trivial

theorem Silent.bind {f : α → Op β} (h : Silent p) (hf : ∀ a, Silent (f a)) : Silent (p >>= f) :=
  fun s => (h s).bind fun a t _ => hf a t

theorem Silent.forM {f : α → Op Unit} (h : ∀ x, Silent (f x)) : ∀ l : List α, Silent (l.forM f)
  | [] => .pure _
  | x :: l => (h x).bind fun _ => Silent.forM h l

theorem silent_fetch (f : State → Option α) {e : Fault} (he : ∀ message, e ≠ .thrown message) :
    Silent (fetch f e) := by
  intro s
  cases h : f s with
  | none => exact (meets_fetch_none h).mpr he
  | some a => exact (meets_fetch h).mpr trivial

theorem silent_onMachine (f : Machine → Option Machine) {e : Fault}
    (he : ∀ message, e ≠ .thrown message) : Silent (onMachine f e) := by
  intro s
  cases h : f s.mach with
  | none => exact (meets_onMachine_none h).mpr he
  | some a => exact (meets_onMachine h).mpr trivial

theorem silent_getCtx : Silent getCtx := fun _ => meets_getCtx.mpr trivial

theorem silent_contextAt (k : ℕ) : Silent (contextAt k) := silent_fetch _ fun _ => nofun

theorem silent_containerAt (k : ℕ) : Silent (containerAt os k) :=
  (silent_contextAt k).bind fun _ => silent_fetch _ fun _ => nofun

theorem silent_loadPtr (l : PtrLoc) : Silent (loadPtr os l) := silent_fetch _ fun _ => nofun

theorem silent_storePtr (l : PtrLoc) (v : ℕ) : Silent (storePtr os l v) :=
  silent_onMachine _ fun _ => nofun

theorem silent_memmove (dst src n : ℕ) : Silent (memmove os dst src n) :=
  silent_onMachine _ fun _ => nofun

theorem silent_writeContext (k : ℕ) (c : ContainerContext) : Silent (writeContext k c) := by
  intro s
  unfold Meets writeContext
  cases s.ctx.containercontext_storage_ with
  | none => exact fun _ => nofun
  | some table =>
    by_cases hk : k < table.room ∧ k ≤ table.cells.length
    · simp only [if_pos hk]
    · simp only [if_neg hk]
      exact fun _ => nofun

theorem silent_setElements (k n : ℕ) : Silent (setElements k n) :=
  (silent_contextAt k).bind fun _ => silent_writeContext _ _

theorem silent_moveReference (k delta : ℕ) : Silent (moveReference os k delta) :=
  (silent_contextAt k).bind fun _ => (silent_loadPtr _).bind fun _ => silent_storePtr _ _

theorem silent_shiftReferences (start delta : ℕ) : Silent (shiftReferences os start delta) :=
  silent_getCtx.bind fun _ => .forM (fun _ => silent_moveReference _ _) _

theorem silent_nextSlot (base : ℕ) : Silent (nextSlot os base) := by
  refine silent_getCtx.bind fun ctx => ?_
  split
  · exact .pure _
  · exact (silent_containerAt _).bind fun _ => .pure _

end Silent

section Alloc

/-- The hypercontainer is as before: its containers and its frames, in tables that can be used, the
value of the user's variable, and the frames that are held. -/
structure Unaltered (os : OS) (s t : State) (user : PtrLoc) : Prop where
  containers_num : t.ctx.containers_num_ = s.ctx.containers_num_
  containers : t.ctx.containers.take s.ctx.containers_num_ =
    s.ctx.containers.take s.ctx.containers_num_
  containers_table : t.ctx.containercontext_storage_ ≠ none
  pfns_num : t.ctx.pfns_num_ = s.ctx.pfns_num_
  frames : t.ctx.frames.take s.ctx.pfns_num_ = s.ctx.frames.take s.ctx.pfns_num_
  frames_table : t.ctx.pfns_storage_ ≠ none
  pointer : t.mach.load os user = s.mach.load os user
  held : ∀ f ∈ t.mach.allocated, f ∈ s.mach.allocated

def SameNumber (s t : State) : Prop := t.ctx.containers_num_ = s.ctx.containers_num_

instance : Std.Refl SameNumber := ⟨fun _ => rfl⟩

instance : IsTrans State SameNumber := ⟨fun _ _ _ h h' => h'.trans h⟩

variable {os : OS} {s : State}

theorem sameNumber_osCall {α : Type} (f : Machine → α × Machine) : Leads SameNumber (osCall f) :=
  leads_osCall fun _ => rfl

theorem sameNumber_ensure (ok : Bool) (message : String) : Leads SameNumber (ensure ok message) :=
  .of_eq (leads_ensure ok message)

theorem sameNumber_modifyCtx {f : HyperContainerContext → HyperContainerContext}
    (h : ∀ ctx, (f ctx).containers_num_ = ctx.containers_num_) : Leads SameNumber (modifyCtx f) :=
  leads_modifyCtx fun s => h s.ctx

theorem sameNumber_AssertPfnsStorage (n : ℕ) : Leads SameNumber (AssertPfnsStorage os n) := by
  refine (Leads.of_eq leads_getCtx).bind fun ctx => .ite ?_ (.pure _)
  refine (Leads.of_eq (leads_fetch _ _)).bind fun _ => Leads.bind
    ((sameNumber_osCall _).bind fun _ => .pure _) fun _ => ?_
  refine (sameNumber_modifyCtx ?_).bind fun _ => (sameNumber_ensure _ _).bind fun _ =>
    sameNumber_modifyCtx ?_
  · exact fun _ => rfl
  · exact fun _ => rfl

theorem sameNumber_writePFNs (i : ℕ) (fs : List Frame) : Leads SameNumber (writePFNs i fs) :=
  (Leads.of_eq (leads_fetch _ _)).bind fun _ => sameNumber_modifyCtx fun _ => rfl

theorem sameNumber_allocPages (a req : ℕ) : Leads SameNumber (allocPages os a req) := by
  refine (sameNumber_AssertPfnsStorage req).bind fun _ => (Leads.of_eq leads_getCtx).bind fun ctx => ?_
  refine (sameNumber_osCall _).bind fun r => (sameNumber_writePFNs _ _).bind fun _ => ?_
  refine (sameNumber_ensure _ _).bind fun _ => (sameNumber_ensure _ _).bind fun _ => ?_
  refine Leads.bind (leads_onlyIf fun _ => ?_) fun _ => sameNumber_modifyCtx fun _ => rfl
  refine (Leads.of_eq (leads_readPFNs _ _)).bind fun _ => ?_
  exact (sameNumber_osCall _).bind fun _ => sameNumber_ensure _ _

theorem meets_insert_throws (user : PtrLoc) (sizeofT n : ℕ) :
    Meets (insert os user sizeofT n) s
      (fun _ t => t.ctx.containers_num_ = u64 (s.ctx.containers_num_ + 1)) fun e t =>
        (∃ message, e = .thrown message) → t.ctx.containercontext_storage_ = none := by
  have hnot : ∀ {e : Fault} {t : State}, (∀ message, e ≠ .thrown message) →
      (∃ message, e = .thrown message) → t.ctx.containercontext_storage_ = none :=
    fun he h => absurd h.choose_spec (he _)
  -- what comes after the table has been asked for room
  have hwrite : ∀ t : State, t.ctx.containers_num_ = s.ctx.containers_num_ → Meets (do
      modifyCtx fun ctx => { ctx with containers_num_ := u64 (ctx.containers_num_ + 1) }
      let ctx ← getCtx
      writeContext (sub64 ctx.containers_num_ 1) ⟨user, sizeofT, n⟩) t
      (fun _ t => t.ctx.containers_num_ = u64 (s.ctx.containers_num_ + 1)) fun e t =>
        (∃ message, e = .thrown message) → t.ctx.containercontext_storage_ = none := by
    intro t ht
    rw [meets_bind, meets_modifyCtx, meets_bind, meets_getCtx]
    refine ((leads_writeContext (R := SameNumber) _ _ fun _ _ => rfl) _).and
      (silent_writeContext _ _ _) |>.mono (fun _ u hu => ?_) fun e u hu => hnot hu.2
    rw [hu.1, ht]
  rw [insert, AssertContainerContextStorage, meets_bind, meets_bind, meets_getCtx]
  refine meets_ite (fun _ => ?_) fun _ => (meets_pure _).mpr (hwrite s rfl)
  rw [meets_bind]
  refine meets_fetch_cases (fun newMax _ => ?_) (hnot (by simp))
  rw [meets_bind, meets_osCall, meets_bind, meets_modifyCtx, meets_bind]
  refine meets_ensure (fun _ => ?_) fun hok => ?_
  · rw [meets_modifyCtx]
    exact hwrite _ rfl
  · intro _
    simp [hok]

/-- A request that throws never leaves the hypercontainer as it was: its table of containers is lost, or
the new container stays in it. -/
theorem ContainerAlloc.alters (base : ℕ) (user : PtrLoc) (sizeofT n : ℕ) :
    Throws (ContainerAlloc os base user sizeofT n) s fun t => ¬ Unaltered os s t user ∧
      (t.ctx.containercontext_storage_ = none ∨ t.ctx.containers_num_ ≠ s.ctx.containers_num_) := by
  rw [Throws, ContainerAlloc, meets_bind]
  refine ((leads_nextSlot os base).meets_read.and (silent_nextSlot base s)).mono (fun slot t ht => ?_)
    fun e t ht => fun h => absurd h.choose_spec (ht.2 _)
  obtain ⟨⟨rfl, -⟩, -⟩ := ht
  rw [meets_bind]
  refine (meets_insert_throws user sizeofT n).mono (fun _ t ht => ?_) fun e t ht he =>
    ⟨fun hu => hu.containers_table (ht he), Or.inl (ht he)⟩
  have hne : t.ctx.containers_num_ ≠ s.ctx.containers_num_ := by
    rw [ht]
    unfold u64
    omega
  have hrest : Leads SameNumber (do
      storePtr os user slot.2.1
      if u64 (sizeofT * n) ≤ slot.2.2 then pure ()
      else allocPages os slot.1 (intCast (ceilPages os (sub64 (u64 (sizeofT * n)) slot.2.2)))) :=
    (leads_onMachine _ fun _ _ _ => rfl).bind fun _ => .ite (.pure _) (sameNumber_allocPages _ _)
  refine (hrest t).mono (fun _ _ _ => trivial) fun e u hu _ => ?_
  have hnum : u.ctx.containers_num_ ≠ s.ctx.containers_num_ := hu.symm ▸ hne
  exact ⟨fun hun => hnum hun.containers_num, Or.inr hnum⟩

/-- The first request of a new hypercontainer, when there are no frames. -/
theorem ContainerAlloc.not_unaltered :
    let os := OS.plain 7 (by decide) fun t => t != 0
    (∃ st, Laid os (Fresh.state os 16 16) 16 16 [] st []) ∧
      ¬ Throws (ContainerAlloc os (16 * 128) (.var 0) 1 1) (Fresh.state os 16 16)
        fun t => Unaltered os (Fresh.state os 16 16) t (.var 0) := by
  refine ⟨(Fresh.of_state (by decide) (by decide)).laid, fun h => ?_⟩
  have hrun : ContainerAlloc (OS.plain 7 (by decide) fun t => t != 0) (16 * 128) (.var 0) 1 1
      (Fresh.state (OS.plain 7 (by decide) fun t => t != 0) 16 16) = .error (.thrown
        "vcmalloc: Physical Memory Allocation Error , Probably Physical Memory Unavailable") _ := rfl
  exact absurd (h.of_error hrun ⟨_, rfl⟩).containers_num (by decide)

end Alloc

section Realloc

/-- The exceptions of a growing resize that report a call to the system. -/
def refusals : List Fault := [
  .thrown "vcmalloc : Couldn't allocate space for Container's aPFNs array",
  .thrown "structRealloc: couldn't allocate additional required frames",
  .thrown "structRealloc: couldn't allocate enough additional required frames",
  .thrown "structRealloc: couldn't unmap previous mappings",
  .thrown "structRealloc: couldn't map comitted deallocation changes"]

structure Intact (os : OS) (s t : State) : Prop where
  pfns_num : t.ctx.pfns_num_ = s.ctx.pfns_num_
  frames : t.ctx.frames.take s.ctx.pfns_num_ = s.ctx.frames.take s.ctx.pfns_num_
  containers : ∀ j, t.container? os j = s.container? os j
  pageTable : t.mach.pageTable = s.mach.pageTable

/-- The cells of the frame table once it has been asked for room for more frames. -/
def grownRoom (ctx : HyperContainerContext) (add : ℕ) : ℕ :=
  if ctx.pfns_max_ < ctx.pfns_num_ + add then
    u64 ((doubledMax ctx.pfns_max_ (ctx.pfns_num_ + add)).getD 0 * sizeofFrame) / sizeofFrame
  else ctx.pfns_max_

/-- A container of `pages` pages at position `start` that is to get `req` can be left as it was by the
first call to the system that fails: it fails before a frame of the table is moved or written over
and before a page is unmapped. -/
def Harmless (os : OS) (s : State) (start pages req : ℕ) : Prop :=
  let N := s.ctx.pfns_num_
  let room := grownRoom s.ctx (req - pages)
  let grows := s.ctx.pfns_max_ < N + (req - pages)
  let call := s.mach.calls.length + if grows then 1 else 0
  let given := if os.ok call then os.pick call s.mach.allocated (req - pages) else []
  if grows ∧ os.ok s.mach.calls.length = false then N = 0
  else if given.length ≠ req - pages then
    N ≤ room ∧ N ≤ start + req ∧ (given = [] ∨ N = start + pages)
  else if N ≠ start ∧ os.ok (call + 1) = false then N = start + pages
  else N = start

instance (os : OS) (s : State) (start pages req : ℕ) : Decidable (Harmless os s start pages req) := by
  delta Harmless
  infer_instance

/-- Only the frame table, the log of calls, and frames that were not held have changed. -/
structure Aside (s t : State) : Prop where
  cells : t.ctx.containercontext_storage_ = s.ctx.containercontext_storage_
  pfns_num : t.ctx.pfns_num_ = s.ctx.pfns_num_
  vars : t.mach.vars = s.mach.vars
  pageTable : t.mach.pageTable = s.mach.pageTable
  regions : t.mach.regions = s.mach.regions
  frameData : ∀ f ∈ s.mach.allocated, t.mach.frameData f = s.mach.frameData f

variable {os : OS} {s t u : State} {start pages req : ℕ} {st : List Frame}

theorem Aside.containers (h : Aside s t) : t.ctx.containers = s.ctx.containers := by
  rw [HyperContainerContext.containers, h.cells, HyperContainerContext.containers]

theorem Aside.load (h : Aside s t) (hs : ∀ p f, s.mach.pageTable p = some f → f ∈ s.mach.allocated)
    (l : PtrLoc) : t.mach.load os l = s.mach.load os l := by
  refine Machine.load_congr (fun x _ => by rw [h.vars]) fun a _ => ?_
  rw [Machine.read, Machine.read, h.pageTable]
  cases hp : s.mach.pageTable (a / os.page_size) with
  | none => rfl
  | some f => rw [Option.map_some, Option.map_some, h.frameData f (hs _ f hp)]

theorem Aside.container? (h : Aside s t)
    (hs : ∀ p f, s.mach.pageTable p = some f → f ∈ s.mach.allocated) (j : ℕ) :
    t.container? os j = s.container? os j := by
  simp only [State.container?, ContainerContext.resolve, h.containers, h.load hs]

/-- What is put aside is as before if and only if its frames are. -/
theorem Aside.unaltered_iff (h : Aside s t)
    (hs : ∀ p f, s.mach.pageTable p = some f → f ∈ s.mach.allocated) :
    Intact os s t ↔ t.ctx.frames.take s.ctx.pfns_num_ = s.ctx.frames.take s.ctx.pfns_num_ :=
  ⟨fun hi => hi.frames, fun hf => ⟨h.pfns_num, hf, h.container? hs, h.pageTable⟩⟩

theorem Machine.allocateCall_given (os : OS) (m : Machine) (n : ℕ) :
    (m.allocateCall os n).1 = (os.ok m.calls.length,
      if os.ok m.calls.length then os.pick m.calls.length m.allocated n else []) := by
  rw [allocateCall]
  cases os.ok m.calls.length <;> rfl

theorem Machine.allocateCall_calls (os : OS) (m : Machine) (n : ℕ) :
    (m.allocateCall os n).2.calls.length = m.calls.length + 1 := by
  rw [allocateCall]
  cases os.ok m.calls.length <;> rfl

theorem Aside.allocate (h : Aside s u) (ha : u.mach.allocated = s.mach.allocated) (n : ℕ)
    (table : Option (List Frame)) :
    Aside s ⟨(u.mach.allocateCall os n).2, { u.ctx with pfns_storage_ := table }⟩ := by
  rw [Machine.allocateCall]
  cases os.ok u.mach.calls.length with
  | false => exact ⟨h.cells, h.pfns_num, h.vars, h.pageTable, h.regions, h.frameData⟩
  | true =>
    refine ⟨h.cells, h.pfns_num, h.vars, h.pageTable, h.regions, fun f hf => ?_⟩
    rw [← h.frameData f hf]
    refine if_neg fun hp => os.pick_fresh _ _ _ _ hp ?_
    rwa [ha]

theorem meets_AssertPfnsStorage_refused {add : ℕ} (hst : s.ctx.pfns_storage_ = some st)
    (hmax : st.length = s.ctx.pfns_max_) (hov : s.ctx.pfns_num_ + add < 2 ^ 64)
    {R : Unit → State → Prop} {E : Fault → State → Prop}
    (hR : ∀ l u, u.ctx.pfns_storage_ = some l → l.length = grownRoom s.ctx add →
      (∀ k < st.length, k < l.length → l[k]? = st[k]?) → Aside s u →
      u.mach.allocated = s.mach.allocated →
      u.mach.calls.length = s.mach.calls.length +
        (if s.ctx.pfns_max_ < s.ctx.pfns_num_ + add then 1 else 0) →
      ¬ (s.ctx.pfns_max_ < s.ctx.pfns_num_ + add ∧ os.ok s.mach.calls.length = false) → R () u)
    (hE : ∀ e u, s.ctx.pfns_max_ < s.ctx.pfns_num_ + add → os.ok s.mach.calls.length = false →
      u.ctx.frames = [] → Aside s u → E e u) (hd : E .diverge s) :
    Meets (AssertPfnsStorage os add) s R E := by
  have hu : u64 (s.ctx.pfns_num_ + add) = s.ctx.pfns_num_ + add := u64_of_lt hov
  have haside : ∀ (m : Machine) table max, m = { s.mach with calls := m.calls } →
      Aside s ⟨m, { s.ctx with pfns_storage_ := table, pfns_max_ := max }⟩ := by
    intro m table max hm
    rw [hm]
    exact ⟨rfl, rfl, rfl, rfl, rfl, fun _ _ => rfl⟩
  refine meets_AssertPfnsStorage_words hst ?_ (fun _ _ => hd) ?_ ?_
  · rw [hu]
    intro hle
    refine hR st s hst ?_ (fun _ _ _ => rfl) ⟨rfl, rfl, rfl, rfl, rfl, fun _ _ => rfl⟩ rfl ?_ ?_
    · rw [grownRoom, if_neg (not_lt.mpr hle), hmax]
    · rw [if_neg (not_lt.mpr hle), add_zero]
    · exact fun h => absurd h.1 (not_lt.mpr hle)
  · rw [hu]
    intro n hlt hn hr
    refine hR _ _ rfl ?_ (fun k hk hk' => ?_) (haside _ _ _ rfl) rfl ?_ ?_
    · rw [length_resize, grownRoom, if_pos hlt, hn, Option.getD_some]
    · rw [length_resize] at hk'
      rw [resize, List.getElem?_take_of_lt hk', List.getElem?_append_left hk]
    · rw [if_pos hlt]
      rfl
    · exact fun h => absurd (show s.mach.reply os = false from h.2) (by rw [hr]; decide)
  · rw [hu]
    exact fun n hlt hr => hE _ _ hlt hr rfl (haside _ _ _ rfl)

/-- The part of `growFrames` behind the request for room. -/
def fillGap (os : OS) (startPFNsIdx requestedPages pages : ℕ) : Op Unit := do
  let steps := sub64 requestedPages pages
  let ctx ← getCtx
  movePFNs (u64 (startPFNsIdx + requestedPages)) (u64 (startPFNsIdx + pages))
    (sub64 (sub64 ctx.pfns_num_ startPFNsIdx) pages)
  let (ok, allocated) ← AllocateUserPhysicalPages os steps
  writePFNs (u64 (startPFNsIdx + pages)) allocated
  ensure ok "structRealloc: couldn't allocate additional required frames"
  ensure (allocated.length == steps)
    "structRealloc: couldn't allocate enough additional required frames"

theorem growFrames_eq (os : OS) (start req pages : ℕ) : growFrames os start req pages = (do
    AssertPfnsStorage os (sub64 req pages)
    fillGap os start req pages) := rfl

/-- Whether the gap was filled or not, the frames of the table are as before only if none was moved
or written over. -/
theorem meets_fillGap {l : List Frame} (hl : u.ctx.pfns_storage_ = some l) (ha : Aside s u)
    (hall : u.mach.allocated = s.mach.allocated) (hsame : ∀ k < st.length, k < l.length → l[k]? = st[k]?)
    (hnum : s.ctx.pfns_num_ ≤ st.length) (hw : 8 * st.length < 2 ^ 64) (hreq : pages < req)
    (hword : req ≤ 2 ^ 63) (hb : start + pages ≤ s.ctx.pfns_num_)
    (hnd : (st.take s.ctx.pfns_num_).Nodup)
    (hheld : ∀ f ∈ st.take s.ctx.pfns_num_, f ∈ s.mach.allocated)
    {R : Unit → State → Prop} {E : Fault → State → Prop}
    (hQ : ∀ t given, given =
        (if os.ok u.mach.calls.length then os.pick u.mach.calls.length s.mach.allocated (req - pages)
          else []) → Aside s t →
      t.mach.calls.length = u.mach.calls.length + 1 →
      (0 < given.length → start + pages + given.length ≤ l.length) →
      (t.ctx.frames.take s.ctx.pfns_num_ = st.take s.ctx.pfns_num_ ↔ s.ctx.pfns_num_ ≤ l.length ∧
        s.ctx.pfns_num_ ≤ start + req ∧ (given = [] ∨ s.ctx.pfns_num_ = start + pages)) →
      (given.length = req - pages → R () t) ∧ (given.length ≠ req - pages → ∀ e, E e t))
    (hbounds : ∀ t, E .bounds t) : Meets (fillGap os start req pages) u R E := by
  have hsteps : sub64 req pages = req - pages := sub64_of_le hreq.le (by omega)
  have hdst : u64 (start + req) = start + req := u64_of_lt (by omega)
  have hsrc : u64 (start + pages) = start + pages := u64_of_lt (by omega)
  have hbehind : sub64 (sub64 u.ctx.pfns_num_ start) pages = s.ctx.pfns_num_ - start - pages := by
    rw [ha.pfns_num, sub64_sub64 hb (by omega)]
    omega
  rw [fillGap, hsteps, hdst, hsrc]
  dsimp only
  rw [meets_bind, meets_getCtx, hbehind, meets_bind, movePFNs, meets_bind]
  refine meets_fetch_cases (fun l₁ h₁ => ?_) (hbounds _)
  rw [frames_of_storage hl] at h₁
  rw [meets_modifyCtx, meets_bind, AllocateUserPhysicalPages, meets_osCall, hl, Option.map_some]
  dsimp only
  rw [Machine.allocateCall_given, meets_bind, writePFNs, meets_bind]
  generalize hg : (if os.ok u.mach.calls.length then
    os.pick u.mach.calls.length u.mach.allocated (req - pages) else []) = given
  refine meets_fetch_cases (fun l₂ h₂ => ?_) (hbounds _)
  rw [meets_modifyCtx, meets_bind]
  have h₂ : blit given 0 l₁ (start + pages) given.length = some l₂ := h₂
  dsimp only
  have hnew : ∀ f ∈ given, f ∉ st.take s.ctx.pfns_num_ := by
    rw [← hg]
    split
    · exact fun f hf hf' => os.pick_fresh _ _ _ _ hf (hall ▸ hheld f hf')
    · exact fun f hf => absurd hf List.not_mem_nil
  have hiff := take_openGap_iff hnum hnd (fun k hk hk' => hsame k (by omega) hk') hb hreq h₁ h₂ hnew
  rw [hall] at hg
  obtain ⟨hret, hfail⟩ := hQ ⟨(u.mach.allocateCall os (req - pages)).2,
    { u.ctx with pfns_storage_ := some l₂ }⟩ given hg.symm (ha.allocate hall _ _)
    (Machine.allocateCall_calls _ _ _) 
    (fun hpos => (blit_some h₁).1 ▸ ((blit_some h₂).2.1 hpos).2) hiff
  refine meets_ensure (fun _ => meets_ensure (fun hn => hret (by simpa using hn)) fun hn =>
    hfail (by simpa using hn) _) fun hok => hfail ?_ _
  rw [← hg, hok]
  simp only [Bool.false_eq_true, if_false, List.length_nil]
  omega

/-- A gap that could not be filled is harmless or not, and one that was filled leaves the rest of the
resize to decide it. -/
theorem meets_growFrames_refused (hst : s.ctx.pfns_storage_ = some st)
    (hmax : st.length = s.ctx.pfns_max_) (hnum : s.ctx.pfns_num_ ≤ st.length)
    (hw : 8 * st.length < 2 ^ 64) (hreq : pages < req) (hword : req ≤ 2 ^ 63)
    (hb : start + pages ≤ s.ctx.pfns_num_) (hnd : (st.take s.ctx.pfns_num_).Nodup)
    (hheld : ∀ f ∈ st.take s.ctx.pfns_num_, f ∈ s.mach.allocated) :
    Meets (growFrames os start req pages) s
      (fun _ t => Aside s t ∧ (t.ctx.frames.take s.ctx.pfns_num_ = st.take s.ctx.pfns_num_ ↔
          s.ctx.pfns_num_ = start + pages) ∧
        (Harmless os s start pages req ↔
          if s.ctx.pfns_num_ ≠ start ∧ os.ok t.mach.calls.length = false then
            s.ctx.pfns_num_ = start + pages
          else s.ctx.pfns_num_ = start))
      fun e t => e ∈ refusals → Aside s t ∧
        (t.ctx.frames.take s.ctx.pfns_num_ = st.take s.ctx.pfns_num_ ↔
          Harmless os s start pages req) := by
  rw [growFrames_eq, sub64_of_le hreq.le (by omega), meets_bind]
  refine meets_AssertPfnsStorage_refused hst hmax (by omega) (fun l u hl hlen hsame ha hall hcalls hok
    => ?_) (fun e u hlt hno hu ha _ => ⟨ha, ?_⟩) fun h => absurd h (by decide)
  · refine meets_fillGap hl ha hall hsame hnum hw hreq hword hb hnd hheld
      (fun t given hg ht hcalls' hfit hiff => ⟨fun hfull => ⟨ht, ?_, ?_⟩, fun hshort e _ => ⟨ht, ?_⟩⟩)
      fun _ h => absurd h (by decide)
    · have hne : given ≠ [] := List.ne_nil_of_length_pos (by omega)
      rw [hiff]
      constructor
      · exact fun h => h.2.2.resolve_left hne
      · have := hfit (List.length_pos_of_ne_nil hne)
        exact fun h => ⟨by omega, by omega, Or.inr h⟩
    · rw [hcalls] at hg
      rw [Harmless, if_neg hok, ← hg, if_neg (not_not.mpr hfull), hcalls', hcalls]
    · rw [hcalls] at hg
      rw [hiff, Harmless, if_neg hok, ← hg, if_pos hshort, hlen]
  · rw [hu, Harmless, if_pos ⟨hlt, hno⟩, List.take_nil, eq_comm, List.take_eq_nil_iff]
    refine ⟨fun h => h.elim id fun h => ?_, Or.inl⟩
    rw [h] at hnum
    exact Nat.le_zero.mp hnum

theorem Silent.refused {α : Type} {p : Op α} {P : State → Prop} (h : Silent p) (u : State) :
    Meets p u (fun _ _ => True) fun e t => e ∈ refusals → P t := by
  refine (h u).mono (fun _ _ h => h) fun e t he hmem => ?_
  simp only [refusals, List.mem_cons, List.not_mem_nil, or_false] at hmem
  rcases hmem with rfl | rfl | rfl | rfl | rfl <;> exact absurd rfl (he _)

theorem Silent.read {α : Type} {p : Op α} {Q : α → State → Prop} {P : State → Prop} (h : Silent p)
    (hr : Leads Eq p) (hQ : ∀ a, value? (p u) = some a → Q a u) :
    Meets p u Q fun e t => e ∈ refusals → P t :=
  (hr.meets_read.and (h.refused u)).mono (fun a _ ha => ha.1.1 ▸ hQ a ha.1.2) fun _ _ he => he.2

theorem value_containerAt {k : ℕ} {l : Container} (h : value? (containerAt os k u) = some l) :
    u.container? os k = some l :=
  Meets.of_value (Q := fun l _ => u.container? os k = some l) (E := fun _ _ => True)
    (meets_containerAt_cases (fun _ hl => hl) fun _ => trivial) h

theorem mapCall_refused {m : Machine} {a n : ℕ} {fs : Option (List Frame)}
    (h : (m.mapCall os a n fs).1 = false) :
    (m.mapCall os a n fs).2 = { m with calls := (m.mapCall os a n fs).2.calls } := by
  rw [Machine.mapCall] at h ⊢
  dsimp only at h ⊢
  rw [h, if_neg (by decide)]

theorem meets_growRemap_last {k n : ℕ} : Meets (do
    let concerned ← containerAt os k
    let PFNs ← readPFNs start n
    let ok ← MapUserPhysicalPages os (concerned.mappingAddress os) n (some PFNs)
    ensure ok "structRealloc: couldn't map comitted deallocation changes") u (fun _ _ => True)
    fun e t => e ∈ refusals → ∃ calls, t = ⟨{ u.mach with calls := calls }, u.ctx⟩ := by
  rw [meets_bind]
  refine (silent_containerAt k).read (leads_containerAt os k) fun l _ => ?_
  rw [meets_bind]
  refine Silent.read (silent_fetch _ fun _ => nofun) (leads_readPFNs _ _) fun PFNs _ => ?_
  rw [meets_bind, MapUserPhysicalPages, meets_osCall]
  exact meets_ensure (fun _ => trivial) fun hno _ => ⟨_, by rw [mapCall_refused hno]⟩

/-- Once pages are unmapped, the mapping has changed. When none are, no frame has changed either. -/
theorem meets_growRemap_refused {k h : ℕ} {l : Container} (ha : Aside s u)
    (hs : ∀ p f, s.mach.pageTable p = some f → f ∈ s.mach.allocated)
    (hl : s.container? os k = some l) (hpage : l.mappingAddress os / os.page_size = h + start)
    (hin : s.ctx.pfns_num_ ≠ start →
      s.mach.inRegion os (l.mappingAddress os) (s.ctx.pfns_num_ - start) = true)
    (hmapped : ∀ i < s.ctx.pfns_num_, s.mach.pageTable (h + i) ≠ none)
    (hb : start + pages ≤ s.ctx.pfns_num_) (hN : s.ctx.pfns_num_ < 2 ^ 64)
    (hframes : u.ctx.frames.take s.ctx.pfns_num_ = s.ctx.frames.take s.ctx.pfns_num_ ↔
      s.ctx.pfns_num_ = start + pages) (steps : ℕ) :
    Meets (growRemap os k start steps) u (fun _ _ => True) fun e t => e ∈ refusals →
      (Intact os s t ↔ if s.ctx.pfns_num_ ≠ start ∧ os.ok u.mach.calls.length = false then
        s.ctx.pfns_num_ = start + pages else s.ctx.pfns_num_ = start) := by
  have hsub : sub64 s.ctx.pfns_num_ start = s.ctx.pfns_num_ - start := sub64_of_le (by omega) hN
  have hlogged : ∀ calls, Aside s ⟨{ u.mach with calls := calls }, u.ctx⟩ := fun _ =>
    ⟨ha.cells, ha.pfns_num, ha.vars, ha.pageTable, ha.regions, ha.frameData⟩
  rw [growRemap, meets_bind, meets_getCtx]
  dsimp only
  rw [ha.pfns_num, hsub, meets_bind]
  refine meets_onlyIf (fun hne => ?_) fun heq => ?_
  · rw [meets_bind]
    refine (silent_containerAt k).read (leads_containerAt os k) fun l' hl' => ?_
    obtain rfl := Option.some.inj
      (hl.symm.trans ((ha.container? hs k).symm.trans (value_containerAt hl')))
    rw [meets_bind, MapUserPhysicalPages, meets_osCall]
    have hreply : (u.mach.mapCall os (l.mappingAddress os) (s.ctx.pfns_num_ - start) none).1 =
        os.ok u.mach.calls.length := by
      have hin' : u.mach.inRegion os (l.mappingAddress os) (s.ctx.pfns_num_ - start) = true := by
        rw [Machine.inRegion, ha.regions]
        exact hin hne
      rw [Machine.mapCall, Machine.mapReply, if_neg (by omega), hin', Bool.and_true]
      rfl
    refine meets_ensure (fun hok => ?_) fun hno _ => ?_
    · rw [if_neg fun h => absurd h.2 (by rw [← hreply, hok]; decide)]
      refine meets_growRemap_last.mono (fun _ _ h => h) fun e t ht he => ?_
      obtain ⟨calls, rfl⟩ := ht he
      refine ⟨fun hi => absurd (congrFun hi.pageTable (h + start)) fun heq => ?_, fun h => absurd h hne⟩
      refine hmapped start (by omega) ?_
      rw [← heq, Machine.mapCall_eq (by rw [← hok]; rfl)]
      dsimp only
      rw [hpage, if_pos (by omega), Option.bind_none]
    · rw [if_pos ⟨hne, by rw [← hreply, hno]⟩, mapCall_refused hno, (hlogged _).unaltered_iff hs]
      exact hframes
  · have heq : s.ctx.pfns_num_ = start := not_not.mp heq
    refine meets_growRemap_last.mono (fun _ _ h => h) fun e t ht he => ?_
    obtain ⟨calls, rfl⟩ := ht he
    rw [if_neg fun h => h.1 heq, (hlogged _).unaltered_iff hs]
    exact hframes.trans ⟨fun _ => heq, fun _ => by omega⟩

/-- What follows the mapping of a growing resize throws no exception about a call. -/
theorem meets_growRest_refused {k sizeofT steps delta : ℕ} {P : State → Prop}
    {f : HyperContainerContext → HyperContainerContext} : Meets (do
    copyGuest os k (fun next => u64 (next + u64 (steps * os.page_size)))
      "structRealloc: couldn't couldn't copy guest bytes"
    updateStruct os k sizeofT req
    shiftReferences os (k + 1) delta
    modifyCtx f) u (fun _ _ => True) fun e t => e ∈ refusals → P t := by
  rw [meets_bind, copyGuest, meets_bind]
  refine ((silent_containerAt k).refused u).imp fun l v _ => ?_
  dsimp only
  rw [meets_bind]
  refine ((silent_memmove _ _ _).refused v).imp fun _ w _ => ?_
  refine meets_ensure (fun _ => ?_) fun _ he => absurd he (by decide)
  refine (Silent.bind ?_ fun _ => (silent_shiftReferences _ _).bind fun _ _ => ?_).refused w
  · exact (silent_containerAt k).bind fun _ => silent_setElements _ _
  · rw [meets_modifyCtx]
    trivial

/-- A growing resize that a call to the system fails leaves the frames, the containers and the mapping
as they were exactly when the failing call is harmless. -/
theorem ContainerRealloc.intact_iff {lo hi h R k sizeofT n a : ℕ} {user : PtrLoc}
    {cs : List ContainerContext} {L : List Container} {l : Container}
    (hc : Counted os s lo hi cs st L) (hp : Placed os s h st L)
    (hh : s.mach.Hosts os h R s.ctx.pfns_num_)
    (hs : ∀ p f, s.mach.pageTable p = some f → f ∈ s.mach.allocated)
    (hload : s.mach.load os user = some a) (hfind : s.find os a = .ok (some k))
    (hl : L[k]? = some l) (hgrow : l.nbrOfPages os < l.requestedPages os sizeofT n) :
    Meets (ContainerRealloc os user sizeofT n) s (fun _ _ => True) fun e t =>
      e ∈ refusals → (Intact os s t ↔ Harmless os s (pagesOf os (L.take k)) (l.nbrOfPages os)
        (l.requestedPages os sizeofT n)) := by
  have hkL : k < L.length := (List.getElem?_eq_some_iff.mp hl).1
  have hnum := hc.core.num
  have hw := hc.core.words
  have hpages := @pagesOf_eq os _ _ _ hl
  have hsum := hp.pages
  have hfits := hc.fits l (List.mem_of_getElem? hl)
  have hframes : s.ctx.frames = st := frames_of_storage hc.core.table
  have hb : pagesOf os (L.take k) + l.nbrOfPages os ≤ s.ctx.pfns_num_ := by omega
  have hlen : (st.take s.ctx.pfns_num_).length = s.ctx.pfns_num_ := by
    rw [List.length_take, Nat.min_eq_left hnum]
  have hmapping : l.mappingAddress os = (h + pagesOf os (L.take k)) * os.page_size := by
    rw [Container.mappingAddress_eq hfits.reference_lt, hp.tiled.page_eq hc.fits hl]
    have := Nat.mul_le_mul_right os.page_size (show h + pagesOf os (L.take k) ≤ h + s.ctx.pfns_num_ by
      omega)
    exact u64_of_lt (by have := hp.limit; omega)
  rw [ContainerRealloc, meets_bind]
  refine (meets_loadPtr hload).mpr ?_
  rw [meets_bind, meets_lookup_eq, hfind]
  refine (meets_pure _).mpr ?_
  dsimp only
  rw [ContainerReallocAt, meets_bind]
  refine hc.views'.reads.meets_getPFNsPosition hkL.le (by omega) ?_
  rw [meets_bind, hc.views'.meets_containerAt hl]
  have hword := @requestedPages_le_word os l sizeofT n
  generalize l.requestedPages os sizeofT n = req at *
  dsimp only
  rw [if_neg (not_lt.mpr hgrow.le), if_pos hgrow, reallocGrow, growMapping]
  simp only [bind_assoc]
  rw [meets_bind]
  refine (meets_growFrames_refused hc.core.table hc.core.max hnum hw hgrow hword hb hp.backed.nodup
    hp.backed.held).mono (fun _ u hu => ?_) fun e t ht he => ?_
  · obtain ⟨ha, hsame, hiff⟩ := hu
    rw [hiff, meets_bind]
    rw [← hframes] at hsame
    refine (meets_growRemap_refused ha hs (l := l) (h := h) ?_ ?_ (fun hne => ?_) (fun i hi => ?_) hb
      (by omega) hsame _).imp fun _ v _ => meets_growRest_refused
    · rw [hc.views'.reads.container?_eq, hl]
    · rw [hmapping, Nat.mul_div_cancel _ os.page_size_pos]
    · rw [hmapping, Machine.inRegion, List.any_eq_true]
      have h₁ : h * os.page_size ≤ (h + pagesOf os (L.take k)) * os.page_size :=
        Nat.mul_le_mul_right _ (by omega)
      have h₂ : (h + pagesOf os (L.take k) + (s.ctx.pfns_num_ - pagesOf os (L.take k))) * os.page_size ≤
          (h + R) * os.page_size := Nat.mul_le_mul_right _ (by have := hh.le; omega)
      rw [Nat.add_mul, Nat.add_mul h R] at h₂
      exact ⟨_, hh.own, decide_eq_true ⟨h₁, h₂⟩⟩
    · rw [hp.backed.page i (by omega), List.getElem?_eq_getElem (by omega)]
      exact Option.some_ne_none _
  · obtain ⟨ha, hiff⟩ := ht he
    rw [ha.unaltered_iff hs, hframes, hiff]

/-- The last container is to grow when there are no frames left: there is nothing to undo. -/
theorem ContainerRealloc.intact_last :
    let os := OS.plain 7 (by decide) fun t => t != 2
    ∃ s e t, AllocRun os (16 * os.page_size) (Fresh.state os 16 16) [⟨.var 0, 8, 16⟩] s ∧
      ContainerRealloc os (.var 0) 8 32 s = .error e t ∧ e ∈ refusals ∧ Intact os s t := by
  intro os
  have hf : Fresh os (Fresh.state os 16 16) 16 16 := Fresh.of_state (by decide) (by decide)
  have ha := AllocRun.alloc (c := ⟨.var 0, 8, 16⟩)
    (@AllocRun.fresh os (16 * os.page_size) (Fresh.state os 16 16)) (.refl _ _ _)
    (eq_ok_of_returned (by decide +kernel))
  have h₁ := Run.start.next (Calling.of_returned os (Regular os) (16 * os.page_size)
    (Fresh.state os 16 16) (.vcmalloc (.var 0) 8 16) ⟨⟨⟨0, rfl⟩, by decide +kernel⟩, by decide +kernel⟩
    (by decide +kernel))
  let s := endState ((Call.vcmalloc (.var 0) 8 16).run os (16 * os.page_size) (Fresh.state os 16 16))
  obtain ⟨cs, st, L, hb, -⟩ := Run.laid hf h₁
  obtain ⟨_, hbump⟩ := ha.bumped hf (by decide)
  have hl : L[0]? = some ⟨2048, 8, 16⟩ := by
    rw [← hb.counted.views'.reads.container?_eq]
    decide +kernel
  have hrun : ContainerRealloc os (.var 0) 8 32 s = .error (.thrown
      "structRealloc: couldn't allocate additional required frames")
      (endState (ContainerRealloc os (.var 0) 8 32 s)) := eq_error_of_fault (by decide +kernel)
  have hgrow : (⟨2048, 8, 16⟩ : Container).nbrOfPages os <
      (⟨2048, 8, 16⟩ : Container).requestedPages os 8 32 := by decide +kernel
  have hload : s.mach.load os (.var 0) = some 2048 := by decide +kernel
  have hiff := (ContainerRealloc.intact_iff hb.counted hb.placed hb.hosts hbump.sound.held hload
    (by decide +kernel) hl hgrow).of_error hrun (by decide)
  rw [List.take_zero, pagesOf_nil] at hiff
  exact ⟨s, _, _, ha, hrun, by decide, hiff.mpr (by decide +kernel)⟩

/-- The first of two containers is to grow when there are no frames left: a frame of the second one has
been moved. -/
theorem ContainerRealloc.not_intact :
    let os := OS.plain 7 (by decide) fun t => t != 4
    ∃ s e t, AllocRun os (16 * os.page_size) (Fresh.state os 16 16)
        [⟨.var 0, 8, 16⟩, ⟨.var 1, 8, 48⟩] s ∧
      ContainerRealloc os (.var 0) 8 32 s = .error e t ∧ e ∈ refusals ∧ ¬ Intact os s t := by
  intro os
  have h₁ := AllocRun.alloc (c := ⟨.var 0, 8, 16⟩)
    (@AllocRun.fresh os (16 * os.page_size) (Fresh.state os 16 16)) (.refl _ _ _)
    (eq_ok_of_returned (by decide +kernel))
  have h₂ := AllocRun.alloc (c := ⟨.var 1, 8, 48⟩) h₁ (.refl _ _ _)
    (eq_ok_of_returned (by decide +kernel))
  let s := endState ((Call.vcmalloc (.var 1) 8 48).run os (16 * os.page_size)
    (endState ((Call.vcmalloc (.var 0) 8 16).run os (16 * os.page_size) (Fresh.state os 16 16))))
  have hrun : ContainerRealloc os (.var 0) 8 32 s = .error (.thrown
      "structRealloc: couldn't allocate additional required frames")
      (endState (ContainerRealloc os (.var 0) 8 32 s)) := eq_error_of_fault (by decide +kernel)
  exact ⟨s, _, _, h₂, hrun, by decide, fun hi => absurd hi.frames (by decide +kernel)⟩

end Realloc

end VcmallocBench
