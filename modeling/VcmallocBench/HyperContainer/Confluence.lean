import VcmallocBench.HyperContainer.Histories

/-! # Order and history of resizes

The pages of a container determine its element count, and the last count asked
for determines its pages. Sequences of resizes with the same last counts lead to
the same layout.
-/

namespace VcmallocBench

open Paging

/-- The last count asked for the container of a variable. -/
def lastCount (user : PtrLoc) (calls : List Call) : Option ℕ :=
  calls.reverse.findSome? fun
    | .vcrealloc u _ n => if u = user then some n else none
    | _ => none

def RegularResize (os : OS) (s : State) (call : Call) : Prop :=
  Regular os s call ∧ ∃ user sizeofT n, call = .vcrealloc user sizeofT n

/-- The containers `L` after resizes of the containers `L₀`: each has kept its element size and the
bytes that it shares with its neighbours, and has the pages of the last count asked for. -/
structure Settled (os : OS) (cs : List ContainerContext) (L₀ L : List Container)
    (calls : List Call) : Prop where
  length_eq : L.length = L₀.length
  entry : ∀ (j : ℕ) c l₀, cs[j]? = some c → L₀[j]? = some l₀ → ∃ l, L[j]? = some l ∧
    l.type_size_ = l₀.type_size_ ∧ l.priorFreeBytes os = l₀.priorFreeBytes os ∧
    l.guestBytes os = l₀.guestBytes os ∧ l.nbrOfPages os = l₀.requestedPages os l₀.type_size_
      ((lastCount c.reference_ calls).getD l₀.elements_num_)

section Settled

variable {os : OS} {s₀ s t t₁ t₂ : State} {h R : ℕ} {calls₀ calls calls₁ calls₂ : List Call}
  {cs : List ContainerContext} {st : List Frame} {L₀ L L₁ L₂ : List Container} {l : Container}
  {user u : PtrLoc} {sizeofT n a : ℕ}

theorem lastCount_append : lastCount user (calls ++ [.vcrealloc u sizeofT n]) =
    if u = user then some n else lastCount user calls := by
  rw [lastCount, List.reverse_append, List.reverse_singleton, List.singleton_append,
    List.findSome?_cons]
  split
  · rename_i m hm
    dsimp only at hm
    split at hm
    · rename_i hu
      rw [if_pos hu, ← hm]
    · cases hm
  · rename_i hm
    dsimp only at hm
    split at hm
    · cases hm
    · rename_i hu
      rw [if_neg hu, lastCount]

theorem requestedPages_self (hf : l.Fits os) (hlt : l.nbrOfPages os * os.page_size < 2 ^ 53)
    (hs : sizeofT = l.type_size_) :
    l.requestedPages os sizeofT l.elements_num_ = l.nbrOfPages os := by
  have hbytes := Container.bytes_add_guestBytes hf
  have hprior : l.priorFreeBytes os < os.page_size := Container.priorFreeBytes_lt hf.reference_lt
  have hP := os.page_size_lt
  have hb : l.elements_num_ * sizeofT = l.bytes := by rw [hs, mul_comm, Container.bytes]
  rw [Container.requestedPages, requestedBytes_eq (by omega) (by omega), hb,
    show l.bytes + l.guestBytes os - l.priorFreeBytes os = l.nbrOfPages os * os.page_size by omega,
    ceilPages, toDouble_of_lt hlt, ceil_mul_self os.page_size_pos]

theorem requestedPages_congr {l l' : Container} (hp : l.priorFreeBytes os = l'.priorFreeBytes os)
    (hg : l.guestBytes os = l'.guestBytes os) :
    l.requestedPages os sizeofT n = l'.requestedPages os sizeofT n := by
  rw [Container.requestedPages, Container.requestedPages, hp, hg]

theorem Laid.settled_start (hb : Laid os s h R cs st L) : Settled os cs L L [] where
  length_eq := rfl
  entry j c l _ hl := by
    refine ⟨l, hl, rfl, rfl, rfl, ?_⟩
    have hf := hb.counted.fits l (List.mem_of_getElem? hl)
    have hend := hb.end_le
    have hpages := @pagesOf_eq os _ _ _ hl
    have hle : l.nbrOfPages os * os.page_size ≤ (h + s.ctx.pfns_num_) * os.page_size := by
      refine Nat.mul_le_mul_right _ ?_
      rw [← hb.placed.pages]
      omega
    exact (requestedPages_self hf (by omega) rfl).symm

/-- One resize brings one container to the pages of the count asked for. -/
theorem Settled.step {k : ℕ} {c : ContainerContext} {lo : ℕ} {m : Machine}
    (hv : Views os m lo lo cs L₀) (hs : Settled os cs L₀ L calls) (hk : cs[k]? = some c)
    (hl : L[k]? = some l) (hsize : sizeofT = l.type_size_) (hlen : L₁.length = L.length)
    (hentry : ∀ j d, L[j]? = some d → ∃ d', L₁[j]? = some d' ∧ Reshaped os j k l d d' sizeofT n) :
    Settled os cs L₀ L₁ (calls ++ [.vcrealloc c.reference_ sizeofT n]) where
  length_eq := hlen.trans hs.length_eq
  entry j c' l₀ hj hl₀ := by
    obtain ⟨d, hd, h₁, h₂, h₃, h₄⟩ := hs.entry j c' l₀ hj hl₀
    obtain ⟨d', hd', hshape⟩ := hentry j d hd
    refine ⟨d', hd', hshape.type_size.trans h₁, hshape.prior.trans h₂, hshape.guest.trans h₃, ?_⟩
    rw [hshape.pages, lastCount_append]
    split
    · rename_i hjk
      subst hjk
      obtain rfl := Option.some.inj (hk.symm.trans hj)
      obtain rfl := Option.some.inj (hl.symm.trans hd)
      rw [if_pos rfl, Option.getD_some, hsize, h₁, requestedPages_congr h₂ h₃]
    · rename_i hjk
      rw [if_neg fun he => hjk (hv.reference_inj hk hj he).symm]
      exact h₄

theorem Run.settled {m : Machine} {lo : ℕ} (hb : Laid os s h R cs st L₀) (hd : Dividing os L₀)
    (hv : Views os m lo lo cs L₀)
    (hrun : Run (Calling os (RegularResize os) fun s call t =>
      Completes (call.run os (h * os.page_size)) s t) s calls t) :
    ∃ cs' st' L, cs'.map (·.reference_) = cs.map (·.reference_) ∧ Laid os t h R cs' st' L ∧
      Dividing os L ∧ Settled os cs L₀ L calls := by
  refine hrun.indexed (I := fun calls t => ∃ cs' st' L, cs'.map (·.reference_) =
    cs.map (·.reference_) ∧ Laid os t h R cs' st' L ∧ Dividing os L ∧ Settled os cs L₀ L calls) ?_ ?_
  · exact ⟨cs, st, L₀, rfl, hb, hd, hb.settled_start⟩
  · rintro calls t call t' ⟨cs', st', L, hrefs, hb', hd', hs⟩
      ⟨s', hbetween, ⟨hok, user, sizeofT, n, rfl⟩, hcall⟩
    obtain ⟨cs'', st'', L', hb'', hd'', hrefs', hlen, k, c, l, hk, rfl, hl, hsize, hentry⟩ :=
      (hb'.between hbetween).regular_step hd' hok hcall
    refine ⟨cs'', st'', L', hrefs'.trans hrefs, hb'', hd'', ?_⟩
    -- the table of the start has the same variable at this index
    have hk₀ := congrArg (·[k]?) hrefs
    simp only [List.getElem?_map, hk, Option.map_some] at hk₀
    obtain ⟨c₀, hc₀, href⟩ := Option.map_eq_some_iff.mp hk₀.symm
    rw [← href]
    exact hs.step hv hc₀ hl hsize hlen hentry

theorem Tiled.ext : ∀ {a : ℕ} {L₁ L₂ : List Container}, Tiled a L₁ → Tiled a L₂ →
    L₁.map (fun l => (l.type_size_, l.elements_num_)) =
      L₂.map (fun l => (l.type_size_, l.elements_num_)) → L₁ = L₂
  | _, [], [], _, _, _ => rfl
  | _, [], _ :: _, _, _, h => by simp at h
  | _, _ :: _, [], _, _, h => by simp at h
  | a, ⟨r, s, n⟩ :: L₁, ⟨r', s', n'⟩ :: L₂, ⟨h₁, ht₁⟩, ⟨h₂, ht₂⟩, h => by
    simp only [List.map_cons, List.cons.injEq, Prod.mk.injEq] at h
    obtain ⟨⟨rfl, rfl⟩, h⟩ := h
    obtain rfl : r = a := h₁
    obtain rfl : r' = r := h₂
    rw [ht₁.ext ht₂ h]

/-- The shared bytes and the pages of a container determine its element count. -/
theorem elements_eq {l l' : Container} (hf : l.Fits os) (hf' : l'.Fits os) (hpos : 0 < l.bytes)
    (hs : l.type_size_ = l'.type_size_) (hp : l.priorFreeBytes os = l'.priorFreeBytes os)
    (hg : l.guestBytes os = l'.guestBytes os) (hn : l.nbrOfPages os = l'.nbrOfPages os) :
    l.elements_num_ = l'.elements_num_ := by
  have h₁ := Container.bytes_add_guestBytes hf
  have h₂ := Container.bytes_add_guestBytes hf'
  rw [hp, hg, hn] at h₁
  have hbytes : l.type_size_ * l.elements_num_ = l.type_size_ * l'.elements_num_ := by
    have : l.bytes = l'.bytes := by omega
    rw [Container.bytes, Container.bytes, ← hs] at this
    exact this
  exact Nat.eq_of_mul_eq_mul_left (Nat.pos_of_mul_pos_right hpos) hbytes

/-- Two sequences of resizes from one layout, in which the last count asked for each container is the
same, lead to the same references, element counts and page counts. A container that no request names
counts as asked for the elements that it has. -/
theorem Run.confluent (hf : Fresh os s₀ h R)
    (hrun₀ : Run (Calling os (Regular os) fun s call t =>
      Completes (call.run os (h * os.page_size)) s t) s₀ calls₀ s)
    (hrun₁ : Run (Calling os (RegularResize os) fun s call t =>
      Completes (call.run os (h * os.page_size)) s t) s calls₁ t₁)
    (hrun₂ : Run (Calling os (RegularResize os) fun s call t =>
      Completes (call.run os (h * os.page_size)) s t) s calls₂ t₂)
    (hlast : ∀ c ∈ s.ctx.containers,
      (lastCount c.reference_ calls₁).getD c.elements_num_ =
        (lastCount c.reference_ calls₂).getD c.elements_num_) :
    t₁.ctx.pfns_num_ = t₂.ctx.pfns_num_ ∧ ∀ k, t₁.container? os k = t₂.container? os k := by
  obtain ⟨cs, st, L₀, hb, hd⟩ := hrun₀.laid hf
  have hv := hb.counted.views
  obtain ⟨cs₁, st₁, L₁, -, hb₁, hd₁, hs₁⟩ := hrun₁.settled hb hd hv
  obtain ⟨cs₂, st₂, L₂, -, hb₂, -, hs₂⟩ := hrun₂.settled hb hd hv
  have hL : L₁ = L₂ := by
    refine hb₁.placed.tiled.ext hb₂.placed.tiled (List.ext_getElem? fun j => ?_)
    rw [List.getElem?_map, List.getElem?_map]
    rcases Nat.lt_or_ge j L₀.length with hj | hj
    · have hl₀ := List.getElem?_eq_getElem hj
      obtain ⟨c, hc, -⟩ := hv.get hl₀
      obtain ⟨l₁, hl₁, h₁, h₂, h₃, h₄⟩ := hs₁.entry j c _ hc hl₀
      obtain ⟨l₂, hl₂, h₁', h₂', h₃', h₄'⟩ := hs₂.entry j c _ hc hl₀
      have hm₁ := List.mem_of_getElem? hl₁
      have hm₂ := List.mem_of_getElem? hl₂
      have hlast' := hlast c (by
        rw [hb.counted.core.containers_eq]
        exact List.mem_of_getElem? hc)
      obtain ⟨-, hnum, -⟩ := hv.sizes hc hl₀
      rw [hnum] at hlast'
      have hn := elements_eq (hb₁.counted.fits l₁ hm₁) (hb₂.counted.fits l₂ hm₂) (hd₁ l₁ hm₁).1
        (h₁.trans h₁'.symm) (h₂.trans h₂'.symm) (h₃.trans h₃'.symm) (by rw [h₄, h₄', hlast'])
      rw [hl₁, hl₂, Option.map_some, Option.map_some, h₁, h₁', hn]
    · rw [List.getElem?_eq_none (by rw [hs₁.length_eq]; exact hj),
        List.getElem?_eq_none (by rw [hs₂.length_eq]; exact hj)]
  subst hL
  refine ⟨hb₁.placed.pages.symm.trans hb₂.placed.pages, fun k => ?_⟩
  rw [hb₁.counted.views'.reads.container?_eq, hb₂.counted.views'.reads.container?_eq]

/-- The two containers grow in either order. -/
theorem Run.confluent_two :
    let os := OS.plain 7 (by decide) fun _ => true
    ∃ s t₁ t₂, Run (Calling os (Regular os) fun s call t =>
        Completes (call.run os (16 * os.page_size)) s t) (Fresh.state os 16 16)
        [.vcmalloc (.var 0) 8 20, .vcmalloc (.var 1) 8 4] s ∧
      Run (Calling os (RegularResize os) fun s call t =>
        Completes (call.run os (16 * os.page_size)) s t) s
        [.vcrealloc (.var 0) 8 40, .vcrealloc (.var 1) 8 30] t₁ ∧
      Run (Calling os (RegularResize os) fun s call t =>
        Completes (call.run os (16 * os.page_size)) s t) s
        [.vcrealloc (.var 1) 8 30, .vcrealloc (.var 0) 8 40] t₂ ∧
      t₁.ctx.pfns_num_ = t₂.ctx.pfns_num_ ∧ ∀ k, t₁.container? os k = t₂.container? os k := by
  intro os
  have hf : Fresh os (Fresh.state os 16 16) 16 16 := Fresh.of_state (by decide) (by decide)
  have h₁ := Run.start.next (Calling.of_returned os (Regular os) (16 * os.page_size)
    (Fresh.state os 16 16) (.vcmalloc (.var 0) 8 20) ⟨⟨⟨0, rfl⟩, by decide +kernel⟩, by decide +kernel⟩
    (by decide +kernel))
  have h₂ := h₁.next (Calling.of_returned os (Regular os) _ _ (.vcmalloc (.var 1) 8 4)
    ⟨⟨⟨1, rfl⟩, by decide +kernel⟩, by decide +kernel⟩ (by decide +kernel))
  let s := endState ((Call.vcmalloc (.var 1) 8 4).run os (16 * os.page_size)
    (endState ((Call.vcmalloc (.var 0) 8 20).run os (16 * os.page_size) (Fresh.state os 16 16))))
  have ha₁ := Run.start.next (Calling.of_returned os (RegularResize os) (16 * os.page_size) s
    (.vcrealloc (.var 0) 8 40) ⟨⟨by decide, 0, ⟨.var 0, 8, 20⟩, ⟨2048, 8, 20⟩,
      ⟨by decide +kernel, rfl, rfl, by decide +kernel⟩, ⟨by decide +kernel, by decide +kernel⟩⟩,
      _, _, _, rfl⟩ (by decide +kernel))
  have ha₂ := ha₁.next (Calling.of_returned os (RegularResize os) _ _ (.vcrealloc (.var 1) 8 30)
    ⟨⟨by decide, 1, ⟨.var 1, 8, 4⟩, ⟨2464, 8, 4⟩,
      ⟨by decide +kernel, rfl, rfl, by decide +kernel⟩, ⟨by decide +kernel, by decide +kernel⟩⟩,
      _, _, _, rfl⟩ (by decide +kernel))
  have hb₁ := Run.start.next (Calling.of_returned os (RegularResize os) (16 * os.page_size) s
    (.vcrealloc (.var 1) 8 30) ⟨⟨by decide, 1, ⟨.var 1, 8, 4⟩, ⟨2208, 8, 4⟩,
      ⟨by decide +kernel, rfl, rfl, by decide +kernel⟩, ⟨by decide +kernel, by decide +kernel⟩⟩,
      _, _, _, rfl⟩ (by decide +kernel))
  have hb₂ := hb₁.next (Calling.of_returned os (RegularResize os) _ _ (.vcrealloc (.var 0) 8 40)
    ⟨⟨by decide, 0, ⟨.var 0, 8, 20⟩, ⟨2048, 8, 20⟩,
      ⟨by decide +kernel, rfl, rfl, by decide +kernel⟩, ⟨by decide +kernel, by decide +kernel⟩⟩,
      _, _, _, rfl⟩ (by decide +kernel))
  exact ⟨_, _, _, h₂, ha₂, hb₂, Run.confluent hf h₂ ha₂ hb₂ (by decide +kernel)⟩

end Settled

end VcmallocBench
