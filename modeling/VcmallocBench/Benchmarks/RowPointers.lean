import VcmallocBench.HyperContainer.Bump

/-! # Rows behind pointer arrays

The benchmarks allocate arrays of row pointers first and then, through their
entries, the rows. The rows of all arrays are behind the arrays, one after the
other in the order of the calls.
-/

namespace VcmallocBench

open Paging

/-- `for (i = 0; i < rows; i++) vcmalloc(container, P[i], N);` -/
def allocRows (os : OS) (container : ℕ) (P : PtrLoc) (sizeofT rows N : ℕ) : Op Unit :=
  (List.range' 0 rows).forM fun i => do
    let p ← loadPtr os P
    ContainerAlloc os container (.mem (p + 8 * i)) sizeofT N

/-- Allocates the arrays of `rows` pointers of the first `k` variables, then the rows of each. -/
def allocTables (os : OS) (container k sizeofT rows N : ℕ) : Op Unit := do
  (List.range' 0 k).forM fun x => ContainerAlloc os container (.var x) 8 rows
  (List.range' 0 k).forM fun x => allocRows os container (.var x) sizeofT rows N

/-- `&P[i][j]`. -/
def elementPtr (os : OS) (P : PtrLoc) (sizeofT i j : ℕ) : Op ℕ := do
  let p ← loadPtr os P
  let row ← loadPtr os (.mem (p + 8 * i))
  return row + sizeofT * j

def firstRow (os : OS) (P : PtrLoc) : Op ℕ := do
  let p ← loadPtr os P
  loadPtr os (.mem p)

section Filled

/-- Requests of `total` bytes went through the listed variables, which hold the listed addresses. -/
structure Filled (os : OS) (s : State) (h R total : ℕ) (held : List (PtrLoc × ℕ)) : Prop where
  bumped : ∃ cs st, Bumped os s h R cs st ∧ requested cs = total ∧
    cs.map (·.reference_) = held.map Prod.fst
  load : ∀ e ∈ held, s.mach.load os e.1 = some e.2
  within : ∀ e ∈ held, e.1.Within (h * os.page_size) (h * os.page_size + total)

variable {os : OS} {s : State} {h R total k x sizeofT rows N : ℕ} {held : List (PtrLoc × ℕ)}
  {l : PtrLoc}

theorem Fresh.filled (hf : Fresh os s h R) : Filled os s h R 0 [] := by
  obtain ⟨st, hb⟩ := hf.bumped
  exact ⟨⟨[], st, hb, rfl, rfl⟩, fun e he => absurd he List.not_mem_nil,
    fun e he => absurd he List.not_mem_nil⟩

theorem Filled.meets_alloc (hs : Filled os s h R total held) (hov : sizeofT * N < 2 ^ 64)
    (hw : l.Within (h * os.page_size) (h * os.page_size + total))
    (hap : ∀ e ∈ held, l.Apart e.1) :
    Meets (ContainerAlloc os (h * os.page_size) l sizeofT N) s (fun _ t =>
      Filled os t h R (total + sizeofT * N) (held ++ [(l, h * os.page_size + total)]))
      fun _ _ => True := by
  obtain ⟨cs, st, hb, rfl, hrefs⟩ := hs.bumped
  refine meets_of_returns fun _ t ht => ?_
  obtain ⟨st', hb'⟩ := hb.alloc (c := ⟨l, sizeofT, N⟩) hov ht
  have hreq : requested (cs ++ [⟨l, sizeofT, N⟩]) = requested cs + sizeofT * N := by
    simp [ContainerContext.bytes]
  refine ⟨⟨_, st', hb', hreq, ?_⟩, fun e he => ?_, fun e he => ?_⟩
  · rw [List.map_append, List.map_append, hrefs]
    rfl
  · rcases List.mem_append.mp he with he | he
    · exact hb.load_alloc (c := ⟨l, sizeofT, N⟩) ht (hap e he) hw (hs.within e he) (hs.load e he)
    · obtain rfl := List.mem_singleton.mp he
      exact hb'.last cs _ rfl
  · rcases List.mem_append.mp he with he | he
    · exact (hs.within e he).mono le_rfl (by omega)
    · obtain rfl := List.mem_singleton.mp he
      exact hw.mono le_rfl (by omega)

def rowsHeld (p a bytes rows : ℕ) : List (PtrLoc × ℕ) :=
  (List.range rows).map fun i => (.mem (p + 8 * i), a + i * bytes)

theorem rowsHeld_succ (p a bytes rows : ℕ) : rowsHeld p a bytes (rows + 1) =
    rowsHeld p a bytes rows ++ [(.mem (p + 8 * rows), a + rows * bytes)] := by
  rw [rowsHeld, List.range_succ, List.map_append]
  rfl

theorem mem_rowsHeld {p a bytes rows : ℕ} {e : PtrLoc × ℕ} : e ∈ rowsHeld p a bytes rows ↔
    ∃ i < rows, e = (.mem (p + 8 * i), a + i * bytes) := by
  simp only [rowsHeld, List.mem_map, List.mem_range, eq_comm]

theorem Filled.meets_allocRows {p : ℕ} (hs : Filled os s h R total held)
    (hov : sizeofT * N < 2 ^ 64) (hp : (PtrLoc.var x, p) ∈ held) (hlo : h * os.page_size ≤ p)
    (hhi : p + 8 * rows ≤ h * os.page_size + total)
    (hap : ∀ i < rows, ∀ e ∈ held, (PtrLoc.mem (p + 8 * i)).Apart e.1) :
    Meets (allocRows os (h * os.page_size) (.var x) sizeofT rows N) s (fun _ t =>
      Filled os t h R (total + rows * (sizeofT * N))
        (held ++ rowsHeld p (h * os.page_size + total) (sizeofT * N) rows)) fun _ _ => True := by
  have hloop := meets_forM_range (E := fun _ _ => True) (I := fun i t =>
      Filled os t h R (total + i * (sizeofT * N))
        (held ++ rowsHeld p (h * os.page_size + total) (sizeofT * N) i))
    (f := fun i => do
      let p ← loadPtr os (.var x)
      ContainerAlloc os (h * os.page_size) (.mem (p + 8 * i)) sizeofT N) rows 0 s
  rw [zero_add] at hloop
  refine hloop ?_ fun i t _ hi ht => ?_
  · rw [zero_mul, add_zero, rowsHeld, List.range_zero, List.map_nil, List.append_nil]
    exact hs
  · rw [meets_bind, meets_loadPtr (ht.load _ (List.mem_append_left _ hp))]
    refine (ht.meets_alloc (l := .mem (p + 8 * i)) hov ⟨by omega, by omega⟩ fun e he => ?_).imp
      fun _ u hu => ?_
    · rcases List.mem_append.mp he with he | he
      · exact hap i hi e he
      · obtain ⟨j, hj, rfl⟩ := mem_rowsHeld.mp he
        exact Or.inr (by omega)
    · rw [rowsHeld_succ, add_mul, one_mul, ← add_assoc, ← List.append_assoc]
      rw [← add_assoc] at hu
      exact hu

def arraysHeld (base rows k : ℕ) : List (PtrLoc × ℕ) :=
  (List.range k).map fun x => (.var x, base + x * (8 * rows))

theorem mem_arraysHeld {base : ℕ} {e : PtrLoc × ℕ} : e ∈ arraysHeld base rows k ↔
    ∃ x < k, e = (.var x, base + x * (8 * rows)) := by
  simp only [arraysHeld, List.mem_map, List.mem_range, eq_comm]

theorem Fresh.meets_arrays (hf : Fresh os s h R) (hov : 8 * rows < 2 ^ 64) :
    Meets ((List.range' 0 k).forM fun x => ContainerAlloc os (h * os.page_size) (.var x) 8 rows) s
      (fun _ t => Filled os t h R (k * (8 * rows)) (arraysHeld (h * os.page_size) rows k))
      fun _ _ => True := by
  have hloop := meets_forM_range (E := fun _ _ => True) (I := fun x t =>
      Filled os t h R (x * (8 * rows)) (arraysHeld (h * os.page_size) rows x))
    (f := fun x => ContainerAlloc os (h * os.page_size) (.var x) 8 rows) k 0 s
  rw [zero_add] at hloop
  refine hloop ?_ fun x t _ hx ht => ?_
  · rw [zero_mul]
    exact hf.filled
  · refine (ht.meets_alloc (l := .var x) hov trivial fun e he => ?_).imp fun _ u hu => ?_
    · obtain ⟨y, hy, rfl⟩ := mem_arraysHeld.mp he
      exact hy.ne'
    · rw [add_mul, one_mul, arraysHeld, List.range_succ, List.map_append]
      exact hu

def tablesHeld (base rows bytes k m : ℕ) : List (PtrLoc × ℕ) :=
  (List.range m).flatMap fun x => rowsHeld (base + x * (8 * rows))
    (base + k * (8 * rows) + x * (rows * bytes)) bytes rows

theorem mem_tablesHeld {base bytes m : ℕ} {e : PtrLoc × ℕ} : e ∈ tablesHeld base rows bytes k m ↔
    ∃ x < m, ∃ i < rows, e = (.mem (base + x * (8 * rows) + 8 * i),
      base + k * (8 * rows) + x * (rows * bytes) + i * bytes) := by
  simp only [tablesHeld, List.mem_flatMap, List.mem_range, mem_rowsHeld]

/-- Every array leads to its rows, which follow the arrays and each other. -/
theorem Fresh.meets_allocTables (hf : Fresh os s h R) (hov : 8 * rows < 2 ^ 64)
    (hov' : sizeofT * N < 2 ^ 64) :
    Meets (allocTables os (h * os.page_size) k sizeofT rows N) s (fun _ t =>
      Filled os t h R (k * (8 * rows) + k * (rows * (sizeofT * N)))
        (arraysHeld (h * os.page_size) rows k ++
          tablesHeld (h * os.page_size) rows (sizeofT * N) k k)) fun _ _ => True := by
  rw [allocTables, meets_bind]
  refine (hf.meets_arrays hov).imp fun _ t ht => ?_
  have hloop := meets_forM_range (E := fun _ _ => True) (I := fun x t =>
      Filled os t h R (k * (8 * rows) + x * (rows * (sizeofT * N)))
        (arraysHeld (h * os.page_size) rows k ++
          tablesHeld (h * os.page_size) rows (sizeofT * N) k x))
    (f := fun x => allocRows os (h * os.page_size) (.var x) sizeofT rows N) k 0 t
  rw [zero_add] at hloop
  refine hloop ?_ fun x u _ hx hu => ?_
  · rw [zero_mul, add_zero, tablesHeld, List.range_zero, List.flatMap_nil, List.append_nil]
    exact ht
  have hxk : x * (8 * rows) + 8 * rows ≤ k * (8 * rows) := by
    rw [← Nat.succ_mul]
    exact Nat.mul_le_mul_right _ hx
  have hp : (PtrLoc.var x, h * os.page_size + x * (8 * rows)) ∈ arraysHeld (h * os.page_size) rows k :=
    mem_arraysHeld.mpr ⟨x, hx, rfl⟩
  refine (hu.meets_allocRows hov' (List.mem_append_left _ hp) (by omega) (by omega)
    fun i hi e he => ?_).imp fun _ v hv => ?_
  · rcases List.mem_append.mp he with he | he
    · obtain ⟨y, -, rfl⟩ := mem_arraysHeld.mp he
      exact trivial
    · obtain ⟨y, hy, j, hj, rfl⟩ := mem_tablesHeld.mp he
      have hyx : y * (8 * rows) + 8 * rows ≤ x * (8 * rows) := by
        rw [← Nat.succ_mul]
        exact Nat.mul_le_mul_right _ hy
      exact Or.inr (by omega)
  · rw [add_mul, one_mul, ← add_assoc, tablesHeld, List.range_succ, List.flatMap_append,
      List.flatMap_singleton, ← List.append_assoc]
    rw [← add_assoc] at hv
    exact hv

end Filled

/-- The pointers that the rows of `k` arrays are reached through, and the memory of the rows. Each row
has `bytes` bytes. -/
structure Rows (os : OS) (base k rows bytes : ℕ) (s : State) : Prop where
  held : s.mach.Held os base (base + (k * (8 * rows) + k * (rows * bytes)))
  limit : base + (k * (8 * rows) + k * (rows * bytes)) ≤ 2 ^ 47
  array : ∀ x < k, s.mach.load os (.var x) = some (base + x * (8 * rows))
  row : ∀ x < k, ∀ i < rows, s.mach.load os (.mem (base + x * (8 * rows) + 8 * i)) =
    some (base + k * (8 * rows) + x * (rows * bytes) + i * bytes)

section Rows

variable {os : OS} {s s' : State} {base h R k x i rows bytes sizeofT : ℕ}
  {held : List (PtrLoc × ℕ)}

theorem Filled.toRows (hs : Filled os s h R (k * (8 * rows) + k * (rows * bytes))
      (arraysHeld (h * os.page_size) rows k ++ tablesHeld (h * os.page_size) rows bytes k k))
    (hb : Between os s s' s.ctx.containers) : Rows os (h * os.page_size) k rows bytes s' := by
  obtain ⟨cs, st, hbump, htotal, hrefs⟩ := hs.bumped
  have hkept : ∀ e ∈ arraysHeld (h * os.page_size) rows k ++
      tablesHeld (h * os.page_size) rows bytes k k, s'.mach.load os e.1 = some e.2 := by
    intro e he
    have hmem := List.mem_map_of_mem (f := Prod.fst) he
    rw [← hrefs] at hmem
    obtain ⟨c, hc, hce⟩ := List.mem_map.mp hmem
    rw [← hs.load e he, ← hce]
    exact hb.kept c (by rwa [hbump.core.containers_eq])
  have hlen : (st.take s.ctx.pfns_num_).length = s.ctx.pfns_num_ := by
    rw [List.length_take, Nat.min_eq_left hbump.core.num]
  have hheld := hbump.backed.held_range
  have hle := le_ceil_mul os.page_size_pos (h * os.page_size + requested cs)
  rw [hbump.ceil_eq, htotal] at hle
  rw [hlen] at hheld
  constructor
  · constructor
    · intro a h₁ h₂
      have hm := hheld.mapped a h₁ (h₂.trans_le hle)
      rwa [Machine.mapped, ← hb.pageTable] at hm
    · intro a b h₁ h₂ h₃ h₄ he
      rw [hb.pageTable] at he
      exact hheld.inj a b h₁ (h₂.trans_le hle) h₃ (h₄.trans_le hle) he
  · exact hle.trans hbump.end_le
  · exact fun x hx => hkept _ (List.mem_append_left _ (mem_arraysHeld.mpr ⟨x, hx, rfl⟩))
  · exact fun x hx i hi => hkept (_, _) (List.mem_append_right _
      (mem_tablesHeld.mpr ⟨x, hx, i, hi, rfl⟩))

namespace Rows

theorem elementPtr_eq (hr : Rows os base k rows bytes s) (hx : x < k) (hi : i < rows) (j : ℕ) :
    elementPtr os (.var x) sizeofT i j s =
      .ok (base + k * (8 * rows) + x * (rows * bytes) + i * bytes + sizeofT * j) s := by
  have hm : Meets (elementPtr os (.var x) sizeofT i j) s (fun v t => t = s ∧
      v = base + k * (8 * rows) + x * (rows * bytes) + i * bytes + sizeofT * j)
      fun _ _ => False := by
    rw [elementPtr, meets_bind, meets_loadPtr (hr.array x hx), meets_bind,
      meets_loadPtr (hr.row x hx i hi)]
    exact (meets_pure _).mpr ⟨rfl, rfl⟩
  obtain ⟨_, _, hs, rfl, rfl⟩ := hm.returns fun _ he => he
  exact hs

theorem firstRow_eq (hr : Rows os base k rows bytes s) (hx : x < k) (hrows : 0 < rows) :
    firstRow os (.var x) s = .ok (base + k * (8 * rows) + x * (rows * bytes)) s := by
  have hm : Meets (firstRow os (.var x)) s (fun v t => t = s ∧
      v = base + k * (8 * rows) + x * (rows * bytes)) fun _ _ => False := by
    have hrow := hr.row x hx 0 hrows
    rw [zero_mul, mul_zero, add_zero, add_zero] at hrow
    rw [firstRow, meets_bind, meets_loadPtr (hr.array x hx), meets_loadPtr hrow]
    exact ⟨rfl, rfl⟩
  obtain ⟨_, _, hs, rfl, rfl⟩ := hm.returns fun _ he => he
  exact hs

theorem end_le (hx : x < k) (hi : i < rows) {n : ℕ} (hn : n ≤ bytes) :
    base + k * (8 * rows) + x * (rows * bytes) + i * bytes + n ≤
      base + (k * (8 * rows) + k * (rows * bytes)) := by
  have h₁ : x * (rows * bytes) + rows * bytes ≤ k * (rows * bytes) := by
    rw [← Nat.succ_mul]
    exact Nat.mul_le_mul_right _ hx
  have h₂ : i * bytes + bytes ≤ rows * bytes := by
    rw [← Nat.succ_mul]
    exact Nat.mul_le_mul_right _ hi
  omega

theorem store (hr : Rows os base k rows bytes s) {a n : ℕ} (bs : ℕ → Byte)
    (ha : base + k * (8 * rows) ≤ a)
    (hn : a + n ≤ base + (k * (8 * rows) + k * (rows * bytes))) :
    ∃ m, s.mach.store os a bs n = some m ∧ Rows os base k rows bytes { s with mach := m } := by
  obtain ⟨d, hs, hread⟩ := Machine.store_spec bs (Nat.le_of_add_right_le ha) hn hr.held
  refine ⟨_, hs, ⟨⟨hr.held.mapped, hr.held.inj⟩, hr.limit, fun x hx => hr.array x hx,
    fun x hx i hi => ?_⟩⟩
  rw [← hr.row x hx i hi]
  refine Machine.load_congr (fun _ he => by cases he) fun b hb => ?_
  obtain ⟨h₁, h₂⟩ := hb
  have h₃ : x * (8 * rows) + 8 * rows ≤ k * (8 * rows) := by
    rw [← Nat.succ_mul]
    exact Nat.mul_le_mul_right _ hx
  rw [hread b (by omega) (by omega), if_neg (by omega)]

end Rows

end Rows

end VcmallocBench
