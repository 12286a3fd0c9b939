import VcmallocBench.Library.Agreement
import VcmallocBench.Benchmarks.RowPointers

/-! # Matrix multiplication and the copy to the device

The matrices are allocated row by row behind three arrays of pointers. One
benchmark goes through the pointers, the other one computes the place of an
element from the first element of the first matrix. The CUDA benchmark copies
all rows of one array as a single block.
-/

namespace VcmallocBench

open Paging

/-- The type of the elements: its size, how its values lie in memory, and its arithmetic. -/
structure ElementType (T : Type) where
  sizeofT : ℕ
  sizeofT_pos : 0 < sizeofT
  decode : List Byte → T
  encode : T → ℕ → Byte
  ofSize : ℕ → T
  add : T → T → T
  mul : T → T → T

namespace MatrixMultiplication

def P_1 : PtrLoc := .var 0

def P_2 : PtrLoc := .var 1

def P_3 : PtrLoc := .var 2

variable {T : Type} (os : OS) (type : ElementType T)

def readElement (a : ℕ) : Op T := fetch (fun s =>
  if ∀ i < type.sizeofT, s.mach.mapped os (a + i) then
    some (type.decode ((List.range type.sizeofT).map fun i => (s.mach.read os (a + i)).getD 0))
  else none) .segv

def writeElement (a : ℕ) (v : T) : Op Unit :=
  onMachine (fun m => m.store os a (type.encode v) type.sizeofT) .segv

def allocate (container N : ℕ) : Op Unit := do
  ContainerAlloc os container P_1 8 N
  ContainerAlloc os container P_2 8 N
  ContainerAlloc os container P_3 8 N
  allocRows os container P_1 type.sizeofT N N
  allocRows os container P_2 type.sizeofT N N
  allocRows os container P_3 type.sizeofT N N

def firstValues (N : ℕ) : Op Unit :=
  (List.range N).forM fun i => (List.range N).forM fun j => do
    writeElement os type (← elementPtr os P_1 type.sizeofT i j) (type.ofSize (u64 (i * N + j)))
    writeElement os type (← elementPtr os P_2 type.sizeofT i j) (type.ofSize (u64 (i * N + j)))
    writeElement os type (← elementPtr os P_3 type.sizeofT i j) (type.ofSize 0)

/-- The triple loop, with the accesses to the matrices. `temp` is zero before each inner loop. -/
def multiply (N : ℕ) (left right : ℕ → ℕ → Op T) (result : ℕ → ℕ → T → Op Unit) : Op Unit :=
  (List.range N).forM fun i => (List.range N).forM fun j => do
    let temp ← (List.range N).foldlM (fun temp k => do
      let a ← left i k
      let b ← right k j
      return type.add temp (type.mul a b)) (type.ofSize 0)
    result i j temp

/-- The loop of `vcmalloc_matmult_single_pointer_first`. -/
def pointerFirst (N : ℕ) : Op Unit :=
  multiply type N
    (fun i k => do readElement os type (← elementPtr os P_1 type.sizeofT i k))
    (fun k j => do readElement os type (← elementPtr os P_2 type.sizeofT k j))
    fun i j temp => do writeElement os type (← elementPtr os P_3 type.sizeofT i j) temp

def affineArray (N : ℕ) : Op Unit := do
  let firstElem ← firstRow os P_1
  multiply type N
    (fun i k => readElement os type (firstElem + type.sizeofT * u64 (i * N + k)))
    (fun k j => readElement os type (firstElem + type.sizeofT * u64 (k * N + j + N * N)))
    fun i j temp =>
      writeElement os type (firstElem + type.sizeofT * u64 (i * N + j + 2 * N * N)) temp

/-- The elements counted from the first one are those that the row pointers lead to, they lie behind
the arrays of pointers, and, whatever the program has written to the rows, both loops return in the
same state, also after the matrices have been given their first values. -/
structure Affine (N : ℕ) (s : State) : Prop where
  elements : ∃ p₁ p₂ p₃ firstElem, s.mach.load os P_1 = some p₁ ∧ s.mach.load os P_2 = some p₂ ∧
    s.mach.load os P_3 = some p₃ ∧ firstRow os P_1 s = .ok firstElem s ∧
    (∀ i < N, ∀ k < N, elementPtr os P_1 type.sizeofT i k s =
      .ok (firstElem + type.sizeofT * u64 (i * N + k)) s) ∧
    (∀ k < N, ∀ j < N, elementPtr os P_2 type.sizeofT k j s =
      .ok (firstElem + type.sizeofT * u64 (k * N + j + N * N)) s) ∧
    (∀ i < N, ∀ j < N, elementPtr os P_3 type.sizeofT i j s =
      .ok (firstElem + type.sizeofT * u64 (i * N + j + 2 * N * N)) s) ∧
    ∀ p ∈ [p₁, p₂, p₃], p + 8 * N ≤ firstElem
  loops : ∀ s', Between os s s' s.ctx.containers →
    (∃ t, pointerFirst os type N s' = .ok () t ∧ affineArray os type N s' = .ok () t) ∧
    ∃ t₀ t, firstValues os type N s' = .ok () t₀ ∧ pointerFirst os type N t₀ = .ok () t ∧
      affineArray os type N t₀ = .ok () t

section Accesses

variable {os type} {s s₀ : State} {base N i j k x h R : ℕ}

theorem allocate_eq (container : ℕ) : allocate os type container N =
    allocTables os container 3 type.sizeofT N N := by
  have h₁ : ∀ f : ℕ → Op Unit, (List.range' 0 3).forM f = (do f 0; f 1; f 2; pure ()) := fun _ => rfl
  rw [allocTables, h₁, h₁, allocate]
  simp [P_1, P_2, P_3]

theorem address_eq (base x N b i j : ℕ) : base + 3 * (8 * N) + x * (N * (b * N)) + i * (b * N) + b * j =
    base + 3 * (8 * N) + b * (i * N + j + x * (N * N)) := by ring

theorem index_lt (hi : i < N) (hj : j < N) (hx : x < 3) : i * N + j + x * (N * N) < 3 * (N * N) := by
  have h₁ : i * N + N ≤ N * N := by
    rw [← Nat.succ_mul]
    exact Nat.mul_le_mul_right _ hi
  have h₂ : x * (N * N) + N * N ≤ 3 * (N * N) := by
    rw [← Nat.succ_mul]
    exact Nat.mul_le_mul_right _ hx
  omega

abbrev Matrices (os : OS) (type : ElementType T) (base N : ℕ) : State → Prop :=
  Rows os base 3 N (type.sizeofT * N)

theorem u64_index (hr : Matrices os type base N s) (hi : i < N) (hj : j < N) (hx : x < 3) :
    u64 (i * N + j + x * (N * N)) = i * N + j + x * (N * N) := by
  have h₁ := index_lt hi hj hx
  have h₂ : 3 * (N * N) ≤ 3 * (N * (type.sizeofT * N)) := by
    have := Nat.le_mul_of_pos_left (N * N) type.sizeofT_pos
    calc 3 * (N * N) ≤ 3 * (type.sizeofT * (N * N)) := Nat.mul_le_mul_left 3 this
      _ = 3 * (N * (type.sizeofT * N)) := by ring
  have h₃ := hr.limit
  exact u64_of_lt (by omega)

theorem elementPtr_eq (hr : Matrices os type base N s) (hx : x < 3) (hi : i < N) (hj : j < N) :
    elementPtr os (.var x) type.sizeofT i j s =
      .ok (base + 3 * (8 * N) + type.sizeofT * u64 (i * N + j + x * (N * N))) s := by
  rw [hr.elementPtr_eq hx hi, address_eq, u64_index hr hi hj hx]

theorem firstRow_eq (hr : Matrices os type base N s) (hN : 0 < N) :
    firstRow os P_1 s = .ok (base + 3 * (8 * N)) s := by
  have h := hr.firstRow_eq (x := 0) (by decide) hN
  rwa [zero_mul, add_zero] at h

theorem element_end_le (type : ElementType T) (base : ℕ) (hi : i < N) (hj : j < N) (hx : x < 3) :
    base + 3 * (8 * N) + x * (N * (type.sizeofT * N)) + i * (type.sizeofT * N) + type.sizeofT * j +
      type.sizeofT ≤ base + (3 * (8 * N) + 3 * (N * (type.sizeofT * N))) := by
  have h₁ : type.sizeofT * j + type.sizeofT ≤ type.sizeofT * N := by
    rw [← Nat.mul_succ]
    exact Nat.mul_le_mul_left _ hj
  have h₂ := @Rows.end_le base 3 x i N _ hx hi _ h₁
  omega

theorem agrees_readElement (os : OS) (type : ElementType T) (base : ℕ) (hi : i < N) (hj : j < N) (hx : x < 3) :
    Agrees (Matrices os type base N)
      (do readElement os type (← elementPtr os (.var x) type.sizeofT i j))
      (readElement os type (base + 3 * (8 * N) + type.sizeofT * u64 (i * N + j + x * (N * N)))) := by
  refine .of_value (fun s hr => elementPtr_eq hr hx hi hj) (.of_meets fun s hr => ?_)
  have hend := element_end_le type base hi hj hx
  rw [address_eq] at hend
  rw [u64_index hr hi hj hx]
  refine (meets_fetch (if_pos fun b hb => ?_)).mpr hr
  exact hr.held.mapped _ (by omega) (by omega)

theorem meets_writeElement (hr : Matrices os type base N s) (hi : i < N) (hj : j < N) (hx : x < 3)
    (v : T) : Meets (writeElement os type
      (base + 3 * (8 * N) + type.sizeofT * u64 (i * N + j + x * (N * N))) v) s
      (fun _ => Matrices os type base N) fun _ _ => False := by
  have hend := element_end_le type base hi hj hx
  rw [address_eq] at hend
  rw [u64_index hr hi hj hx]
  obtain ⟨m, hm, hr'⟩ := hr.store (type.encode v) (Nat.le_add_right _ _) hend
  exact (meets_onMachine hm).mpr hr'

theorem agrees_writeElement (os : OS) (type : ElementType T) (base : ℕ) (hi : i < N) (hj : j < N) (hx : x < 3) (v : T) :
    Agrees (Matrices os type base N)
      (do writeElement os type (← elementPtr os (.var x) type.sizeofT i j) v)
      (writeElement os type (base + 3 * (8 * N) + type.sizeofT * u64 (i * N + j + x * (N * N))) v) :=
  .of_value (fun _ hr => elementPtr_eq hr hx hi hj)
    (.of_meets fun _ hr => meets_writeElement hr hi hj hx v)

theorem agrees_multiply {I : State → Prop} {left left' right right' : ℕ → ℕ → Op T}
    {result result' : ℕ → ℕ → T → Op Unit}
    (hl : ∀ i < N, ∀ k < N, Agrees I (left i k) (left' i k))
    (hr : ∀ k < N, ∀ j < N, Agrees I (right k j) (right' k j))
    (hw : ∀ i < N, ∀ j < N, ∀ v, Agrees I (result i j v) (result' i j v)) :
    Agrees I (multiply type N left right result) (multiply type N left' right' result') := by
  refine .forM fun i hi => .forM fun j hj => ?_
  rw [List.mem_range] at hi hj
  refine .bind (.foldlM (fun temp k hk => ?_) _) fun temp => hw i hi j hj temp
  rw [List.mem_range] at hk
  exact (hl i hi k hk).bind fun a => (hr k hk j hj).bind fun b => .pure _

/-- The two benchmarks leave the same memory. -/
theorem agrees_loops (hN : 0 < N) :
    Agrees (Matrices os type base N) (pointerFirst os type N) (affineArray os type N) := by
  refine .symm (.of_value (fun s hr => firstRow_eq hr hN) (.symm (agrees_multiply ?_ ?_ ?_)))
  · intro i hi k hk
    have h := agrees_readElement os type base (x := 0) hi hk (by decide)
    rwa [zero_mul, add_zero] at h
  · intro k hk j hj
    have h := agrees_readElement os type base (x := 1) hk hj (by decide)
    rwa [one_mul] at h
  · intro i hi j hj v
    have h := agrees_writeElement os type base (x := 2) hi hj (by decide) v
    rwa [← Nat.mul_assoc 2 N N] at h

theorem agrees_firstValues :
    Agrees (Matrices os type base N) (firstValues os type N) (firstValues os type N) := by
  refine .forM fun i hi => .forM fun j hj => .of_meets fun s hr => ?_
  rw [List.mem_range] at hi hj
  have hwrite : ∀ {x : ℕ}, x < 3 → ∀ {s : State} {v : T} {p : Op Unit}, Matrices os type base N s →
      (∀ s, Matrices os type base N s → Meets p s (fun _ => Matrices os type base N)
        fun _ _ => False) →
      Meets (do
        writeElement os type (← elementPtr os (.var x) type.sizeofT i j) v
        p) s (fun _ => Matrices os type base N) fun _ _ => False := by
    intro x hx s v p hr hp
    rw [meets_bind]
    refine meets_of_ok (elementPtr_eq hr hx hi hj) ?_
    rw [meets_bind]
    exact (meets_writeElement hr hi hj hx v).imp fun _ t ht => hp t ht
  refine hwrite (x := 0) (by decide) hr fun s hr => hwrite (x := 1) (by decide) hr fun s hr => ?_
  rw [meets_bind]
  exact meets_of_ok (elementPtr_eq (x := 2) hr (by decide) hi hj)
    (meets_writeElement hr hi hj (by decide) _)

end Accesses

section Allocated

variable {os : OS} {type : ElementType T} {s s₀ s' : State} {N h R : ℕ}

theorem matrices (hf : Fresh os s₀ h R) (hov : 8 * N < 2 ^ 64) (hov' : type.sizeofT * N < 2 ^ 64)
    (hs : allocate os type (h * os.page_size) N s₀ = .ok () s)
    (hb : Between os s s' s.ctx.containers) : Matrices os type (h * os.page_size) N s' := by
  rw [allocate_eq] at hs
  exact ((hf.meets_allocTables hov hov').of_ok hs).toRows hb

theorem affine (hf : Fresh os s₀ h R) (hN : 0 < N) (hov : 8 * N < 2 ^ 64)
    (hov' : type.sizeofT * N < 2 ^ 64) (hs : allocate os type (h * os.page_size) N s₀ = .ok () s) :
    Affine os type N s := by
  have hr := matrices hf hov hov' hs (.refl os s _)
  refine ⟨⟨_, _, _, _, hr.array 0 (by decide), hr.array 1 (by decide), hr.array 2 (by decide),
    firstRow_eq hr hN, fun i hi k hk => ?_, fun k hk j hj => ?_, fun i hi j hj => ?_, ?_⟩,
    fun s' hb => ?_⟩
  · have h := elementPtr_eq (x := 0) hr (by decide) hi hk
    rwa [zero_mul, add_zero] at h
  · have h := elementPtr_eq (x := 1) hr (by decide) hk hj
    rwa [one_mul] at h
  · have h := elementPtr_eq (x := 2) hr (by decide) hi hj
    rwa [← Nat.mul_assoc 2 N N] at h
  · simp only [List.mem_cons, List.not_mem_nil, or_false]
    rintro p (rfl | rfl | rfl) <;> omega
  · have hr' := matrices hf hov hov' hs hb
    obtain ⟨_, t, ht, ht', -⟩ := (agrees_loops hN).returns hr'
    obtain ⟨_, t₀, h₀, -, hr₀⟩ := agrees_firstValues.returns hr'
    obtain ⟨_, u, hu, hu', -⟩ := (agrees_loops hN).returns hr₀
    exact ⟨⟨t, ht, ht'⟩, t₀, u, h₀, hu, hu'⟩

end Allocated

end MatrixMultiplication

namespace CudaCopy

def h_data : PtrLoc := .var 0

/-- The allocations of `vcmalloc_cuda_copy` for arrays of `N * M` doubles. -/
def allocate (os : OS) (container param_num N M : ℕ) : Op Unit := do
  ContainerAlloc os container h_data 8 param_num
  allocRows os container h_data 8 param_num (N * M)

/-- A block of bytes of the host, which `cudaMemcpy` takes to the device. -/
def hostBlock (os : OS) (m : Machine) (src count : ℕ) : Option (List Byte) :=
  if ∀ i < count, m.mapped os (src + i) then
    some ((List.range count).map fun i => (m.read os (src + i)).getD 0)
  else none

/-- The block at `*h_data` that is copied is made of the rows in their order, and its elements are
those of the rows. -/
def CopiesRows (os : OS) (param_num N M : ℕ) (s : State) : Prop :=
  ∃ first d, firstRow os h_data s = .ok first s ∧
    hostBlock os s.mach first (8 * (N * M) * param_num) = some d ∧
    ∀ i < param_num, ∃ row, elementPtr os h_data 8 i 0 s = .ok row s ∧
      hostBlock os s.mach row (8 * (N * M)) =
        some ((d.drop (i * (8 * (N * M)))).take (8 * (N * M))) ∧
      ∀ j < N * M, elementPtr os h_data 8 i j s = .ok (first + 8 * (i * (N * M) + j)) s

variable {os : OS} {s s₀ s' : State} {h R param_num N M : ℕ}

theorem hostBlock_part {m : Machine} {a count i n : ℕ} {d : List Byte}
    (hd : hostBlock os m a count = some d) (hn : i + n ≤ count) :
    hostBlock os m (a + i) n = some ((d.drop i).take n) := by
  rw [hostBlock] at hd
  split at hd
  case isFalse => cases hd
  case isTrue hm =>
    obtain rfl := Option.some.inj hd
    have hm' : ∀ j < n, m.mapped os (a + i + j) := fun j hj => by
      rw [add_assoc]
      exact hm _ (by omega)
    rw [hostBlock, if_pos hm']
    refine congrArg some (List.ext_getElem (by simp; omega) fun j hj _ => ?_)
    simp [add_assoc]

theorem copiesRows (hf : Fresh os s₀ h R) (hpos : 0 < param_num) (hov : 8 * param_num < 2 ^ 64)
    (hov' : 8 * (N * M) < 2 ^ 64)
    (hs : allocate os (h * os.page_size) param_num N M s₀ = .ok () s)
    (hb : Between os s s' s.ctx.containers) : CopiesRows os param_num N M s' := by
  have hs' : allocTables os (h * os.page_size) 1 8 param_num (N * M) s₀ = .ok () s := by
    have h₁ : ∀ f : ℕ → Op Unit, (List.range' 0 1).forM f = (do f 0; pure ()) := fun _ => rfl
    rw [← hs, allocTables, h₁, h₁, allocate]
    simp [h_data]
  have hr := ((hf.meets_allocTables hov hov').of_ok hs').toRows hb
  have hfirst := hr.firstRow_eq (x := 0) (by decide) hpos
  have hptr : ∀ i < param_num, ∀ j, elementPtr os h_data 8 i j s' = .ok _ s' := fun i hi j =>
    hr.elementPtr_eq (x := 0) (by decide) hi j
  rw [zero_mul, add_zero] at hfirst
  simp only [zero_mul, add_zero] at hptr
  have hcopy : ∃ d, hostBlock os s'.mach (h * os.page_size + 1 * (8 * param_num))
      (8 * (N * M) * param_num) = some d := by
    refine ⟨_, if_pos fun i hi => hr.held.mapped _ (by omega) ?_⟩
    rw [mul_comm param_num]
    omega
  obtain ⟨d, hd⟩ := hcopy
  refine ⟨_, d, hfirst, hd, fun i hi => ?_⟩
  have hrow := hptr i hi 0
  rw [mul_zero, add_zero] at hrow
  refine ⟨_, hrow, ?_, fun j hj => ?_⟩
  · refine hostBlock_part hd ?_
    rw [mul_comm (8 * (N * M)) param_num, ← Nat.succ_mul]
    exact Nat.mul_le_mul_right _ hi
  · rw [hptr i hi j]
    congr 1
    ring

end CudaCopy

/-- Access from the first element on is access through the row pointers. -/
theorem affine_access {os : OS} {s₀ : State} {h R : ℕ} (hf : Fresh os s₀ h R) :
    (∀ {T : Type} (type : ElementType T) (N : ℕ) (s : State), 0 < N → 8 * N < 2 ^ 64 →
      type.sizeofT * N < 2 ^ 64 →
      MatrixMultiplication.allocate os type (h * os.page_size) N s₀ = .ok () s →
      MatrixMultiplication.Affine os type N s) ∧
    ∀ (param_num N M : ℕ) (s s' : State), 0 < param_num → 8 * param_num < 2 ^ 64 →
      8 * (N * M) < 2 ^ 64 →
      CudaCopy.allocate os (h * os.page_size) param_num N M s₀ = .ok () s →
      Between os s s' s.ctx.containers → CudaCopy.CopiesRows os param_num N M s' :=
  ⟨fun _ _ _ hN hov hov' hs => MatrixMultiplication.affine hf hN hov hov' hs,
    fun _ _ _ _ _ hpos hov hov' hs hb => CudaCopy.copiesRows hf hpos hov hov' hs hb⟩

def ElementType.words : ElementType ℕ where
  sizeofT := 8
  sizeofT_pos := by decide
  decode bs := Nat.ofDigits 256 (bs.map UInt8.toNat)
  encode := leByte
  ofSize n := n
  add a b := u64 (a + b)
  mul a b := u64 (a * b)

theorem affine_access_three :
    let os := OS.plain 7 (by decide) fun _ => true
    (∃ s, MatrixMultiplication.Affine os .words 3 s) ∧ ∃ s, CudaCopy.CopiesRows os 5 2 3 s := by
  intro os
  have hf : Fresh os (Fresh.state os 16 16) 16 16 := Fresh.of_state (by decide) (by decide)
  exact ⟨⟨_, (affine_access hf).1 .words 3 _ (by decide) (by decide) (by decide)
      (eq_ok_of_returned (by decide +kernel))⟩,
    _, (affine_access hf).2 5 2 3 _ _ (by decide) (by decide) (by decide)
      (eq_ok_of_returned (by decide +kernel)) (.refl _ _ _)⟩

end VcmallocBench
