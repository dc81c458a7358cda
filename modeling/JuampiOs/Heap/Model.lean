import JuampiOs.Lib.Memory

/-!
# The kernel heap

The slab allocator of `memory.c` over one byte-addressed memory. The region given to
`heap_init` starts with an array of slab descriptors (`struct slab`, 32 bytes each) and
continues with 64 KiB slabs. A small slab is cut into blocks of one size class and threads
its free blocks through their own first words; a large allocation is a run of whole slabs.
`next` links a descriptor into the partial list of its class or into the list of free runs.

Pointers are addresses below `2^64`, `0` is `NULL`, and every sum the code computes in a
`uintptr_t`, a `char*` or a `uint32_t` is reduced as the machine reduces it. A
`kernel_panic` ends the computation with the panic that was raised.
-/

namespace JuampiOs.Heap

open Function Buf

/-- `SLAB_SIZE` (64 KiB). -/
def slabSize : Nat := 0x10000

/-- `MAX_SMALL`: the largest size class. -/
def maxSmall : Nat := 8192

/-- `LARGE_CLASS`: the class index of a large run. -/
def largeClass : Nat := 0xFFFFFFFF

/-- `sizeof(struct slab)`. -/
def descSize : Nat := 32

/-- `PTRDIFF_MAX`. -/
def ptrdiffMax : Int := 2 ^ 63 - 1

def classSizes : List Nat :=
  [16, 32, 48, 64, 96, 128, 192, 256, 384,
    512, 768, 1024, 1536, 2048, 3072, 4096, 6144, 8192]

/-- `class_size[c]`. -/
def classSize (c : Nat) : Nat := classSizes.getD c 0

/-- Arithmetic in a `uint32_t`. -/
def u32 (n : Nat) : Nat := n % 2 ^ 32

/-- Arithmetic in a `uintptr_t`, a `size_t` or on a `char*`. -/
def u64 (n : Nat) : Nat := n % 2 ^ 64

/-- `size_to_class`: the first class whose blocks hold `n` bytes. -/
def sizeToClass (n : Nat) : Nat :=
  match classSizes.findIdx? fun size => decide (n ≤ size) with
  | some c => c
  | none => largeClass

/-! ## Descriptors -/

/-- A `struct slab` as read from memory. -/
structure Slab where
  next : Nat
  freeList : Nat
  classIdx : Nat
  freeCount : Nat
  nslabs : Nat

/-- The descriptor at address `s`. -/
def slabAt (m : Buf) (s : Nat) : Slab where
  next := m.load s 8
  freeList := m.load (s + 8) 8
  classIdx := m.load (s + 16) 4
  freeCount := m.load (s + 20) 4
  nslabs := m.load (s + 24) 4

def setNext (m : Buf) (s v : Nat) : Buf := m.store s 8 v
def setFreeList (m : Buf) (s v : Nat) : Buf := m.store (s + 8) 8 v
def setClassIdx (m : Buf) (s v : Nat) : Buf := m.store (s + 16) 4 v
def setFreeCount (m : Buf) (s v : Nat) : Buf := m.store (s + 20) 4 v
def setNslabs (m : Buf) (s v : Nat) : Buf := m.store (s + 24) 4 v

/-! ## The allocator -/

/-- `struct heap_allocator`. -/
structure HeapAllocator where
  baseAddr : Nat
  bump : Nat
  endAddr : Nat
  descs : Nat
  partials : Nat → Nat
  freeRuns : Nat

/-- The allocator together with the memory it works on. -/
structure Machine where
  heap : HeapAllocator
  mem : Buf

/-- What ends a call that does not return: one of the kernel's panics, or a walk over the
list of free runs that never comes to its end. -/
inductive Stop where
  | outOfMemory
  | alignment
  | invalidSize
  | endless
  deriving DecidableEq

/-- The text the kernel panics with. -/
def Stop.message : Stop → Option String
  | .outOfMemory => some "Kernel heap out of memory"
  | .alignment => some "Heap alignment larger than 16"
  | .invalidSize => some "Invalid heap allocation size"
  | .endless => none

/-- `slab_of`: the descriptor of the slab an address lies in. -/
def slabOf (h : HeapAllocator) (p : Nat) : Nat :=
  u64 (h.descs + u64 (p + 2 ^ 64 - h.baseAddr) / slabSize * descSize)

/-- `slab_base`: the first byte of a descriptor's slab. -/
def slabBase (h : HeapAllocator) (s : Nat) : Nat :=
  u64 (h.baseAddr + (s - h.descs) / descSize * slabSize)

/-- `carve`: reserve `n` contiguous fresh slabs from the bump region. -/
def carve (h : HeapAllocator) (n : Nat) : Except Stop (Nat × HeapAllocator) :=
  if h.endAddr < u64 (h.bump + n * slabSize) then .error .outOfMemory
  else .ok (slabOf h h.bump, { h with bump := u64 (h.bump + n * slabSize) })

/-- The loop of `alloc_small` that threads the blocks of a fresh slab, the last one first:
`i` blocks are left to thread and `fl` is the list built so far. -/
def threadBlocks (base bs : Nat) : Nat → Nat → Buf → Nat × Buf
  | 0, fl, m => (fl, m)
  | i + 1, fl, m => threadBlocks base bs i (u64 (base + i * bs)) (m.store (u64 (base + i * bs)) 8 fl)

/-- The branch of `alloc_small` for a class without a free block: carve a slab and thread
all its blocks onto its free list. -/
def freshSlab (s : Machine) (c : Nat) : Except Stop (Nat × Machine) := do
  let (slab, h) ← carve s.heap 1
  let count := slabSize / classSize c
  let (fl, m) := threadBlocks (slabBase h slab) (classSize c) count 0 s.mem
  let m := setFreeList m slab fl
  let m := setFreeCount m slab count
  let m := setClassIdx m slab c
  let m := setNslabs m slab 1
  let m := setNext m slab 0
  .ok (slab, ⟨{ h with partials := update h.partials c slab }, m⟩)

/-- The rest of `alloc_small`: take the first free block of a slab and zero `n` bytes. -/
def takeBlock (s : Machine) (c slab n : Nat) : Nat × Machine :=
  let blk := (slabAt s.mem slab).freeList
  let m := setFreeList s.mem slab (s.mem.load blk 8)
  let m := setFreeCount m slab (u32 ((slabAt m slab).freeCount + 2 ^ 32 - 1))
  -- slab now full: drop it from the partial list
  let s := if (slabAt m slab).freeCount = 0 then
      ⟨{ s.heap with partials := update s.heap.partials c (slabAt m slab).next },
        setNext m slab 0⟩
    else { s with mem := m }
  (blk, { s with mem := s.mem.fill blk n })

def allocSmall (s : Machine) (n : Nat) : Except Stop (Nat × Machine) :=
  let c := sizeToClass n
  let slab := s.heap.partials c
  if slab = 0 then do
    let (slab, s) ← freshSlab s c
    .ok (takeBlock s c slab n)
  else .ok (takeBlock s c slab n)

def freeSmall (s : Machine) (slab p : Nat) : Machine :=
  let wasFull := (slabAt s.mem slab).freeCount = 0
  let m := s.mem.store p 8 (slabAt s.mem slab).freeList
  let m := setFreeList m slab p
  let m := setFreeCount m slab (u32 ((slabAt m slab).freeCount + 1))
  if wasFull then
    let c := (slabAt m slab).classIdx
    ⟨{ s.heap with partials := update s.heap.partials c slab },
      setNext m slab (s.heap.partials c)⟩
  else { s with mem := m }

/-! ## Large runs -/

/-- The first-fit loop of `alloc_large`: `prev` is the descriptor whose `next` field `pp`
points to, or `none` for `&h->free_runs`. `fuel` bounds the number of steps. -/
def findRun (m : Buf) (n : Nat) : Nat → Option Nat → Nat → Except Stop (Option (Option Nat × Nat))
  | 0, _, _ => .error .endless
  | fuel + 1, prev, r =>
    if r = 0 then .ok none
    else if (slabAt m r).nslabs < n then findRun m n fuel (some r) (slabAt m r).next
    else .ok (some (prev, r))

/-- `*pp = v`. -/
def storeVia (s : Machine) (prev : Option Nat) (v : Nat) : Machine :=
  match prev with
  | none => { s with heap := { s.heap with freeRuns := v } }
  | some q => { s with mem := setNext s.mem q v }

/-- The split of `alloc_large`: the slabs of `r` past the first `n` become a free run. -/
def splitRun (s : Machine) (r n : Nat) : Machine :=
  let rem := u64 (r + n * descSize)
  let m := setNslabs s.mem rem (u32 ((slabAt s.mem r).nslabs + 2 ^ 32 - n))
  let m := setClassIdx m rem largeClass
  let m := setNext m rem s.heap.freeRuns
  ⟨{ s.heap with freeRuns := rem }, m⟩

/-- Take `n` slabs from the free run `r` that `prev` leads to. -/
def takeRun (s : Machine) (prev : Option Nat) (r n : Nat) : Machine :=
  let s := storeVia s prev (slabAt s.mem r).next
  let s := if n < (slabAt s.mem r).nslabs then splitRun s r n else s
  { s with mem := setClassIdx (setNslabs s.mem r n) r largeClass }

/-- More steps than a list of free runs of this heap can have nodes. -/
def runBound (h : HeapAllocator) : Nat := (h.endAddr - h.baseAddr) / slabSize + 1

def allocLarge (s : Machine) (total : Nat) : Except Stop (Nat × Machine) := do
  let n := u32 ((total + slabSize - 1) / slabSize)
  match ← findRun s.mem n (runBound s.heap) none s.heap.freeRuns with
  | some (prev, r) =>
    let s := takeRun s prev r n
    .ok (slabBase s.heap r, { s with mem := s.mem.fill (slabBase s.heap r) total })
  | none =>
    let (slab, h) ← carve s.heap n
    let m := setNslabs (setClassIdx s.mem slab largeClass) slab n
    .ok (slabBase h slab, ⟨h, m.fill (slabBase h slab) total⟩)

/-! ## The interface -/

/-- The number of bytes a request asks for; an empty one takes a byte. -/
def requested (size count : Int) : Nat :=
  if size * count = 0 then 1 else (size * count).toNat

def heapAlloc (s : Machine) (size align count : Int) : Except Stop (Nat × Machine) :=
  if 16 < align then .error .alignment
  else if size ≤ 0 ∨ count < 0 ∨ (0 < count ∧ ptrdiffMax / count < size) then .error .invalidSize
  else if requested size count ≤ maxSmall then allocSmall s (requested size count)
  else allocLarge s (requested size count)

def heapInit (start size : Nat) : HeapAllocator :=
  let maxSlabs := u32 (size / slabSize)
  let after := u64 (start + maxSlabs * descSize)
  let base := u64 (after + slabSize - 1) / slabSize * slabSize
  { baseAddr := base
    bump := base
    endAddr := u64 (start + size) / slabSize * slabSize
    descs := start
    partials := fun _ => 0
    freeRuns := 0 }

def heapFree (s : Machine) (p : Nat) : Machine :=
  if p = 0 then s
  else
    let slab := slabOf s.heap p
    if (slabAt s.mem slab).classIdx = largeClass then
      ⟨{ s.heap with freeRuns := slab }, setNext s.mem slab s.heap.freeRuns⟩
    else freeSmall s slab p

def heapUsableSize (s : Machine) (p : Nat) : Nat :=
  let slab := slabOf s.heap p
  if (slabAt s.mem slab).classIdx = largeClass then (slabAt s.mem slab).nslabs * slabSize
  else classSize (slabAt s.mem slab).classIdx

/-! ## Calls that stop -/

theorem bind_eq_ok {α β : Type} {x : Except Stop α} {f : α → Except Stop β} {b : β} :
    (x >>= f) = .ok b ↔ ∃ a, x = .ok a ∧ f a = .ok b := by
  cases x <;> simp [bind, Except.bind]

theorem bind_eq_error {α β : Type} {x : Except Stop α} {f : α → Except Stop β} {e : Stop} :
    (x >>= f) = .error e ↔ x = .error e ∨ ∃ a, x = .ok a ∧ f a = .error e := by
  cases x <;> simp [bind, Except.bind]

theorem carve_stop {h : HeapAllocator} {n : Nat} {e : Stop} (hc : carve h n = .error e) :
    e = .outOfMemory := by
  unfold carve at hc
  split at hc
  · cases hc
    rfl
  · cases hc

/-! ## Reading descriptors back -/

section Fields

variable {m m' : Buf} {s v : Nat}

theorem slabAt_congr (h : ∀ a, s ≤ a → a < s + descSize → m' a = m a) :
    slabAt m' s = slabAt m s := by
  have hfield : ∀ off w, off + w ≤ descSize → m'.load (s + off) w = m.load (s + off) w := by
    intro off w hw
    exact load_congr fun i hi => h _ (by omega) (by omega)
  unfold slabAt
  rw [hfield 8 8 (by decide), hfield 16 4 (by decide), hfield 20 4 (by decide),
    hfield 24 4 (by decide), show m'.load s 8 = m.load s 8 from hfield 0 8 (by decide)]

@[simp] theorem slabAt_setNext : slabAt (setNext m s v) s = { slabAt m s with next := u64 v } := by
  simp (disch := omega) only [slabAt, setNext, load_store_self, load_store_apart]
  rfl

@[simp] theorem slabAt_setFreeList :
    slabAt (setFreeList m s v) s = { slabAt m s with freeList := u64 v } := by
  simp (disch := omega) only [slabAt, setFreeList, load_store_self, load_store_apart]
  rfl

@[simp] theorem slabAt_setClassIdx :
    slabAt (setClassIdx m s v) s = { slabAt m s with classIdx := u32 v } := by
  simp (disch := omega) only [slabAt, setClassIdx, load_store_self, load_store_apart]
  rfl

@[simp] theorem slabAt_setFreeCount :
    slabAt (setFreeCount m s v) s = { slabAt m s with freeCount := u32 v } := by
  simp (disch := omega) only [slabAt, setFreeCount, load_store_self, load_store_apart]
  rfl

@[simp] theorem slabAt_setNslabs :
    slabAt (setNslabs m s v) s = { slabAt m s with nslabs := u32 v } := by
  simp (disch := omega) only [slabAt, setNslabs, load_store_self, load_store_apart]
  rfl

variable {a : Nat} (h : a < s ∨ s + descSize ≤ a)
include h

/-- The assignments to the fields of a descriptor only write its own bytes. -/
theorem setNext_of_notMem : setNext m s v a = m a :=
  store_of_notMem (by simp only [descSize] at h; omega)

theorem setFreeList_of_notMem : setFreeList m s v a = m a :=
  store_of_notMem (by simp only [descSize] at h; omega)

theorem setClassIdx_of_notMem : setClassIdx m s v a = m a :=
  store_of_notMem (by simp only [descSize] at h; omega)

theorem setFreeCount_of_notMem : setFreeCount m s v a = m a :=
  store_of_notMem (by simp only [descSize] at h; omega)

theorem setNslabs_of_notMem : setNslabs m s v a = m a :=
  store_of_notMem (by simp only [descSize] at h; omega)

end Fields

end JuampiOs.Heap
