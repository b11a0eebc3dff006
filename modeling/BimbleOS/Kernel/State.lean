import BimbleOS.Memory.HeapOwners
import BimbleOS.Fs.Fat16Item
import BimbleOS.Task.Process
import BimbleOS.Task.TaskList
import BimbleOS.Lib.Exec

/-!
# `Kernel.State` — the state of the kernel, and `memory/heap/kheap.c`

Everything the kernel keeps between two calls: the heap table, the bytes in memory, the page tables, the
tasks, the process structures and the table of open files. The kernel's own structures are kept apart
from the bytes, each under its address; a freed structure keeps its contents, as the heap leaves them.

A kernel function is a computation over this state. It may stop with a `Fault`: the kernel panicked, or
did something that C leaves undefined.
-/

namespace BimbleOS

open Bytes

inductive Fault where
  /-- A null pointer was followed. -/
  | nullPointer
  /-- A variable was read that nothing was assigned to. -/
  | uninitialised
  /-- An access outside an object, or outside the address space. -/
  | outOfBounds
  /-- A structure was read after it had been freed. -/
  | useAfterFree
  /-- Signed overflow, or another operation that C leaves undefined. -/
  | undefined
  | divisionByZero
  /-- A member of a union was read that its tag does not name. -/
  | wrongMember
  | panic
  deriving DecidableEq, Repr

/-! ## Open files -/

/-- A `struct FAT_Directory` on the heap, by its address and that of its item array. -/
inductive FatDirectoryPtr where
  | null
  | freed
  | live (directory item : Nat) (content : FatDirectory)

/-- The union in `struct FAT_Item`, with the type that tags it. -/
inductive FatItemBody where
  | directory (ptr : FatDirectoryPtr)
  | file (item : Nat) (content : FatDirectoryItem)

/-- `struct FAT_Item` at `addr`. -/
structure FatItem where
  addr : Nat
  body : FatItemBody

/-- `struct FAT_FileDescriptor` at `addr`. -/
structure FatFileDescriptor where
  addr : Nat
  item : FatItem
  pos : Nat := 0

/-- `struct FileDescriptor` at `addr`; `filesystem` is what `filesystem` and `disk` lead to. -/
structure FileDescriptor where
  addr : Nat
  index : Nat
  filesystem : Option FatVolume := none
  privateData : Option FatFileDescriptor := none

/-! ## The state -/

structure Kernel where
  heap : Heap
  memory : Mem
  pages : PageStore
  tasks : TaskList
  /-- The process structures, by address. -/
  process : Nat → Process
  /-- `processes[]`; 0 is an empty slot. -/
  processes : Nat → Nat
  currentProcess : Nat := 0
  /-- `file_descriptors[]`. -/
  fileDescriptors : Nat → Option FileDescriptor
  /-- The pages that the kernel itself is in: its code and data, its stack below `tss.esp0`, and the structure that
      `kernel_chunk` points to. -/
  ownPages : List Nat := [0x100000, 0x5FF000, 0x1001000]
  /-- Ghost: every read of the union in `struct Process`, with the member that was written last. -/
  unionReads : List (ImageMember × Option ImageMember) := []

/-- The kernel before anything is allocated. -/
def bootKernel : Kernel where
  heap := { table := { entries := fun _ => heapBlockTableEntryFree, totalEntries := 25600 },
            saddr := bimbleosHeapAddress }
  memory := fun _ => 0
  pages := { word := fun _ => 0 }
  tasks := { task := fun _ => {} }
  process := fun _ => {}
  processes := fun _ => 0
  fileDescriptors := fun _ => none

theorem bootKernel_ready : bootKernel.heap.Ready := ⟨rfl, Nat.le_refl 25600⟩

theorem bootKernel_freeBlocks : bootKernel.heap.freeBlocks = 25600 := by
  have hfree : heapGetEntryType heapBlockTableEntryFree = heapBlockTableEntryFree := by decide
  have hall : ∀ i ∈ Finset.range 25600, bootKernel.heap.table.Free i := fun _ _ => hfree
  unfold Heap.freeBlocks
  show ((Finset.range 25600).filter fun i => bootKernel.heap.table.Free i).card = 25600
  rw [Finset.filter_true_of_mem hall, Finset.card_range]

/-- A kernel function. -/
abbrev KM := StateT Kernel (Except Fault)

/-- An operation that C may leave undefined. -/
def defined {α : Type} : Option α → KM α
  | some a => pure a
  | none => throw .undefined

theorem defined_some {α : Type} {a : α} {k : Kernel} : defined (some a) k = .ok (a, k) := rfl

theorem defined_run {α : Type} {a : Option α} {b : α} {k k' : Kernel} (hrun : defined a k = .ok (b, k')) :
    a = some b ∧ k' = k := by
  cases a with
  | none => cases hrun
  | some a =>
      cases hrun
      exact ⟨rfl, rfl⟩

/-- Follow a pointer. -/
def deref (ptr : Nat) : KM Unit := if ptr = 0 then throw .nullPointer else pure ()

theorem deref_of_ne {ptr : Nat} {k : Kernel} (h : ptr ≠ 0) : deref ptr k = .ok ((), k) := by
  unfold deref
  rw [if_neg h]
  rfl

theorem deref_null {k : Kernel} : deref 0 k = .error .nullPointer := rfl

/-! ## `kheap.c` -/

def kmalloc (size : Nat) : KM Nat := do
  let k ← get
  let (ptr, heap) := heapMalloc k.heap size
  modify fun k => { k with heap := heap }
  return ptr

/-- `kzalloc`; clearing more memory than there is behind `ptr` is out of bounds. -/
def kzalloc (size : Nat) : KM Nat := do
  let ptr ← kmalloc size
  if ptr = 0 then return 0
  else if 4294967296 < ptr + size then throw .outOfBounds
  else
    modify fun k => { k with memory := fill k.memory ptr size 0 }
    return ptr

/-- The three outcomes of `kzalloc`. -/
theorem kzalloc_eq (size : Nat) (k : Kernel) : kzalloc size k =
    if (heapMalloc k.heap size).1 = 0 then .ok (0, { k with heap := (heapMalloc k.heap size).2 })
    else if 4294967296 < (heapMalloc k.heap size).1 + size then .error .outOfBounds
    else .ok ((heapMalloc k.heap size).1, { k with
      heap := (heapMalloc k.heap size).2
      memory := fill k.memory (heapMalloc k.heap size).1 size 0 }) := by
  have hmalloc : kmalloc size k
      = .ok ((heapMalloc k.heap size).1, { k with heap := (heapMalloc k.heap size).2 }) := rfl
  unfold kzalloc
  show (kmalloc size k >>= fun q => _) = _
  rw [hmalloc]
  generalize (heapMalloc k.heap size).1 = ptr
  generalize (heapMalloc k.heap size).2 = heap
  show (if ptr = 0 then _ else if _ then _ else _ : KM Nat) _ = _
  split
  · rfl
  · split
    · rfl
    · rfl

/-- **A small structure** is allocated as long as there is a free block. -/
theorem kzalloc_one (size : Nat) {k : Kernel} (h : k.heap.Ready) (h₁ : 1 ≤ size) (h₂ : size ≤ 4096) :
    (kzalloc size k = .ok (0, k) ∧ k.heap.freeBlocks = 0) ∨
      ∃ ptr k', kzalloc size k = .ok (ptr, k') ∧ ptr ≠ 0 ∧ k'.heap.Ready ∧
        k'.heap.freeBlocks + 1 = k.heap.freeBlocks := by
  have htotal := h.total
  have hstart : k.heap.saddr = 16777216 := h.start
  rw [kzalloc_eq]
  rcases heapMalloc_one h h₁ h₂ with ⟨hnull, hzero⟩ | ⟨s, hs, _, hres, hcount⟩
  · rw [hnull]
    exact Or.inl ⟨rfl, hzero⟩
  · rw [hres]
    have hptr : k.heap.saddr + 4096 * s ≠ 0 := by omega
    have hend : ¬ 4294967296 < k.heap.saddr + 4096 * s + size := by omega
    simp only [hptr, hend, if_false]
    exact Or.inr ⟨_, _, rfl, hptr, h.markBlocksTaken, hcount⟩

/-- A request for less than the address space behind the heap returns, with or without a block. -/
theorem kzalloc_returns {size : Nat} {k : Kernel} (h : k.heap.Ready) (hsize : size ≤ 0xF0000000) :
    ∃ memory, kzalloc size k
      = .ok ((heapMalloc k.heap size).1, { k with heap := (heapMalloc k.heap size).2, memory := memory }) := by
  have htotal := h.total
  rw [kzalloc_eq]
  rcases @heapMalloc_answer k.heap size h with ⟨heq, _⟩ | ⟨s, heq, hs, _⟩
  · rw [heq, if_pos rfl]
    exact ⟨k.memory, rfl⟩
  · have hptr : bimbleosHeapAddress + 4096 * s ≠ 0 := by
      unfold bimbleosHeapAddress
      omega
    have hend : ¬ 4294967296 < bimbleosHeapAddress + 4096 * s + size := by
      unfold bimbleosHeapAddress
      omega
    rw [heq, if_neg hptr, if_neg hend]
    exact ⟨_, rfl⟩

/-- An allocation that is used afterwards: what it returned, and what else it changed. -/
theorem kzalloc_run {size ptr : Nat} {k k' : Kernel} (hrun : kzalloc size k = .ok (ptr, k')) :
    ptr = (heapMalloc k.heap size).1 ∧ ∃ memory,
      k' = { k with heap := (heapMalloc k.heap size).2, memory := memory } := by
  rw [kzalloc_eq] at hrun
  split at hrun
  · rename_i hnull
    cases hrun
    exact ⟨hnull.symm, k.memory, rfl⟩
  · split at hrun
    · cases hrun
    · cases hrun
      exact ⟨rfl, _, rfl⟩

theorem kzalloc_clean {size ptr : Nat} {k k' : Kernel} (hclean : k.heap.Clean) (hsize : size < 4294967296)
    (hrun : kzalloc size k = .ok (ptr, k')) : k'.heap.Clean := by
  obtain ⟨_, memory, rfl⟩ := kzalloc_run hrun
  exact (cleanRule.malloc hclean hsize).1

/-- A structure on a clean heap lies in a block that was free. -/
theorem kzalloc_fresh {size ptr : Nat} {k k' : Kernel} (hclean : k.heap.Clean) (h₁ : 1 ≤ size) (h₂ : size ≤ 0xFFFFF000)
    (hrun : kzalloc size k = .ok (ptr, k')) (hne : ptr ≠ 0) :
    kfreeBlock ptr ∈ k'.heap.taken ∧ kfreeBlock ptr ∉ k.heap.taken := by
  obtain ⟨hptr, memory, rfl⟩ := kzalloc_run hrun
  exact hclean.malloc_block h₁ h₂ hptr.symm hne

theorem kzalloc_taken {size ptr : Nat} {k k' : Kernel} (hclean : k.heap.Clean) (h₁ : 1 ≤ size) (h₂ : size ≤ 0xFFFFF000)
    (hrun : kzalloc size k = .ok (ptr, k')) (hne : ptr ≠ 0) :
    k'.heap.Clean ∧ ∃ b, b ∉ k.heap.taken ∧ b ∈ k'.heap.taken := by
  obtain ⟨htaken, hfree⟩ := kzalloc_fresh hclean h₁ h₂ hrun hne
  exact ⟨kzalloc_clean hclean (by omega) hrun, kfreeBlock ptr, hfree, htaken⟩

theorem deref_run {ptr : Nat} {k k' : Kernel} (hrun : deref ptr k = .ok ((), k')) :
    ptr ≠ 0 ∧ k' = k := by
  unfold deref at hrun
  split at hrun
  · cases hrun
  · rename_i hne
    cases hrun
    exact ⟨hne, rfl⟩

def kfree (ptr : Nat) : KM Unit := modify fun k => { k with heap := heapFree k.heap ptr }

/-! ## Room -/

theorem bootKernel_tailRoom {n : Nat} (hn : n < 25600) : bootKernel.heap.TailRoom n := by
  have hfree : heapGetEntryType heapBlockTableEntryFree = heapBlockTableEntryFree := by decide
  exact ⟨bootKernel_ready, hn, fun _ _ _ => hfree⟩

theorem bootKernel_clean : bootKernel.heap.Clean := by
  have hlast : heapBlockTableEntryFree &&& heapBlockHasNext = 0#8 := by decide
  exact ⟨bootKernel_ready, fun _ _ _ hnext => hnext hlast⟩

/-- A request that leaves room for `n` blocks at the end of the heap. -/
theorem kzalloc_tail {n size : Nat} (hsize : size ≤ 0xFFFFF000) :
    Exec.Total (fun k => k.heap.TailRoom (n + heapBlocks size) ∧ (heapBlocks size = 0 → k.heap.Used))
      (kzalloc size) fun ptr k => ptr ≠ 0 ∧ k.heap.TailRoom n ∧ k.heap.Used := by
  rintro k ⟨hroom, hused⟩
  have htotal := hroom.ready.total
  obtain ⟨s, heq, hend, hroom', hused'⟩ := hroom.malloc hused
  have hcover : size ≤ 4096 * heapBlocks size := by
    rcases Nat.eq_zero_or_pos size with rfl | hpos
    · exact Nat.zero_le _
    · exact (heapBlocks_of_le hpos hsize).2.1
  rw [kzalloc_eq, heq]
  have hptr : bimbleosHeapAddress + 4096 * s ≠ 0 := by
    unfold bimbleosHeapAddress
    omega
  have hinside : ¬ 4294967296 < bimbleosHeapAddress + 4096 * s + size := by
    unfold bimbleosHeapAddress
    omega
  rw [if_neg hptr, if_neg hinside]
  exact ⟨_, _, rfl, hptr, hroom', hused'⟩

/-- A small structure. -/
theorem kzalloc_small {n size : Nat} (h₁ : 1 ≤ size) (h₂ : size ≤ 4096) :
    Exec.Total (fun k => k.heap.TailRoom (n + 1)) (kzalloc size)
      fun ptr k => ptr ≠ 0 ∧ k.heap.TailRoom n ∧ k.heap.Used := by
  have hone := heapBlocks_one h₁ h₂
  refine (kzalloc_tail (by omega)).consequence (fun k hroom => ?_) fun _ _ h => h
  rw [hone]
  exact ⟨hroom, fun h => by omega⟩

theorem kfree_tail {n ptr : Nat} :
    Exec.Total (fun k => k.heap.TailRoom n) (kfree ptr) fun _ k => k.heap.TailRoom n :=
  Exec.Total.modify fun _ h => h.kfree

/-- Room for `n` more blocks, while the blocks of `ptrs` are held. -/
structure Kernel.Room (ptrs : List Nat) (n : Nat) (k : Kernel) : Prop where
  room : k.heap.TailRoom n
  holding : k.heap.Holding ptrs

section Room

variable {ptrs ptrs' : List Nat} {n size ptr : Nat} {k : Kernel}

theorem Kernel.room_nil (h : k.heap.TailRoom n) : k.Room [] n := ⟨h, k.heap.holding_nil⟩

theorem Kernel.Room.drop (h : k.Room (ptr :: ptrs) n) : k.Room ptrs n := ⟨h.room, h.holding.drop⟩

theorem Kernel.Room.perm (h : k.Room ptrs n) (hperm : ptrs.Perm ptrs') : k.Room ptrs' n :=
  ⟨h.room, h.holding.perm hperm⟩

/-- A small structure is held from then on. -/
theorem kzalloc_room (h₁ : 1 ≤ size) (h₂ : size ≤ 4096) :
    Exec.Total (Kernel.Room ptrs (n + 1)) (kzalloc size) fun ptr k => ptr ≠ 0 ∧ k.Room (ptr :: ptrs) n := by
  intro k h
  obtain ⟨ptr, k', hrun, hne, hroom, _⟩ := @kzalloc_small n size h₁ h₂ k h.room
  refine ⟨ptr, k', hrun, hne, hroom, ?_⟩
  obtain ⟨rfl, memory, rfl⟩ := kzalloc_run hrun
  exact h.holding.malloc h.room.ready h₁ h₂ hne

theorem Kernel.Room.free (h : k.Room (ptr :: ptrs) n) : Kernel.Room ptrs n { k with heap := heapFree k.heap ptr } :=
  ⟨h.room.kfree, h.holding.free h.room.ready⟩

end Room

/-- `paging_map_to` on the kernel's page tables. -/
def kernelMapTo (pageDirectory virt phys physEnd : Nat) (flags : BitVec 32) : KM Int := do
  let k ← get
  let (res, pages) := pagingMapTo k.pages pageDirectory virt phys physEnd flags
  modify fun k => { k with pages := pages }
  return res

theorem kernelMapTo_eq (d virt phys physEnd : Nat) (flags : BitVec 32) (k : Kernel) :
    kernelMapTo d virt phys physEnd flags k
      = .ok ((pagingMapTo k.pages d virt phys physEnd flags).1,
          { k with pages := (pagingMapTo k.pages d virt phys physEnd flags).2 }) := rfl

/-- Read the union of a process structure through `member`. -/
def readUnion (process : Nat) (member : ImageMember) : KM Nat := do
  let k ← get
  modify fun k => { k with unionReads := k.unionReads ++ [(member, (k.process process).member)] }
  return (k.process process).image

/-- A write to a process structure. -/
def modifyProcess (process : Nat) (f : Process → Process) : KM Unit :=
  modify fun k => { k with process := Function.update k.process process (f (k.process process)) }

end BimbleOS
