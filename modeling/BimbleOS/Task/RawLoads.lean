import BimbleOS.Memory.HeapShares
import BimbleOS.Task.LoadFailure
import BimbleOS.Task.LoadMemory
import BimbleOS.Task.ProcessSlots

/-!
# `Task.RawLoads` — raw images that are loaded, and what their end gives back

A raw image is loaded (`RawFile.load`), tagged as the record of an ELF file. When its process ends, `elf_close` takes the
dword at offset 112 of the image for the address of a buffer. A file with the address of the first process structure
there gives that structure back when the second process ends, and the next load clears it (`pointerDrive_breaks`).
-/

namespace BimbleOS

open Bytes CWord Exec Transition

/-! ## Loading a raw image -/

/-- What `elf_close` reads from the image is `base`, and lies in the blocks of `B`. -/
structure RawAt (B : Set Nat) (m : Mem) (image base : Nat) : Prop where
  ne : image ≠ 0
  inside : ∀ i, i < 4 → InShelter B (image + 112 + i)
  memory : elfMemory m image = base

/-- The first block of the heap is taken, and cleared. -/
structure Kernel.FirstCleared (k : Kernel) : Prop where
  taken : 0 ∈ k.heap.taken
  zero : ∀ a, bimbleosHeapAddress ≤ a → a < bimbleosHeapAddress + 4096 → k.memory a = 0

section Memory

variable {B B' : Set Nat} {m m' : Mem} {k k' : Kernel} {image base n : Nat} {bytes : List (BitVec 8)}

theorem RawAt.congr (h : RawAt B m image base) (hsame : ∀ a, InShelter B a → m' a = m a) (hsub : B ⊆ B') :
    RawAt B' m' image base where
  ne := h.ne
  inside := fun i hi => (h.inside i hi).mono hsub
  memory := by
    rw [← h.memory]
    unfold elfMemory
    exact congrArg BitVec.toNat (load32_congr fun i hi => hsame _ (h.inside i hi))

/-- A file that was read into the block that is held. -/
theorem Kernel.Room.rawAt (h : k.Room [image] n) (hmemory : k.memory = storeBytes m image bytes)
    (hlength : 116 ≤ bytes.length) :
    RawAt k.heap.taken k.memory image (load32 (fun j => bytes.getD j 0) 112).toNat := by
  have hmem : image ∈ [image] := List.mem_singleton.mpr rfl
  have htaken := h.holding.taken image hmem
  have haddress := h.holding.address image hmem
  have hheap : 0 < bimbleosHeapAddress := by decide
  have hbytes : ∀ j, j < 116 → k.memory (image + j) = bytes.getD j 0 := by
    intro j hj
    rw [hmemory]
    unfold storeBytes
    rw [if_pos (by omega), Nat.add_sub_cancel_left]
  refine ⟨by omega, fun i hi => Or.inr ⟨_, htaken, by omega, by omega⟩, ?_⟩
  unfold elfMemory
  rw [load32_of_image hbytes (show 112 + 4 ≤ 116 by decide)]

theorem Kernel.FirstCleared.sheltered (h : k.FirstCleared) (hB : 0 ∈ B) (hkept : Sheltered B ∅ k.memory k') :
    k'.FirstCleared where
  taken := hkept.shields.taken hB
  zero := fun a hlo hhi => by
    rw [← h.zero a hlo hhi]
    exact hkept.memory a (Or.inr ⟨0, hB, by omega, by omega⟩)

/-- There is no program header in a block of zeros. -/
theorem Kernel.FirstCleared.phnum (h : k.FirstCleared) (hsame : ∀ a, InShelter k.heap.taken a → m a = k.memory a) :
    ePhnum m bimbleosHeapAddress = 0 := by
  have hbyte : ∀ i, i < 4096 → m (bimbleosHeapAddress + i) = 0 := by
    intro i hi
    rw [hsame _ (Or.inr ⟨0, h.taken, by omega, by omega⟩)]
    exact h.zero _ (by omega) (by omega)
  unfold ePhnum load16
  rw [Nat.add_assoc, hbyte 44 (by decide), hbyte (44 + 1) (by decide)]
  rfl

end Memory

section Load

variable {drive : Drive} {filename : List (BitVec 8)} {volume : FatVolume} {item : FatDirectoryItem}
  {bytes : List (BitVec 8)} {k k₁ k' : Kernel} {process slot n i : Nat}

/-- **From the process structure to the end of a load** that succeeds, taken blocks stay as they are. -/
theorem processLoad_since (hclean : k.heap.Clean) (hrun : processLoad drive filename k = .ok ((0, process), k'))
    (halloc : kzalloc sizeofProcess k = .ok (process, k₁)) : Sheltered k₁.heap.taken ∅ k₁.memory k' ∧
      k₁.heap.Kept k₁.heap.taken k'.heap ∧ k'.fileDescriptors = k.fileDescriptors := by
  obtain ⟨slot, k₂, k₃, _, halloc', _, hfill, rfl⟩ := processLoad_fill hrun
  obtain ⟨_, rfl⟩ := Prod.mk.inj (Except.ok.inj (halloc'.symm.trans halloc))
  have hclean₂ : k₂.heap.Clean := kzalloc_clean hclean (by decide) halloc
  have htable : k₂.fileDescriptors = k.fileDescriptors := kzalloc_table halloc
  have hself : Sheltered k₂.heap.taken ∅ k₂.memory (k₂.setProcess process {}) :=
    ⟨hclean₂.shields.kept.shields, fun _ _ => rfl⟩
  have hsheltered := processFill_sheltered _ _ _ hself hfill
  have hkept := (processFill_run (keptReadyRule k₂.heap.taken k₂.heap) (k := k₂.setProcess process {})
    hclean₂.shields.kept hfill).fields.2
  refine ⟨hsheltered.congr rfl rfl, hkept, ?_⟩
  cases processFill_run readyRule (k := k₂.setProcess process {}) hclean₂.ready hfill with
  | early hneg => exact absurd hneg (by decide)
  | mapped => exact htable

theorem processSizes_length : processSizes.length = 1028 := by
  unfold processSizes pagingNewSizes
  rw [List.length_cons, List.length_cons, List.length_cons, List.length_append, List.length_replicate,
    List.length_singleton]

theorem processSizes_blocks : ∀ size ∈ processSizes, 1 ≤ heapBlocks size ∧ heapBlocks size ≤ 4 := by
  intro size hsize
  have hrange := processSizes_range size hsize
  have hblocks := heapBlocks_of_le hrange.1 (by omega)
  omega

/-- What the load of a raw image has left. -/
structure RawLoaded (n base : Nat) (k k₁ : Kernel) (process : Nat) (k' : Kernel) : Prop where
  room : k'.heap.TailRoom n
  filetype : (k'.process process).filetype = processFiletypeElf
  image : RawAt k'.heap.taken k'.memory (k'.process process).image base
  held : k'.heap.Holding [(k'.process process).image]
  since : Sheltered k₁.heap.taken ∅ k₁.memory k'
  kept : k₁.heap.Kept k₁.heap.taken k'.heap
  table : k'.fileDescriptors = k.fileDescriptors

/-- **A raw image is loaded** when there is room, and the block that it names, the first one of the heap, is cleared. -/
theorem RawFile.load (h : RawFile drive filename volume item bytes) (hlength : 116 ≤ bytes.length)
    (hbase : (load32 (fun j => bytes.getD j 0) 112).toNat = bimbleosHeapAddress) (hclean : k.heap.Clean)
    (hroom : k.heap.TailRoom (n + 4 * processSizes.length + 19 + heapBlocks sizeofProcess)) (hslot : FirstSlot k slot)
    (hfirst : FirstFree k i) (hi : i < 511) (halloc : kzalloc sizeofProcess k = .ok (process, k₁))
    (hcleared : k₁.FirstCleared) : ∃ k', processLoad drive filename k = .ok ((0, process), k') ∧
      RawLoaded n bimbleosHeapAddress k k₁ process k' := by
  obtain ⟨process', k₁', halloc', hne, hroom₁, _⟩ := @kzalloc_tail (n + 4 * processSizes.length + 19) sizeofProcess
    (by decide) k ⟨hroom, fun hzero => absurd hzero (by decide)⟩
  obtain ⟨rfl, rfl⟩ := Prod.mk.inj (Except.ok.inj (halloc'.symm.trans halloc))
  have hclean₁ : (k₁'.setProcess process' {}).heap.Clean :=
    show k₁'.heap.Clean from kzalloc_clean hclean (by decide) halloc
  have htable' : k₁'.fileDescriptors = k.fileDescriptors := kzalloc_table halloc
  have htable : (k₁'.setProcess process' {}).fileDescriptors = k.fileDescriptors := htable'
  have hfirst₁ := hfirst.congr htable
  -- the image
  obtain ⟨k₂, image, size, m, hdata, hroom₂, _, hmemory, hkeeps⟩ := @RawFile.loadData drive filename volume item bytes
    (k₁'.setProcess process' {}) (n + 4 * processSizes.length) i process' h hclean₁ hroom₁ hfirst₁ hi
  have hraw₂ := hroom₂.rawAt hmemory hlength
  rw [hbase] at hraw₂
  have hprocess₂ : k₂.process process' = Process.withBinary {} image size := by
    obtain ⟨_, _, _, rfl⟩ := hkeeps
    have hself : (k₁'.setProcess process' {}).process process' = {} := Function.update_self ..
    rw [hself]
    exact Function.update_self ..
  have hclean₂ := (processLoadData_keeps cleanRule hclean₁ hdata).1
  have hself₁ : Sheltered k₁'.heap.taken ∅ k₁'.memory (k₁'.setProcess process' {}) :=
    ⟨hclean₁.shields.kept.shields, fun _ _ => rfl⟩
  have hsince₂ := processLoadData_sheltered _ _ _ hself₁ hdata
  -- the stack and the task
  have hstackBlocks : heapBlocks bimbleosUserProgramStackSize = 4 := by decide
  obtain ⟨stack, k₃, hstackAlloc, hstack, hroom₃, _⟩ := @kzalloc_tail 1026 bimbleosUserProgramStackSize (by decide) k₂
    ⟨hroom₂.room.mono (by rw [processSizes_length, hstackBlocks]; omega), fun hzero => absurd hzero (by decide)⟩
  obtain ⟨task, k₄, htaskAlloc, htask, hroom₄, _⟩ := @kzalloc_small 1025 Kernel.sizeofTask (by decide) (by decide)
    (k₃.setProcess process' ((k₃.process process').withStack stack slot)) hroom₃
  have hsteps := @loadPrefix_of_steps drive _ _ slot _ _ _ _ _ _ _ _ halloc hdata hstackAlloc htaskAlloc
  have hself₂ : Sheltered k₂.heap.taken ∅ k₂.memory k₂ := ⟨hclean₂.shields.kept.shields, fun _ _ => rfl⟩
  have hsince₃ := (kzalloc_sheltered (by decide) _ _ _ hself₂ hstackAlloc).2
  have hplaced₃ : Sheltered k₂.heap.taken ∅ k₂.memory
      (k₃.setProcess process' ((k₃.process process').withStack stack slot)) := hsince₃.congr rfl rfl
  have hsince₄ := (kzalloc_sheltered (by decide) _ _ _ hplaced₃ htaskAlloc).2
  have hcleared₂ := hcleared.sheltered hcleared.taken hsince₂
  have hcleared₄ := hcleared₂.sheltered hcleared₂.taken hsince₄
  have hraw₄ := hraw₂.congr hsince₄.memory hsince₄.shields.taken
  have hprocess₄ : k₄.process process' = (Process.withBinary {} image size).withStack stack slot := by
    obtain ⟨_, _, rfl⟩ := kzalloc_run htaskAlloc
    obtain ⟨_, _, rfl⟩ := kzalloc_run hstackAlloc
    rw [← hprocess₂]
    exact Function.update_self ..
  have hfile₄ : (k₄.process process').filetype = processFiletypeElf := by
    rw [hprocess₄]
    rfl
  have himage₄ : (k₄.process process').image = image := by
    rw [hprocess₄]
    rfl
  have htag : unionMember (k₄.process process').filetype = some .elfFile := by
    rw [hfile₄]
    rfl
  -- there is no header to map
  obtain ⟨k', hrun, _, hsince', hprocess', _⟩ := processLoad_of_prefix hclean hslot hsteps hne hstack htask
    hroom₄.freeBlocks htag fun m s d hsame => by
      refine processMapMemory_of_headers hfile₄ himage₄ (hraw₄.congr hsame subset_rfl).memory fun j hj => ?_
      rw [hcleared₄.phnum hsame] at hj
      exact absurd hj (Nat.not_lt_zero j)
  obtain ⟨hsince, hkept, hdescriptors⟩ := processLoad_since hclean hrun halloc
  obtain ⟨k₁₁, k₂₂, halloc₂, _, hdata₂, hheap, _⟩ := processLoad_owns hclean.ready hrun
  obtain ⟨_, rfl⟩ := Prod.mk.inj (Except.ok.inj (halloc₂.symm.trans halloc))
  obtain ⟨_, rfl⟩ := Prod.mk.inj (Except.ok.inj (hdata₂.symm.trans hdata))
  refine ⟨k', hrun, ?_, ?_, ?_, ?_, hsince, hkept, hdescriptors⟩
  · rw [hheap]
    exact hroom₂.room.after processSizes_blocks
  · rw [hprocess']
    exact hfile₄
  · rw [hprocess']
    show RawAt _ _ (k₄.process process').image _
    rw [himage₄]
    exact hraw₄.congr hsince'.memory hsince'.shields.taken
  · have himage' : (k'.process process').image = image := by
      rw [hprocess']
      exact himage₄
    rw [himage', hheap]
    exact hroom₂.holding.after hclean₂.ready fun size hsize => by
      have hrange := processSizes_range size hsize
      omega

end Load

/-! ## A file with an address in it -/

/-- The dword at offset 112 is the address of the first block of the heap. -/
def pointerBytes : List (BitVec 8) := List.replicate 115 0 ++ [1]

def pointerFile : FatDirectoryItem where
  filename := [0x41]
  ext := []
  attr := 0
  high16BitsFirstCluster := 0
  low16BitsFirstCluster := 5
  filesize := 116

def pointerVolume : FatVolume where
  fs := smallFat
  rootDirectory := { item := [pointerFile], total := 1 }

def pointerDrive : Drive where
  disk := { sector := fun lba i => if lba = 13 then pointerBytes.getD i 0 else 0 }
  filesystem := some pointerVolume

theorem pointerDrive_rawFile : RawFile pointerDrive splitPath pointerVolume pointerFile pointerBytes where
  filesystem := rfl
  path := ⟨[0x41], rfl, ⟨by decide, by decide⟩, by decide⟩
  length := by decide
  root := rfl
  total := rfl
  file := by decide
  pos := by decide
  small := by decide
  read := by decide +kernel
  header := by decide
  refused := by decide +kernel

section Structure

variable {k k₁ : Kernel} {process : Nat}

/-- The first three blocks are free. -/
structure Kernel.FirstFits (k : Kernel) : Prop where
  ready : k.heap.Ready
  total : 3 ≤ k.heap.table.totalEntries
  free : k.heap.table.FreeRun 0 3

/-- The first three blocks are taken, and linked. -/
structure Heap.FirstHeld (heap : Heap) : Prop where
  taken : ∀ b, b < 3 → b ∈ heap.taken
  next : ∀ b, b < 2 → heap.table.HasNext b

theorem Heap.FirstHeld.kept {heap heap' : Heap} (h : heap.FirstHeld) (hkept : heap.Kept heap.taken heap') :
    heap'.FirstHeld where
  taken := fun b hb => hkept.shields.taken (h.taken b hb)
  next := fun b hb => (hkept.next b (h.taken b (by omega))).mpr (h.next b hb)

/-- `kfree` of the first block gives them back. -/
theorem Heap.FirstHeld.free {heap : Heap} (h : heap.FirstHeld) (hready : heap.Ready) {b : Nat} (hb : b < 3) :
    b ∉ (heapFree heap bimbleosHeapAddress).taken := by
  apply heapFree_inside hready
  have hblock : kfreeBlock bimbleosHeapAddress = 0 := by decide
  refine ⟨by rw [hblock]; exact Nat.zero_le b, fun j _ hj => h.next j (by omega)⟩

/-- A process structure goes into the first three blocks, when they are free. -/
theorem Kernel.FirstFits.alloc (h : k.FirstFits) (hrun : kzalloc sizeofProcess k = .ok (process, k₁)) :
    process = bimbleosHeapAddress ∧ k₁.FirstCleared ∧ k₁.heap.FirstHeld := by
  have hblocks : heapBlocks sizeofProcess = 3 := by decide
  have htotal := h.ready.total
  have hfirst := @heapMalloc_first _ sizeofProcess h.ready (by decide) (by rw [hblocks]; exact h.total)
    (by rw [hblocks]; exact h.free)
  rw [hblocks] at hfirst
  have hptr := (kzalloc_run hrun).1
  rw [hfirst] at hptr
  have hstart : bimbleosHeapAddress ≠ 0 := by decide
  have hne : process ≠ 0 := fun hzero => hstart (hptr.symm.trans hzero)
  obtain ⟨_, rfl⟩ := kzalloc_used hrun hne
  rw [hfirst]
  have htaken : ∀ b, b < 3 → b ∈ (heapMarkBlocksTaken k.heap 0 3).taken := by
    intro b hb
    refine ⟨?_, marked_taken (by decide) (by decide) (Nat.zero_le b) (by omega)⟩
    rw [heapMarkBlocksTaken_totalEntries]
    have hroom := h.total
    omega
  refine ⟨hptr, ⟨htaken 0 (by decide), fun a hlo hhi => ?_⟩, ⟨htaken, fun b hb => ?_⟩⟩
  · have hsize : 4096 ≤ sizeofProcess := by decide
    rw [hptr]
    exact if_pos ⟨hlo, by omega⟩
  · exact marked_next (by decide) (Nat.zero_le b) (by omega)

end Structure

section Run

variable {k k₁ k' : Kernel} {process slot n : Nat}

/-- The file is loaded. -/
theorem pointerDrive_load (hclean : k.heap.Clean)
    (hroom : k.heap.TailRoom (n + 4 * processSizes.length + 19 + heapBlocks sizeofProcess)) (hslot : FirstSlot k slot)
    (hfirst : FirstFree k 0) (halloc : kzalloc sizeofProcess k = .ok (process, k₁)) (hcleared : k₁.FirstCleared) :
    ∃ k', processLoad pointerDrive splitPath k = .ok ((0, process), k') ∧
      RawLoaded n bimbleosHeapAddress k k₁ process k' :=
  pointerDrive_rawFile.load (by decide) (by decide) hclean hroom hslot hfirst (by decide) halloc hcleared

theorem processLoadSwitch_loaded {drive : Drive} {filename : List (BitVec 8)}
    (h : processLoad drive filename k = .ok ((0, process), k')) :
    processLoadSwitch drive filename k = .ok ((0, process), { k' with currentProcess := process }) := by
  unfold processLoadSwitch
  rw [bind_of_ok h]
  rfl

/-- What `elf_close` gives back for a raw image. -/
theorem programPointers_raw {B : Set Nat} {base : Nat} (hfile : (k.process process).filetype = processFiletypeElf)
    (himage : RawAt B k.memory (k.process process).image base) :
    k.programPointers process = [base, (k.process process).image] := by
  unfold Kernel.programPointers
  rw [if_neg (by rw [hfile]; decide), if_neg himage.ne, himage.memory]

/-- **The end of a raw image** gives the first process structure back. -/
theorem processTerminate_raw (hclean : k.heap.Clean) (hroom : k.heap.TailRoom n) (hn : 3 ≤ n) (hheld : k.heap.FirstHeld)
    (hempty : (k.process process).allocations = fun _ => {}) (hplaced : Placed process slot k) (hne : process ≠ 0)
    (hslot : slot < bimbleosMaxProcesses) (hother : ∃ i, i < bimbleosMaxProcesses ∧ i ≠ slot ∧ k.processes i ≠ 0)
    (hfile : (k.process process).filetype = processFiletypeElf)
    (himage : RawAt k.heap.taken k.memory (k.process process).image bimbleosHeapAddress) :
    ∃ k', processTerminate process k = .ok (0, k') ∧ k'.heap.TailRoom n ∧ k'.FirstFits ∧
      k'.processes = Function.update k.processes slot 0 := by
  have hends : k.CanTerminate process := by
    refine ⟨hne, hplaced.task_ne, hplaced.directory_ne, Or.inr hfile, ?_, ?_⟩
    · rw [hplaced.id]
      exact hslot
    · rw [hplaced.id]
      exact hother
  obtain ⟨k', hrun, _⟩ := processTerminate_ok hends
  rcases processTerminate_empty hclean.ready hplaced.task_ne hempty hrun with ⟨hneg, _⟩ | ⟨reads, k₁, hfree, hunlink⟩
  · exact absurd hneg (Int.lt_irrefl 0)
  -- what `elf_close` gives back
  rw [programPointers_raw hfile himage] at hfree
  have hready₁ := @Heap.Ready.free _ bimbleosHeapAddress hclean.ready
  have hroom₂ : (k.heap.freeAll [bimbleosHeapAddress, (k.process process).image]).TailRoom n := hroom.kfree.kfree
  have hgone : ∀ b, b < 3 → b ∉ (k.heap.freeAll [bimbleosHeapAddress, (k.process process).image]).taken :=
    fun b hb hin => hheld.free hclean.ready hb (hready₁.taken_free _ hin)
  generalize k.heap.freeAll [bimbleosHeapAddress, (k.process process).image] = heap at hfree hroom₂ hgone
  have hroom' : k'.heap.TailRoom n := by
    have hI : ∀ (heap : Heap) (ptr : Nat), heap.TailRoom n → (heapFree heap ptr).TailRoom n := fun _ _ h => h.kfree
    exact terminated_invariant (k := { k with heap := heap, unionReads := reads }) hI hroom₂ hfree hunlink
  have hfits : k'.FirstFits := by
    have htotal := hroom'.room
    refine ⟨hroom'.ready, by omega, fun b _ hb => ?_⟩
    by_contra htaken
    exact terminated_free (k := { k with heap := heap, unionReads := reads }) hroom₂.ready (hgone b (by omega)) hfree
      hunlink ⟨by omega, htaken⟩
  refine ⟨k', hrun, hroom', hfits, ?_⟩
  obtain ⟨heap', rfl⟩ := kernelTaskFree_frame hfree
  obtain ⟨current, hk', _⟩ := processUnlink_frame hunlink
  rw [hk']
  show Function.update k.processes (k.process process).id 0 = _
  rw [hplaced.id]

/-- After the boot, with nothing loaded. -/
def bootSlots : SlotState where
  kernel := bootKernel
  own := fun _ => ∅
  before := bootKernel.processes

theorem bootSlots_start : SlotStart bootSlots where
  clean := bootKernel_clean
  empty := fun _ => rfl
  current := rfl
  before := rfl

theorem bootKernel_firstFits : bootKernel.FirstFits where
  ready := bootKernel_ready
  total := by decide
  free := fun j _ hj => by
    unfold HeapTable.Free
    decide +revert

/-- `process` is the second one that was loaded. -/
structure SecondLoaded (process : Nat) (k : Kernel) : Prop where
  clean : k.heap.Clean
  room : k.heap.TailRoom 5
  held : k.heap.FirstHeld
  ne : process ≠ 0
  empty : (k.process process).allocations = fun _ => {}
  placed : Placed process 1 k
  filetype : (k.process process).filetype = processFiletypeElf
  image : RawAt k.heap.taken k.memory (k.process process).image bimbleosHeapAddress
  processes : k.processes = Function.update (Function.update (fun _ => 0) 0 bimbleosHeapAddress) 1 process

/-- The first one is as its load has left it; what its end gives back is apart from the blocks `B` of the second. -/
structure FirstStays (B : Set Nat) (k : Kernel) : Prop where
  filetype : (k.process bimbleosHeapAddress).filetype = processFiletypeElf
  image : RawAt k.heap.taken k.memory (k.process bimbleosHeapAddress).image bimbleosHeapAddress
  spares : ∀ ptr ∈ k.programPointers bimbleosHeapAddress, Disjoint (k.heap.blocksFrom ptr) B

/-- **Two processes with that file** are loaded. -/
theorem pointerDrive_loads : ∃ tr s process, Trace (SlotStep pointerDrive) bootSlots tr s ∧
    tr.map Prod.snd = [.loadSwitch splitPath, .loadSwitch splitPath] ∧ (∀ q ∈ tr, SlotCall.Spares q.1 q.2) ∧
    SecondLoaded process s.kernel ∧ FirstStays (s.own process) s.kernel := by
  have hblocks : heapBlocks sizeofProcess = 3 := by decide
  have hstart : bimbleosHeapAddress ≠ 0 := by decide
  -- the first process
  have hslot₀ : FirstSlot bootKernel 0 := ⟨by decide, rfl, fun j hj => absurd hj (Nat.not_lt_zero j)⟩
  have hfirst₀ : FirstFree bootKernel 0 := ⟨by decide, rfl, fun j hj => absurd hj (Nat.not_lt_zero j)⟩
  have hroom₀ : bootKernel.heap.TailRoom
      (4150 + 4 * processSizes.length + 19 + heapBlocks sizeofProcess) := by
    apply bootKernel_tailRoom
    rw [processSizes_length, hblocks]
    decide
  obtain ⟨p, kp, halloc, _⟩ := @kzalloc_tail (4150 + 4 * processSizes.length + 19) sizeofProcess (by decide) bootKernel
    ⟨hroom₀, fun hzero => absurd hzero (by decide)⟩
  obtain ⟨rfl, hcleared, hheld⟩ := bootKernel_firstFits.alloc halloc
  obtain ⟨k₁, hload₁, h₁⟩ := pointerDrive_load bootKernel_clean hroom₀ hslot₀ hfirst₀ halloc hcleared
  obtain ⟨slot₁, hat₁, hplaced₁, hprocesses₁⟩ := processLoad_placed bootKernel_ready hload₁
  have hclean₁ := processLoad_keeps cleanReadyRule bootKernel_clean hload₁
  obtain rfl : slot₁ = 0 := hat₁.unique hslot₀
  -- the second process
  have hslot₁ : FirstSlot { k₁ with currentProcess := bimbleosHeapAddress } 1 := by
    refine ⟨by decide, ?_, fun j hj => ?_⟩
    · show k₁.processes 1 = 0
      rw [hprocesses₁]
      rfl
    · obtain rfl : j = 0 := by omega
      show k₁.processes 0 ≠ 0
      rw [hprocesses₁, Function.update_self]
      exact hstart
  have hcleared₁ := hcleared.sheltered hcleared.taken h₁.since
  obtain ⟨process, kq, halloc₁, hne, _⟩ := @kzalloc_tail (5 + 4 * processSizes.length + 19) sizeofProcess (by decide)
    { k₁ with currentProcess := bimbleosHeapAddress } ⟨h₁.room.mono (by rw [processSizes_length, hblocks]; decide),
      fun hzero => absurd hzero (by decide)⟩
  have hclean₁' : ({ k₁ with currentProcess := bimbleosHeapAddress } : Kernel).heap.Clean := hclean₁
  have hself₁ : Sheltered k₁.heap.taken ∅ k₁.memory { k₁ with currentProcess := bimbleosHeapAddress } :=
    ⟨hclean₁.shields.kept.shields, fun _ _ => rfl⟩
  have hclearedq := hcleared₁.sheltered hcleared₁.taken (kzalloc_sheltered (by decide) _ _ _ hself₁ halloc₁).2
  have hfirst₁ : FirstFree { k₁ with currentProcess := bimbleosHeapAddress } 0 := hfirst₀.congr h₁.table
  have hroom₁ : ({ k₁ with currentProcess := bimbleosHeapAddress } : Kernel).heap.TailRoom
      (5 + 4 * processSizes.length + 19 + heapBlocks sizeofProcess) := by
    apply h₁.room.mono
    rw [processSizes_length, hblocks]
    decide
  obtain ⟨k₂, hload₂, h₂⟩ := pointerDrive_load hclean₁' hroom₁ hslot₁ hfirst₁ halloc₁ hclearedq
  obtain ⟨slot₂, hat₂, hplaced₂, hprocesses₂⟩ := processLoad_placed hclean₁'.ready hload₂
  have hclean₂ := processLoad_keeps cleanReadyRule hclean₁' hload₂
  obtain rfl : slot₂ = 1 := hat₂.unique hslot₁
  change k₂.processes = Function.update k₁.processes 1 process at hprocesses₂
  rw [hprocesses₁] at hprocesses₂
  -- the structure of the first process is held
  obtain ⟨ptr, hkeeps, hcase⟩ := (processLoad_loadRun hclean₁'.ready hload₂).keeps hclean₁'
  obtain rfl : process = ptr := by
    rcases hcase with ⟨hneg, _⟩ | ⟨_, hsame⟩
    · exact absurd hneg (Int.lt_irrefl 0)
    · exact congrArg Prod.snd hsame
  have hkept₂ : k₁.heap.Kept k₁.heap.taken k₂.heap :=
    hkeeps.heap _ _ (keptReadyRule k₁.heap.taken k₁.heap) hclean₁.shields.kept
  have hheld₁ := hheld.kept h₁.kept
  have hheld₂ : k₂.heap.FirstHeld := hheld₁.kept hkept₂
  -- the blocks of the first process are apart from what the second load has taken
  have hother : bimbleosHeapAddress ≠ process := by
    rintro rfl
    exact hkeeps.fresh.resolve_left hstart (hheld₁.taken 0 (by decide))
  have hsame : k₂.process bimbleosHeapAddress = k₁.process bimbleosHeapAddress := hkeeps.others _ hother
  have hmemory : ∀ a, InShelter k₁.heap.taken a → k₂.memory a = k₁.memory a := by
    intro a ha
    have hq := (kzalloc_sheltered (by decide) _ _ _ hself₁ halloc₁).2
    exact (h₂.since.memory a (ha.mono hq.shields.taken)).trans (hq.memory a ha)
  have himage : RawAt k₂.heap.taken k₂.memory (k₁.process bimbleosHeapAddress).image bimbleosHeapAddress :=
    h₁.image.congr hmemory hkept₂.shields.taken
  have hclosed : kp.heap.Closed (kp.heap.taken \ bootKernel.heap.taken) := by
    obtain ⟨_, _, rfl⟩ := kzalloc_run halloc
    exact bootKernel_clean.closed_new (by decide)
  have hfree : (0 : Nat) ∉ bootKernel.heap.taken :=
    fun hin => hin.2 (bootKernel_firstFits.free 0 (by decide) (by decide))
  have hchain : Disjoint (k₂.heap.blocksFrom bimbleosHeapAddress) (k₂.heap.taken \ k₁.heap.taken) := by
    refine Set.disjoint_left.mpr fun b hb hin => hin.2 (h₁.kept.shields.taken ?_)
    have hclosed₂ := (hclosed.kept Set.sdiff_subset h₁.kept).kept
      (Set.sdiff_subset.trans h₁.kept.shields.taken) hkept₂
    have hblock : kfreeBlock bimbleosHeapAddress = 0 := by decide
    have hmem : kfreeBlock bimbleosHeapAddress ∈ kp.heap.taken \ bootKernel.heap.taken := by
      rw [hblock]
      exact ⟨hheld.taken 0 (by decide), hfree⟩
    exact (hclosed₂.blocksFrom hmem hb hin.1.1).1
  have hstays : FirstStays (k₂.heap.taken \ k₁.heap.taken) k₂ := by
    have hfile : (k₂.process bimbleosHeapAddress).filetype = processFiletypeElf := by
      rw [hsame]
      exact h₁.filetype
    rw [← hsame] at himage
    refine ⟨hfile, himage, fun ptr hptr => ?_⟩
    rw [programPointers_raw hfile himage, List.mem_cons, List.mem_singleton] at hptr
    rcases hptr with rfl | rfl
    · exact hchain
    · rw [hsame]
      exact (h₁.held.kept hkept₂).disjoint fun hin => hin.2 (h₁.held.taken _ (List.mem_singleton.mpr rfl))
  refine ⟨_, _, process, (Trace.nil.snoc (.loaded (processLoadSwitch_loaded hload₁))).snoc
    (.loaded (processLoadSwitch_loaded hload₂)), rfl, ?_, ?_⟩
  · intro q hq
    rcases List.mem_append.mp hq with hq | hq
    · rw [List.mem_singleton.mp hq]
      trivial
    · rw [List.mem_singleton.mp hq]
      trivial
  · refine ⟨⟨hclean₂, h₂.room, hheld₂, hne, (processLoad_fresh hclean₁'.ready hload₂).1,
      hplaced₂.frame rfl (Task.SameBut.refl _), h₂.filetype, h₂.image, hprocesses₂⟩, ?_⟩
    exact ⟨hstays.filetype, hstays.image, fun ptr hptr => (hstays.spares ptr hptr).mono_right
      (Function.update_self ..).le⟩

/-- The end of the second process frees the structure of the first one. -/
theorem pointerDrive_run : ∃ tr s, Trace (SlotStep pointerDrive) bootSlots tr s ∧ s.kernel.heap.TailRoom 5 ∧
    s.kernel.FirstFits ∧ s.kernel.processes = Function.update (fun _ => 0) 0 bimbleosHeapAddress := by
  obtain ⟨tr, s, process, hrun, _, _, h, _⟩ := pointerDrive_loads
  have hlive : s.kernel.Live process := by
    refine ⟨h.ne, 1, by decide, ?_⟩
    rw [h.processes, Function.update_self]
  have hother : s.kernel.processes 0 ≠ 0 := by
    rw [h.processes, Function.update_of_ne (by decide), Function.update_self]
    decide
  obtain ⟨k, hend, hroom, hfits, hprocesses⟩ := processTerminate_raw h.clean h.room (by decide) h.held h.empty h.placed
    h.ne (by decide) ⟨0, by decide, by decide, hother⟩ h.filetype h.image
  refine ⟨_, _, hrun.snoc (.terminated hlive hend), hroom, hfits, ?_⟩
  show k.processes = _
  rw [hprocesses, h.processes, Function.update_idem]
  funext i
  by_cases hi : i = 1
  · rw [hi]
    rfl
  · rw [Function.update_of_ne hi]

/-- The end of the first process spares the second one. -/
theorem pointerDrive_spares : ∃ tr s process, Trace (SlotStep pointerDrive) bootSlots tr s ∧
    tr.map Prod.snd = [.loadSwitch splitPath, .loadSwitch splitPath, .terminate bimbleosHeapAddress] ∧
    (∀ q ∈ tr, SlotCall.Spares q.1 q.2) ∧ process ≠ 0 ∧
    s.kernel.processes = Function.update (fun _ => 0) 1 process := by
  obtain ⟨tr, s, process, hrun, hcalls, hspares, h, hfirst⟩ := pointerDrive_loads
  obtain ⟨_, hinv⟩ :=
    Trace.invariant (fun _ _ _ h hspares hstep => h.step hspares hstep) bootSlots_start.inv hrun hspares
  have hat : s.kernel.processes 0 = bimbleosHeapAddress := by
    rw [h.processes, Function.update_of_ne (by decide), Function.update_self]
  have hstart : bimbleosHeapAddress ≠ 0 := by decide
  have hlive : s.kernel.Live bimbleosHeapAddress := ⟨hstart, 0, by decide, hat⟩
  have hplaced : Placed bimbleosHeapAddress 0 s.kernel := by
    rw [← hat]
    exact hinv.law.placed 0 (by decide) (hat ▸ hstart)
  have hother : s.kernel.processes 1 ≠ 0 := by
    rw [h.processes, Function.update_self]
    exact h.ne
  obtain ⟨k, hend, _, _, hprocesses⟩ := processTerminate_raw h.clean h.room (by decide) h.held (hinv.own _ hlive).slots
    hplaced hstart (by decide) ⟨1, by decide, by decide, hother⟩ hfirst.filetype hfirst.image
  refine ⟨_, _, process, hrun.snoc (.terminated hlive hend), ?_, fun q hq => ?_, h.ne, ?_⟩
  · rw [List.map_append, hcalls]
    rfl
  · rcases List.mem_append.mp hq with hq | hq
    · exact hspares q hq
    · rw [List.mem_singleton.mp hq]
      rintro q' ⟨hq', i, _, hi⟩ hne ptr hptr
      have hsecond : q' = process := by
        rw [h.processes] at hi
        by_cases h₁ : i = 1
        · rw [← hi, h₁, Function.update_self]
        · rw [Function.update_of_ne h₁] at hi
          by_cases h₀ : i = 0
          · rw [h₀, Function.update_self] at hi
            exact absurd hi.symm hne
          · rw [Function.update_of_ne h₀] at hi
            exact absurd hi.symm hq'
      rw [hsecond]
      exact hfirst.spares ptr hptr
  · show k.processes = _
    rw [hprocesses, h.processes]
    funext i
    by_cases h₀ : i = 0
    · rw [h₀, Function.update_self]
      rfl
    · rw [Function.update_of_ne h₀]
      by_cases h₁ : i = 1
      · rw [h₁, Function.update_self, Function.update_self]
      · rw [Function.update_of_ne h₁, Function.update_of_ne h₁, Function.update_of_ne h₀]

/-- The law holds while both are loaded, and when the first one has ended. -/
theorem pointerDrive_law : ∃ tr s process, Trace (SlotStep pointerDrive) bootSlots tr s ∧
    tr.map Prod.snd = [.loadSwitch splitPath, .loadSwitch splitPath, .terminate bimbleosHeapAddress] ∧ process ≠ 0 ∧
    s.kernel.processes = Function.update (fun _ => 0) 1 process ∧ Throughout SlotsLaw tr s := by
  obtain ⟨tr, s, process, hrun, hcalls, hspares, hne, hprocesses⟩ := pointerDrive_spares
  exact ⟨tr, s, process, hrun, hcalls, hne, hprocesses, processSlots_law bootSlots_start hrun hspares⟩

/-- **The law fails**: the next load clears the structure of the process in slot 0. -/
theorem pointerDrive_breaks : ¬ ∀ (drive : Drive) (s₀ s : SlotState) (tr : List (SlotState × SlotCall)), SlotStart s₀ →
    Trace (SlotStep drive) s₀ tr s → Throughout SlotsLaw tr s := by
  intro h
  obtain ⟨tr, s, hrun, hroom, hfits, hprocesses⟩ := pointerDrive_run
  have hslot : FirstSlot s.kernel 1 := by
    refine ⟨by decide, by rw [hprocesses]; rfl, fun j hj => ?_⟩
    obtain rfl : j = 0 := by omega
    rw [hprocesses, Function.update_self]
    decide
  obtain ⟨process, k₁, k', halloc, _, hfails, hcleared, hsame⟩ := @processLoad_rejected pointerDrive [] s.kernel 1 1
    (Or.inr (by decide)) hslot hroom
  obtain ⟨rfl, _⟩ := hfits.alloc halloc
  have hswitch : processLoadSwitch pointerDrive [] s.kernel = .ok ((- EIO, 0), k') := by
    unfold processLoadSwitch
    rw [bind_of_ok hfails]
    rfl
  have hstep := SlotStep.failed (s := s) (by decide) hswitch
  have hlaw := (h pointerDrive bootSlots _ _ bootSlots_start (hrun.snoc hstep)).2
  have hat : k'.processes 0 = bimbleosHeapAddress := by
    rw [hsame, hprocesses]
    exact Function.update_self ..
  have hused : k'.processes 0 ≠ 0 := by
    rw [hat]
    decide
  have htask : (k'.process (k'.processes 0)).task ≠ 0 := (hlaw.placed 0 (by decide) hused).task_ne
  rw [hat, hcleared] at htask
  exact htask rfl

end Run

end BimbleOS
