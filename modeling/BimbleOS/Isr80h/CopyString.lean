import BimbleOS.Isr80h.Process
import BimbleOS.Memory.PagingUse
import BimbleOS.Task.ArgumentRuns
import BimbleOS.Task.IsolationRuns

/-!
# `Isr80h.CopyString` — `copy_string_from_task` of `task/task.c`

A string is copied out of the memory of a task in two steps: with the page directory of the task loaded into a
temporary block, which is mapped into the directory for that purpose, and from there to its destination. The
entry of the block in the directory is saved before and put back afterwards.
-/

namespace BimbleOS

open Bytes CWord Exec

/-! ## The function -/

/-- The physical address of a byte that is accessed with the directory of `task` loaded. -/
def Kernel.taskAddress (k : Kernel) (task a : Nat) : Nat :=
  pagingGetPhysicalAddress k.pages (k.taskDirectory task) a

/-- An access with the directory of `task` loaded. A page that is not present raises an exception. -/
def taskAccess (task a : Nat) : KM Nat := do
  let k ← get
  if 4294967296 ≤ a then throw .outOfBounds
  else if k.pages.isPresent (k.taskDirectory task) a then return k.taskAddress task a
  else throw .outOfBounds

/-- `*a = v` with the directory of `task` loaded. -/
def taskStore (task a : Nat) (v : BitVec 8) : KM Unit := do
  let phys ← taskAccess task a
  modify fun k => { k with memory := Function.update k.memory phys v }

/-- The loop of `strncpy` with the directory of `task` loaded. -/
def taskStrncpyLoop (task dest src : Nat) : Nat → Nat → KM Unit
  | 0, i => taskStore task (dest + i) 0
  | left + 1, i => do
      let phys ← taskAccess task (src + i)
      let k ← get
      if k.memory phys = 0 then taskStore task (dest + i) 0
      else do
        taskStore task (dest + i) (k.memory phys)
        taskStrncpyLoop task dest src left (i + 1)

/-- `paging_map` on the kernel's page tables, its result dropped. -/
def kernelMap (pageDirectory virt phys : Nat) (flags : BitVec 32) : KM Unit :=
  modify fun k => { k with pages := (pagingMap k.pages pageDirectory virt phys flags).2 }

/-- `paging_set` on the kernel's page tables. -/
def kernelSet (directory virt : Nat) (val : BitVec 32) : KM Int := do
  let k ← get
  let (res, pages) := pagingSet k.pages directory virt val
  modify fun k => { k with pages := pages }
  return res

theorem kernelMap_eq (d virt phys : Nat) (flags : BitVec 32) (k : Kernel) :
    kernelMap d virt phys flags k = .ok ((), { k with pages := (pagingMap k.pages d virt phys flags).2 }) := rfl

theorem kernelSet_eq (directory virt : Nat) (val : BitVec 32) (k : Kernel) :
    kernelSet directory virt val k = .ok ((pagingSet k.pages directory virt val).1,
      { k with pages := (pagingSet k.pages directory virt val).2 }) := rfl

/-- The kernel goes on running with the directory of `task` loaded: its own pages are there, at their own addresses. -/
def Kernel.RunsWith (k : Kernel) (task : Nat) : Prop :=
  ∀ page ∈ k.ownPages, page < 4294967296 ∧ k.pages.isPresent (k.taskDirectory task) page = true ∧
    k.taskAddress task page = page

instance (k : Kernel) (task : Nat) : Decidable (k.RunsWith task) :=
  inferInstanceAs (Decidable (∀ page ∈ k.ownPages, _))

/-- `paging_switch` to the directory of `task`. From there to `kernel_page` the kernel's code, its stack and
    `kernel_chunk` are reached through it; where one of their pages is missing or another one, what runs next is not
    the kernel. -/
def pagingSwitchTo (task : Nat) : KM Unit := do
  let k ← get
  if k.RunsWith task then return () else throw .undefined

/-- `copy_string_from_task`. -/
def copyStringFromTask (task virt phys max : Nat) : KM Int := do
  if pagingPageSize ≤ max then return -EINVARG
  else
    let tmp ← kzalloc max
    if tmp = 0 then return -ENOMEM
    else
      deref task
      let k ← get
      let taskDirectory := k.taskDirectory task
      let oldEntry := pagingGet k.pages taskDirectory tmp
      kernelMap (k.tasks.task task).pageDirectory tmp tmp processMallocFlags
      pagingSwitchTo task
      -- between `paging_switch` and `kernel_page`
      taskStrncpyLoop task tmp virt (max - 1) 0
      let res ← kernelSet taskDirectory tmp oldEntry
      if res < 0 then
        kfree tmp
        return - EIO
      else
        modify fun k => { k with memory := strncpy k.memory phys tmp max }
        kfree tmp
        return res

theorem pagingSwitchTo_of {k : Kernel} {task : Nat} (h : k.RunsWith task) : pagingSwitchTo task k = .ok ((), k) := by
  unfold pagingSwitchTo
  rw [get_bind, if_pos h]
  rfl

theorem pagingSwitchTo_fails {k : Kernel} {task : Nat} (h : ¬ k.RunsWith task) :
    pagingSwitchTo task k = .error .undefined := by
  unfold pagingSwitchTo
  rw [get_bind, if_neg h]
  rfl

theorem pagingSwitchTo_run {k k' : Kernel} {task : Nat} {u : Unit} (hrun : pagingSwitchTo task k = .ok (u, k')) :
    k' = k := by
  by_cases h : k.RunsWith task
  · rw [pagingSwitchTo_of h] at hrun
    cases hrun
    rfl
  · rw [pagingSwitchTo_fails h] at hrun
    cases hrun

/-! ## The copy through the directory -/

/-- The task has the page of `a` mapped. -/
structure Kernel.Accessible (k : Kernel) (task a : Nat) : Prop where
  inside : a < 4294967296
  present : k.pages.isPresent (k.taskDirectory task) a = true

section Copy

variable {k : Kernel} {task a dest src left i : Nat} {v : BitVec 8}

theorem taskAccess_of (h : k.Accessible task a) : taskAccess task a k = .ok (k.taskAddress task a, k) := by
  unfold taskAccess
  rw [get_bind, if_neg (Nat.not_le.mpr h.inside), if_pos h.present]
  rfl

theorem taskStore_of (h : k.Accessible task a) : taskStore task a v k
    = .ok ((), { k with memory := Function.update k.memory (k.taskAddress task a) v }) := by
  unfold taskStore
  rw [bind_of_ok (taskAccess_of h)]
  rfl

/-- The last round writes the zero. -/
theorem taskStrncpyLoop_stop (hhere : k.Accessible task (dest + i)) (hself : k.taskAddress task (dest + i) = dest + i)
    (hloop : taskStrncpyLoop task dest src left i k = taskStore task (dest + i) 0 k) :
    ∃ m, taskStrncpyLoop task dest src left i k = .ok ((), { k with memory := m }) ∧
      HoldsString m (dest + i) [] ∧ ∀ b, b < dest + i ∨ dest + i + left < b → m b = k.memory b := by
  refine ⟨Function.update k.memory (dest + i) 0, ?_, Function.update_self .., ?_⟩
  · rw [hloop, taskStore_of hhere, hself]
  · intro b hb
    exact Function.update_of_ne (by omega) ..

/-- The loop copies what is left of the string, as the task sees it. The induction is on the characters to go; what
    is written stays beside what is still to be read. -/
theorem taskStrncpyLoop_run
    (hdest : ∀ j, i ≤ j → j ≤ i + left → k.Accessible task (dest + j) ∧ k.taskAddress task (dest + j) = dest + j)
    (hsource : ∀ j, j < left → j ≤ (stringAt (k.taskMemory task) (src + i) left).length →
      k.Accessible task (src + i + j) ∧
        ∀ j', i ≤ j' → j' ≤ i + left → k.taskAddress task (src + i + j) ≠ dest + j') :
    ∃ m, taskStrncpyLoop task dest src left i k = .ok ((), { k with memory := m }) ∧
      HoldsString m (dest + i) (stringAt (k.taskMemory task) (src + i) left) ∧
      ∀ b, b < dest + i ∨ dest + i + left < b → m b = k.memory b := by
  induction left generalizing k i with
  | zero =>
      obtain ⟨hhere, hself⟩ := hdest i (Nat.le_refl i) (Nat.le_add_right i 0)
      exact taskStrncpyLoop_stop hhere hself rfl
  | succ left ih =>
      obtain ⟨hhere, hself⟩ := hdest i (Nat.le_refl i) (Nat.le_add_right i _)
      obtain ⟨hread, hapart⟩ := hsource 0 (Nat.succ_pos left) (Nat.zero_le _)
      rw [Nat.add_zero] at hread hapart
      by_cases hzero : k.taskMemory task (src + i) = 0
      · rw [stringAt_nil hzero]
        apply taskStrncpyLoop_stop hhere hself
        rw [taskStrncpyLoop, bind_of_ok (taskAccess_of hread), get_bind]
        exact congrFun (if_pos hzero) k
      rw [stringAt_cons hzero] at hsource ⊢
      obtain ⟨c, hc⟩ : ∃ c, k.taskMemory task (src + i) = c := ⟨_, rfl⟩
      obtain ⟨k₁, hk₁⟩ : ∃ k₁ : Kernel, k₁ = { k with memory := Function.update k.memory (dest + i) c } := ⟨_, rfl⟩
      have haddress : ∀ a, k₁.taskAddress task a = k.taskAddress task a := by
        intro a
        rw [hk₁]
        rfl
      have haccess : ∀ a, k.Accessible task a → k₁.Accessible task a := by
        intro a ha
        rw [hk₁]
        exact ⟨ha.inside, ha.present⟩
      -- what is still to be read is as it was
      have hkept : ∀ j, j < left → j ≤ (stringAt (k.taskMemory task) (src + i + 1) left).length →
          k₁.taskMemory task (src + i + 1 + j) = k.taskMemory task (src + i + 1 + j) := by
        intro j hj hlen
        have hother := (hsource (j + 1) (by omega) (by rw [List.length_cons]; omega)).2 i (Nat.le_refl i) (by omega)
        have hmem : k₁.memory = Function.update k.memory (dest + i) c := by rw [hk₁]
        show k₁.memory (k₁.taskAddress task _) = k.memory (k.taskAddress task _)
        rw [haddress, hmem]
        apply Function.update_of_ne
        rwa [show src + i + 1 + j = src + i + (j + 1) by omega]
      have hstring := stringAt_congr_within hkept
      have hshift : src + (i + 1) = src + i + 1 := rfl
      obtain ⟨m, hrun, hholds, hframe⟩ := @ih k₁ (i + 1) (by
          intro j hlo hhi
          obtain ⟨hok, hsame⟩ := hdest j (by omega) (by omega)
          exact ⟨haccess _ hok, (haddress _).trans hsame⟩) (by
          intro j hj hlen
          rw [hshift, hstring] at hlen
          obtain ⟨hok, hother⟩ := hsource (j + 1) (by omega) (by rw [List.length_cons]; omega)
          rw [show src + i + (j + 1) = src + (i + 1) + j by omega] at hok hother
          refine ⟨haccess _ hok, ?_⟩
          intro j' hlo hhi
          rw [haddress]
          exact hother j' (by omega) (by omega))
      rw [hshift, hstring] at hholds
      refine ⟨m, ?_, ⟨?_, ?_, hholds⟩, ?_⟩
      · rw [taskStrncpyLoop, bind_of_ok (taskAccess_of hread), get_bind]
        have hbyte : k.memory (k.taskAddress task (src + i)) = c := hc
        rw [hbyte, if_neg (hc ▸ hzero), bind_of_ok (taskStore_of hhere), hself, ← hk₁, hrun, hk₁]
      · rw [hframe (dest + i) (by omega), hk₁, hc]
        exact Function.update_self ..
      · exact hzero
      · intro b hb
        rw [hframe b (by omega), hk₁]
        exact Function.update_of_ne (by omega) ..

end Copy

/-! ## The directory of the task -/

/-- The task has a page directory of its own, as `paging_new` makes it. -/
structure OwnDirectory (ds : Nat → Prop) (k : Kernel) (task : Nat) : Prop where
  ne : task ≠ 0
  dirs : DirsOk k.pages ds
  directory : ds (k.tasks.task task).pageDirectory
  tables : ∀ i, i < 1024 → k.pages.word (k.taskDirectory task + 4 * i) &&& pagingIsPresent ≠ 0

section View

variable {s : PageStore} {ds : Nat → Prop} {k : Kernel} {d directory task tmp a : Nat}

theorem isPresent_iff : s.isPresent directory a = true ↔
    s.word (directory + 4 * (a / 4194304)) &&& pagingIsPresent ≠ 0 ∧
      s.pageEntry directory (a / 4096 * 4096) &&& pagingIsPresent ≠ 0 := by
  have hpage : pagingAlignToLowerPage a = a / 4096 * 4096 := by
    unfold pagingAlignToLowerPage pagingPageSize
    omega
  have halign : a / 4096 * 4096 % 4096 = 0 := by omega
  have hindexes : pagingGetIndexes (a / 4096 * 4096)
      = (0, a / 4194304, a / 4096 * 4096 % 4194304 / 4096) := by
    unfold pagingGetIndexes pagingIsAligned pagingTotalEntriesPerTable pagingPageSize
    rw [halign]
    simp
    omega
  unfold PageStore.isPresent
  rw [hpage, hindexes, pagingGet_aligned halign]
  simp

theorem pagingGetPhysicalAddress_eq : pagingGetPhysicalAddress s directory a
    = frameOf (s.pageEntry directory (a / 4096 * 4096)) + a % 4096 := by
  have hpage : pagingAlignToLowerPage a = a / 4096 * 4096 := by
    unfold pagingAlignToLowerPage pagingPageSize
    omega
  unfold pagingGetPhysicalAddress
  rw [hpage]
  dsimp only
  rw [pagingGet_aligned (by omega), frameOf_eq]
  have hlt := (s.pageEntry directory (a / 4096 * 4096)).isLt
  rw [u32_of_lt (by omega)]
  omega

/-- What a task sees with one page of its directory mapped to itself: that page, and all the others as before. -/
structure SeesPage (k k₁ : Kernel) (task tmp : Nat) : Prop where
  inside : ∀ a, InPage tmp a → k₁.Accessible task a ∧ k₁.taskAddress task a = a
  outside : ∀ a, a < 4294967296 → ¬ InPage tmp a →
    k₁.taskAddress task a = k.taskAddress task a ∧ (k.Accessible task a → k₁.Accessible task a)

/-- The page is the kernel's own, or none of those that it runs in. -/
theorem SeesPage.runsWith {k k₁ : Kernel} {task tmp : Nat} (h : SeesPage k k₁ task tmp)
    (hown : k₁.ownPages = k.ownPages) (hruns : k.RunsWith task) : k₁.RunsWith task := by
  intro page hpage
  rw [hown] at hpage
  obtain ⟨hlt, hpresent, hself⟩ := hruns page hpage
  by_cases hin : InPage tmp page
  · obtain ⟨haccess, haddress⟩ := h.inside page hin
    exact ⟨hlt, haccess.present, haddress⟩
  · obtain ⟨haddress, haccess⟩ := h.outside page hlt hin
    exact ⟨hlt, (haccess ⟨hlt, hpresent⟩).present, haddress.trans hself⟩

/-- Mapping the block into the directory. -/
theorem OwnDirectory.seesPage (h : OwnDirectory ds k task) (halign : tmp % 4096 = 0) (hlt : tmp < 4294963200)
    {k₁ : Kernel} (htasks : k₁.tasks = k.tasks) (hpages : k₁.pages
      = k.pages.setPage (k.tasks.task task).pageDirectory tmp (BitVec.ofNat 32 tmp ||| processMallocFlags)) :
    SeesPage k k₁ task tmp := by
  have hdirectory : k₁.taskDirectory task = k.taskDirectory task := by
    unfold Kernel.taskDirectory
    rw [htasks, hpages]
    exact h.dirs.directory_setPage h.directory halign (by omega) h.directory
  have hentry : ∀ v, v % 4096 = 0 → v < 4294967296 → k₁.pages.pageEntry (k₁.taskDirectory task) v
      = if v = tmp then BitVec.ofNat 32 tmp ||| processMallocFlags
        else k.pages.pageEntry (k.taskDirectory task) v := by
    intro v hv hvlt
    unfold Kernel.taskDirectory
    rw [htasks, hpages, h.dirs.pageEntry_setPage h.directory halign (by omega) h.directory hv hvlt]
    simp only [true_and]
  have hword : ∀ i, i < 1024 → k₁.pages.word (k₁.taskDirectory task + 4 * i)
      = k.pages.word (k.taskDirectory task + 4 * i) := by
    intro i hi
    rw [hdirectory, hpages]
    unfold PageStore.setPage
    rw [pagingSet_aligned halign]
    exact h.dirs.word_kept h.directory h.directory (by omega) (Or.inr ⟨i, hi, rfl⟩)
  constructor
  · rintro a ⟨hlo, hhi⟩
    have hpage : a / 4096 * 4096 = tmp := by omega
    have hsame : k₁.pages.pageEntry (k₁.taskDirectory task) (a / 4096 * 4096)
        = BitVec.ofNat 32 tmp ||| processMallocFlags := by
      rw [hentry _ (by omega) (by omega), if_pos hpage]
    refine ⟨⟨by omega, isPresent_iff.mpr ⟨?_, ?_⟩⟩, ?_⟩
    · rw [hword _ (by omega)]
      exact h.tables _ (by omega)
    · rw [hsame, entry_flag halign (by omega) (by decide)]
      decide
    · unfold Kernel.taskAddress
      rw [pagingGetPhysicalAddress_eq, hsame, frameOf_or halign (by omega) (by decide)]
      omega
  · intro a ha hout
    have hpage : a / 4096 * 4096 ≠ tmp := by
      rintro rfl
      exact hout ⟨by omega, by omega⟩
    have hsame : k₁.pages.pageEntry (k₁.taskDirectory task) (a / 4096 * 4096)
        = k.pages.pageEntry (k.taskDirectory task) (a / 4096 * 4096) := by
      rw [hentry _ (by omega) (by omega), if_neg hpage]
    constructor
    · unfold Kernel.taskAddress
      rw [pagingGetPhysicalAddress_eq, pagingGetPhysicalAddress_eq, hsame]
    · intro hok
      obtain ⟨htable, hpresent⟩ := isPresent_iff.mp hok.present
      refine ⟨ha, isPresent_iff.mpr ⟨?_, ?_⟩⟩
      · rw [hword _ (by omega)]
        exact htable
      · rw [hsame]
        exact hpresent

/-- The saved entry is put back: every word of the page tables is as it was. -/
theorem DirsOk.setPage_restored {val : BitVec 32} (h : DirsOk s ds) (hd : ds d) (halign : tmp % 4096 = 0)
    (hlt : tmp < 4294967296) :
    (pagingSet (s.setPage d tmp val) (s.directory d) tmp (pagingGet s (s.directory d) tmp)).1 = 0 ∧
    (pagingSet (s.setPage d tmp val) (s.directory d) tmp (pagingGet s (s.directory d) tmp)).2.word = s.word := by
  have htable : (s.setPage d tmp val).table (s.directory d) (tmp / 4194304)
      = s.table (s.directory d) (tmp / 4194304) := by
    have hsame := @DirsOk.table_setPage s ds d tmp val h hd halign hlt d (tmp / 4194304) hd (by omega)
    rwa [h.directory_setPage hd halign hlt hd] at hsame
  have hword : (s.setPage d tmp val).word = Function.update s.word
      (s.table (s.directory d) (tmp / 4194304) + 4 * (tmp % 4194304 / 4096)) val := by
    unfold PageStore.setPage
    rw [pagingSet_aligned halign]
  rw [pagingSet_aligned halign, pagingGet_aligned halign]
  refine ⟨rfl, ?_⟩
  dsimp only
  rw [htable, hword, Function.update_idem]
  exact Function.update_eq_self ..

end View

/-! ## The whole function -/

/-- The bytes that a copy of at most `n` characters reads: the task has their pages, and they lie on no part of page
    `tmp`, neither as the task addresses them nor in memory. -/
def SourceApart (k : Kernel) (task virt n tmp : Nat) : Prop :=
  ∀ j, j < n → j ≤ (stringAt (k.taskMemory task) virt n).length →
    k.Accessible task (virt + j) ∧ ¬ InPage tmp (virt + j) ∧ ¬ InPage tmp (k.taskAddress task (virt + j))

section Spec

variable {ds : Nat → Prop} {k : Kernel} {task virt phys max : Nat}

/-- The first copy: with the block taken, cleared and mapped, it ends up holding the string the task had. -/
theorem taskStrncpyLoop_block {k₁ : Kernel} {tmp n : Nat} (hsees : SeesPage k k₁ task tmp) (hn : n < 4096)
    (hmemory : ∀ b, ¬ InPage tmp b → k₁.memory b = k.memory b) (hsource : SourceApart k task virt n tmp) :
    ∃ m, taskStrncpyLoop task tmp virt n 0 k₁ = .ok ((), { k₁ with memory := m }) ∧
      HoldsString m tmp (stringAt (k.taskMemory task) virt n) := by
  have hsame : stringAt (k₁.taskMemory task) virt n = stringAt (k.taskMemory task) virt n := by
    apply stringAt_congr_within
    intro j hj hlen
    obtain ⟨hok, hvirt, hphys⟩ := hsource j hj hlen
    obtain ⟨haddress, _⟩ := hsees.outside (virt + j) hok.inside hvirt
    show k₁.memory (k₁.taskAddress task (virt + j)) = k.memory (k.taskAddress task (virt + j))
    rw [haddress]
    exact hmemory _ hphys
  obtain ⟨m, hrun, hholds, _⟩ := @taskStrncpyLoop_run k₁ task tmp virt n 0 (by
      intro j _ hj
      exact hsees.inside (tmp + j) ⟨by omega, by omega⟩) (by
      intro j hj hlen
      rw [Nat.add_zero, hsame] at hlen
      obtain ⟨hok, hvirt, hphys⟩ := hsource j hj hlen
      obtain ⟨haddress, haccess⟩ := hsees.outside (virt + j) hok.inside hvirt
      refine ⟨haccess hok, ?_⟩
      intro j' _ hj' heq
      rw [Nat.add_zero, haddress] at heq
      exact hphys ⟨by omega, by omega⟩)
  rw [Nat.add_zero, Nat.add_zero, hsame] at hholds
  exact ⟨m, hrun, hholds⟩

/-- Less than a page is copied, through a block of the heap. -/
theorem copyStringFromTask_copies {tmp : Nat} (hview : OwnDirectory ds k task) (hruns : k.RunsWith task)
    (hready : k.heap.Ready)
    (hpos : 1 ≤ max) (hsmall : ¬ pagingPageSize ≤ max) (htmp : tmp = (heapMalloc k.heap max).1) (hne : tmp ≠ 0)
    (hsource : SourceApart k task virt (max - 1) tmp) (hphys : phys + max ≤ tmp ∨ tmp + max ≤ phys) :
    ∃ k', copyStringFromTask task virt phys max k = .ok (0, k') ∧
      HoldsString k'.memory phys (stringAt (k.taskMemory task) virt (max - 1)) ∧
      k'.tasks = k.tasks ∧ k'.pages.word = k.pages.word ∧ k'.heap.taken = k.heap.taken := by
  have hmax : max < 4096 := Nat.lt_of_not_le hsmall
  have htotal := hready.total
  -- the block is one page of the heap
  obtain ⟨heap, hheap⟩ : ∃ heap, (heapMalloc k.heap max).2 = heap := ⟨_, rfl⟩
  have hborrowed : k.heap.Borrowed [tmp] heap := by
    rw [← hheap, htmp]
    exact (Heap.Borrowed.none hready).malloc hpos (Nat.le_of_lt hmax) (htmp ▸ hne)
  obtain ⟨b, hb, hlt, _⟩ := hborrowed.single tmp (List.mem_singleton_self tmp)
  have hinside : bimbleosHeapAddress = 16777216 := rfl
  have halign : tmp % 4096 = 0 := by omega
  have htmplt : tmp < 4294963200 := by omega
  have halloc : kzalloc max k = .ok (tmp, { k with heap := heap, memory := fill k.memory tmp max 0 }) := by
    rw [kzalloc_eq, ← htmp, hheap, if_neg hne, if_neg (by omega)]
  obtain ⟨k₁, hk₁⟩ : ∃ k₁ : Kernel, k₁ = { k with
      heap := heap
      memory := fill k.memory tmp max 0
      pages := k.pages.setPage (k.tasks.task task).pageDirectory tmp (BitVec.ofNat 32 tmp ||| processMallocFlags) } :=
    ⟨_, rfl⟩
  have hmap : kernelMap (k.tasks.task task).pageDirectory tmp tmp processMallocFlags
      { k with heap := heap, memory := fill k.memory tmp max 0 } = .ok ((), k₁) := by
    rw [hk₁, kernelMap_eq, pagingMap_aligned halign halign]
    rfl
  have hsees : SeesPage k k₁ task tmp := hview.seesPage halign htmplt (by rw [hk₁]) (by rw [hk₁])
  have hswitch : pagingSwitchTo task k₁ = .ok ((), k₁) :=
    pagingSwitchTo_of (hsees.runsWith (by rw [hk₁]) hruns)
  have hmemory : ∀ a, ¬ InPage tmp a → k₁.memory a = k.memory a := by
    intro a ha
    rw [hk₁]
    exact if_neg fun hfill => ha ⟨hfill.1, by omega⟩
  obtain ⟨m, hcopy, hholds⟩ := taskStrncpyLoop_block hsees (by omega) hmemory hsource
  obtain ⟨hzero, hword⟩ := @DirsOk.setPage_restored k.pages ds (k.tasks.task task).pageDirectory tmp
    (BitVec.ofNat 32 tmp ||| processMallocFlags) hview.dirs hview.directory halign (by omega)
  obtain ⟨pages, hpages⟩ : ∃ pages, pagingSet k₁.pages (k.taskDirectory task) tmp
      (pagingGet k.pages (k.taskDirectory task) tmp) = (0, pages) := by
    rw [hk₁]
    exact ⟨_, Prod.ext hzero rfl⟩
  have hrestored : pages.word = k.pages.word := by
    rw [hk₁] at hpages
    rw [← hword]
    exact congrArg (fun r => r.2.word) hpages.symm
  have hset : kernelSet (k.taskDirectory task) tmp (pagingGet k.pages (k.taskDirectory task) tmp)
      { k₁ with memory := m } = .ok (0, { k₁ with memory := m, pages := pages }) := by
    rw [kernelSet_eq]
    dsimp only
    rw [hpages]
  refine ⟨{ k₁ with memory := strncpy m phys tmp max, pages := pages, heap := heapFree heap tmp }, ?_, ?_, ?_, ?_, ?_⟩
  · unfold copyStringFromTask
    rw [if_neg hsmall, bind_of_ok halloc, if_neg hne, bind_of_ok (deref_of_ne hview.ne), get_bind]
    dsimp only
    rw [bind_of_ok hmap, bind_of_ok hswitch, bind_of_ok hcopy]
    show (kernelSet (k.taskDirectory task) tmp (pagingGet k.pages (k.taskDirectory task) tmp) >>= _) _ = _
    rw [bind_of_ok hset, if_neg (by decide), hk₁]
    rfl
  · obtain ⟨hcopied, _⟩ := strncpy_apart (m := m) (Nat.lt_of_lt_of_le Nat.zero_lt_one hpos) hphys
    rwa [hholds.stringAt, List.take_of_length_le length_stringAt] at hcopied
  · rw [hk₁]
  · exact hrestored
  · exact hborrowed.free.taken_eq

/-- **`copy_string_from_task`** refuses a page or more. Below that, for a task whose directory maps the kernel's own
    pages to themselves, it copies the string, as the task sees it, and leaves the page tables and the blocks of the
    heap as they were. The destination is memory of the caller. -/
theorem copyStringFromTask_spec (hview : OwnDirectory ds k task) (hruns : k.RunsWith task) (hready : k.heap.Ready)
    (hpos : 1 ≤ max) :
    if pagingPageSize ≤ max then copyStringFromTask task virt phys max k = .ok (-EINVARG, k)
    else ∀ tmp, tmp = (heapMalloc k.heap max).1 → tmp ≠ 0 → SourceApart k task virt (max - 1) tmp →
      (phys + max ≤ tmp ∨ tmp + max ≤ phys) → ∃ k', copyStringFromTask task virt phys max k = .ok (0, k') ∧
        HoldsString k'.memory phys (stringAt (k.taskMemory task) virt (max - 1)) ∧
        k'.tasks = k.tasks ∧ k'.pages.word = k.pages.word ∧ k'.heap.taken = k.heap.taken := by
  split
  · rename_i hlarge
    unfold copyStringFromTask
    rw [if_pos hlarge]
    rfl
  · rename_i hsmall
    intro tmp htmp hne hsource hphys
    exact copyStringFromTask_copies hview hruns hready hpos hsmall htmp hne hsource hphys

end Spec

/-! ## What every run keeps -/

section Runs

variable {I : Kernel → Prop} {ds : Nat → Prop} {k k' : Kernel} {task a virt phys max dest src left i : Nat}
  {v : BitVec 8} {res : Int}

theorem taskAccess_keeps : Triple I (taskAccess task a) fun _ => I := by
  refine Triple.get_bind fun k₁ h₁ => Triple.pre (P := I) (fun _ hk => hk ▸ h₁) ?_
  refine Triple.ite (fun _ => Triple.throw) fun _ => ?_
  exact Triple.ite (fun _ => Triple.pure fun _ h => h) fun _ => Triple.throw

theorem taskStore_keeps (hI : ∀ k m, I k → I { k with memory := m }) : Triple I (taskStore task a v) fun _ => I :=
  Triple.bind taskAccess_keeps fun _ => Triple.modify fun k hk => hI k _ hk

/-- The loop writes to memory only. -/
theorem taskStrncpyLoop_keeps (hI : ∀ k m, I k → I { k with memory := m }) :
    Triple I (taskStrncpyLoop task dest src left i) fun _ => I := by
  induction left generalizing i with
  | zero => exact taskStore_keeps hI
  | succ left ih =>
      unfold taskStrncpyLoop
      refine Triple.bind taskAccess_keeps fun address => ?_
      refine Triple.get_bind fun k₁ h₁ => Triple.pre (P := I) (fun _ hk => hk ▸ h₁) ?_
      refine Triple.ite (fun _ => taskStore_keeps hI) fun _ => ?_
      exact Triple.bind (taskStore_keeps hI) fun _ => ih

/-- **Every run of `copy_string_from_task`** leaves the page tables as they were, and the heap to its clients. -/
theorem copyStringFromTask_run (hdirs : DirsOk k.pages ds) (hd : ds (k.tasks.task task).pageDirectory)
    (hready : k.heap.Ready) (hrun : copyStringFromTask task virt phys max k = .ok (res, k')) : ∃ heap memory pages,
      k' = { k with heap := heap, memory := memory, pages := pages } ∧ pages.word = k.pages.word ∧
        ∀ (P : Heap → Prop) (Ok : Nat → Prop), HeapRule P Ok → P k.heap → P heap := by
  unfold copyStringFromTask at hrun
  by_cases hlarge : pagingPageSize ≤ max
  · rw [if_pos hlarge] at hrun
    cases hrun
    exact ⟨k.heap, k.memory, k.pages, rfl, rfl, fun _ _ _ hP => hP⟩
  rw [if_neg hlarge] at hrun
  have hmax : max < 4294967296 := by
    unfold pagingPageSize at hlarge
    omega
  obtain ⟨tmp, k₁, halloc, hrest⟩ := bind_eq_ok.mp hrun
  obtain ⟨htmp, memory, hk₁⟩ := kzalloc_run halloc
  subst hk₁
  by_cases hnull : tmp = 0
  · rw [if_pos hnull] at hrest
    cases hrest
    exact ⟨_, _, _, rfl, rfl, fun _ _ hr hP => (hr.malloc hP hmax).1⟩
  rw [if_neg hnull] at hrest
  obtain ⟨halign, hlt⟩ : tmp % 4096 = 0 ∧ tmp < 4294967296 := by
    rcases (heapMalloc_ready hready).2 with hzero | ⟨s, _, heq, hlt⟩
    · exact absurd (htmp.trans hzero) hnull
    · rw [← htmp] at heq hlt
      unfold bimbleosHeapAddress at heq
      omega
  obtain ⟨_, k₂, hderef, hmapped⟩ := bind_eq_ok.mp hrest
  obtain ⟨_, rfl⟩ := deref_run hderef
  rw [get_bind] at hmapped
  obtain ⟨_, k₃, hmap, hcopied⟩ := bind_eq_ok.mp hmapped
  rw [kernelMap_eq, pagingMap_aligned halign halign] at hmap
  cases hmap
  obtain ⟨_, k₄, hswitch, hcopying⟩ := bind_eq_ok.mp hcopied
  obtain rfl := pagingSwitchTo_run hswitch
  obtain ⟨_, k₄, hloop, hsetting⟩ := bind_eq_ok.mp hcopying
  obtain ⟨m, hk₄⟩ := taskStrncpyLoop_keeps (I := fun k₄ => ∃ m, k₄ = { k with
      heap := (heapMalloc k.heap max).2
      memory := m
      pages := k.pages.setPage (k.tasks.task task).pageDirectory tmp (BitVec.ofNat 32 tmp ||| processMallocFlags) })
    (fun k₄ m ⟨_, hk⟩ => ⟨m, by rw [hk]⟩) _ _ _ ⟨memory, rfl⟩ hloop
  subst hk₄
  obtain ⟨res₁, k₅, hset, hlast⟩ := bind_eq_ok.mp hsetting
  rw [kernelSet_eq] at hset
  obtain ⟨hzero, hword⟩ := @DirsOk.setPage_restored k.pages ds (k.tasks.task task).pageDirectory tmp
    (BitVec.ofNat 32 tmp ||| processMallocFlags) hdirs hd halign hlt
  have hres : res₁ = 0 := (congrArg Prod.fst (Except.ok.inj hset)).symm.trans hzero
  have hk₅ := congrArg Prod.snd (Except.ok.inj hset)
  rw [hres, if_neg (Int.lt_irrefl 0), modify_bind] at hlast
  cases hlast
  subst hk₅
  exact ⟨_, _, _, rfl, hword, fun _ _ hr hP => hr.free (hr.malloc hP hmax).1 (htmp ▸ (hr.malloc hP hmax).2)⟩

end Runs

/-! The first of two processes is running. It has the string `"A"` at the start of its image, which it sees at
`0x400000`, and that address on its stack. -/

def letterKernel : Kernel := { twoKernel with
  memory := fun a => if a = heapAt 0 then 0x41 else if a = 2 then 0x40 else 0
  tasks := { twoTasks with currentTask := heapAt 2068 } }

theorem letterKernel_directory : letterKernel.taskDirectory (heapAt 2068) = heapAt 11 :=
  twoPages_directory (Or.inl ⟨rfl, rfl, rfl⟩)

theorem letterKernel_tables {i : Nat} (hi : i < 1024) :
    letterKernel.pages.word (letterKernel.taskDirectory (heapAt 2068) + 4 * i) &&& pagingIsPresent ≠ 0 := by
  have hat : ∀ b, heapAt b = 16777216 + 4096 * b := fun _ => rfl
  have hword : letterKernel.pages.word (heapAt 11 + 4 * i) = _ :=
    @twoPages_word 10 _ _ (Or.inl ⟨rfl, rfl, rfl⟩) (heapAt 11 + 4 * i) (by simp only [hat]; omega)
      (by simp only [hat]; omega)
  rw [letterKernel_directory, hword]
  unfold directoryWord
  rw [if_neg (by simp only [hat]; omega), if_pos (by simp only [hat]; omega)]
  rw [entry_flag (by simp only [hat]; omega) (by simp only [hat]; omega) (by decide)]
  decide

theorem letterKernel_view : OwnDirectory twoKernel.IsDirectory letterKernel (heapAt 2068) where
  ne := by decide
  dirs := twoKernel_tables
  directory := ⟨heapAt 2062, twoKernel_live.mpr (Or.inl rfl), rfl⟩
  tables := fun _ => letterKernel_tables

/-- A page of the process. -/
theorem letterKernel_page {page phys a : Nat} {flags : BitVec 32} (hpage : IsPage page) (ha : a / 4096 * 4096 = page)
    (hword : pageWord (heapAt 0) (heapAt 1) page = BitVec.ofNat 32 phys ||| flags) (hphys : IsPage phys)
    (hflags : flags.toNat < 4096) (hpresent : flags &&& pagingIsPresent ≠ 0) :
    letterKernel.Accessible (heapAt 2068) a ∧ letterKernel.taskAddress (heapAt 2068) a = phys + a % 4096 := by
  have hentry : letterKernel.pages.pageEntry (letterKernel.taskDirectory (heapAt 2068)) page
      = BitVec.ofNat 32 phys ||| flags := by
    rw [letterKernel_directory, ← hword]
    exact @twoPages_entry 10 _ _ (Or.inl ⟨rfl, rfl, rfl⟩) page hpage
  obtain ⟨halign, hlt⟩ := hpage
  constructor
  · refine ⟨by omega, isPresent_iff.mpr ⟨letterKernel_tables (by omega), ?_⟩⟩
    rw [ha, hentry, entry_flag hphys.1 hphys.2 (by decide)]
    exact hpresent
  · unfold Kernel.taskAddress
    rw [pagingGetPhysicalAddress_eq, ha, hentry, frameOf_or hphys.1 hphys.2 hflags]

/-- The page of the image. -/
theorem letterKernel_image {j : Nat} (hj : j < 4096) : letterKernel.Accessible (heapAt 2068) (0x400000 + j) ∧
    letterKernel.taskAddress (heapAt 2068) (0x400000 + j) = heapAt 0 + j := by
  have hpage := @letterKernel_page 0x400000 (heapAt 0) (0x400000 + j) 7#32 ⟨by decide, by decide⟩ (by omega) rfl
    ⟨by decide, by decide⟩ (by decide) (by decide)
  rwa [show (0x400000 + j) % 4096 = j by omega] at hpage

theorem letterKernel_byte {j : Nat} (hj : j < 4096) :
    letterKernel.taskMemory (heapAt 2068) (0x400000 + j) = if j = 0 then 0x41 else 0 := by
  show letterKernel.memory (letterKernel.taskAddress (heapAt 2068) (0x400000 + j)) = _
  rw [(letterKernel_image hj).2]
  unfold letterKernel heapAt bimbleosHeapAddress
  dsimp only
  split
  · rw [if_pos (by omega)]
  · rw [if_neg (by omega), if_neg (by omega)]

theorem letterKernel_string {n : Nat} : stringAt (letterKernel.taskMemory (heapAt 2068)) 0x400000 (n + 1) = [0x41] := by
  have hfirst := letterKernel_byte (j := 0) (by decide)
  have hsecond := letterKernel_byte (j := 1) (by decide)
  rw [stringAt_cons (by rw [hfirst]; decide), hfirst, stringAt_nil hsecond]
  rfl

/-- The block that a small allocation gets. -/
theorem letterKernel_malloc {size : Nat} (h₁ : 1 ≤ size) (h₂ : size ≤ 4096) :
    (heapMalloc letterKernel.heap size).1 = heapAt 2070 := by
  show (heapMalloc twoHeap size).1 = _
  rw [heapMalloc_eq, heapBlocks_one h₁ h₂,
    heapMallocBlocks_front (by decide) (by decide) twoHeap_front.1 twoHeap_front.2]
  rfl

theorem letterKernel_source {n : Nat} (hn : n ≤ 4096) :
    SourceApart letterKernel (heapAt 2068) 0x400000 n (heapAt 2070) := by
  intro j hj _
  obtain ⟨hok, haddress⟩ := letterKernel_image (j := j) (by omega)
  refine ⟨hok, ?_, ?_⟩
  · rintro ⟨hlo, hhi⟩
    unfold heapAt bimbleosHeapAddress at hlo
    omega
  · rw [haddress]
    rintro ⟨hlo, hhi⟩
    unfold heapAt bimbleosHeapAddress at hlo
    omega

theorem letterKernel_runsWith : letterKernel.RunsWith (heapAt 2068) := by
  have hown : ∀ page, page = 0x100000 ∨ page = 0x5FF000 ∨ page = 0x1001000 → page < 4294967296 ∧
      letterKernel.pages.isPresent (letterKernel.taskDirectory (heapAt 2068)) page = true ∧
      letterKernel.taskAddress (heapAt 2068) page = page := by
    rintro page (rfl | rfl | rfl)
    · obtain ⟨haccess, hself⟩ := @letterKernel_page 0x100000 0x100000 0x100000 5#32 ⟨by decide, by decide⟩ (by decide)
        rfl ⟨by decide, by decide⟩ (by decide) (by decide)
      exact ⟨haccess.inside, haccess.present, hself⟩
    · obtain ⟨haccess, hself⟩ := @letterKernel_page 0x5FF000 0x5FF000 0x5FF000 5#32 ⟨by decide, by decide⟩ (by decide)
        rfl ⟨by decide, by decide⟩ (by decide) (by decide)
      exact ⟨haccess.inside, haccess.present, hself⟩
    · obtain ⟨haccess, hself⟩ := @letterKernel_page 0x1001000 0x1001000 0x1001000 5#32 ⟨by decide, by decide⟩
        (by decide) rfl ⟨by decide, by decide⟩ (by decide) (by decide)
      exact ⟨haccess.inside, haccess.present, hself⟩
  intro page hpage
  have hmem : page ∈ [0x100000, 0x5FF000, 0x1001000] := hpage
  simp only [List.mem_cons, List.not_mem_nil, or_false] at hmem
  exact hown page hmem

theorem copyStringFromTask_spec_letter :
    ∃ k', copyStringFromTask (heapAt 2068) 0x400000 0x300000 4 letterKernel = .ok (0, k') ∧
      HoldsString k'.memory 0x300000 [0x41] ∧ k'.tasks = letterKernel.tasks ∧
      k'.pages.word = letterKernel.pages.word ∧ k'.heap.taken = letterKernel.heap.taken := by
  have hspec := @copyStringFromTask_spec _ letterKernel (heapAt 2068) 0x400000 0x300000 4 letterKernel_view
    letterKernel_runsWith ⟨rfl, by decide⟩ (by decide)
  rw [if_neg (by decide), show 4 - 1 = 2 + 1 from rfl, letterKernel_string] at hspec
  exact hspec (heapAt 2070) (letterKernel_malloc (by decide) (by decide)).symm (by decide)
    (letterKernel_source (by decide)) (Or.inl (by decide))

/-! A program whose image lies over the stack of the kernel: page `0x5FF000` of its directory is the image. -/

def strayPages : PageStore :=
  letterKernel.pages.setPage (letterKernel.tasks.task (heapAt 2068)).pageDirectory 0x5FF000
    (BitVec.ofNat 32 (heapAt 0) ||| processMallocFlags)

def strayKernel : Kernel := { letterKernel with pages := strayPages }

theorem strayKernel_directory : strayKernel.taskDirectory (heapAt 2068) = letterKernel.taskDirectory (heapAt 2068) :=
  letterKernel_view.dirs.directory_setPage letterKernel_view.directory (by decide) (by decide)
    letterKernel_view.directory

theorem strayKernel_view : OwnDirectory twoKernel.IsDirectory strayKernel (heapAt 2068) where
  ne := by decide
  dirs := letterKernel_view.dirs.setPage letterKernel_view.directory (by decide) (by decide)
  directory := letterKernel_view.directory
  tables := fun i hi => by
    have hword : strayKernel.pages.word (letterKernel.taskDirectory (heapAt 2068) + 4 * i)
        = letterKernel.pages.word (letterKernel.taskDirectory (heapAt 2068) + 4 * i) := by
      show (letterKernel.pages.setPage _ _ _).word _ = _
      unfold PageStore.setPage
      rw [pagingSet_aligned (by decide)]
      exact letterKernel_view.dirs.word_kept letterKernel_view.directory letterKernel_view.directory (by decide)
        (Or.inr ⟨i, hi, rfl⟩)
    rw [strayKernel_directory, hword]
    exact letterKernel_view.tables i hi

/-- The stack is not where the kernel looks for it, whatever page of the heap is mapped besides. -/
theorem strayKernel_stack {k₁ : Kernel} {tmp : Nat} (hsees : SeesPage strayKernel k₁ (heapAt 2068) tmp)
    (htmp : ¬ InPage tmp 0x5FF000) (hown : k₁.ownPages = strayKernel.ownPages) : ¬ k₁.RunsWith (heapAt 2068) := by
  intro hruns
  have hmem : (0x5FF000 : Nat) ∈ k₁.ownPages := by
    rw [hown]
    exact List.mem_cons_of_mem _ List.mem_cons_self
  obtain ⟨_, _, hself⟩ := hruns _ hmem
  rw [(hsees.outside 0x5FF000 (by decide) htmp).1] at hself
  have hentry : strayKernel.pages.pageEntry (strayKernel.taskDirectory (heapAt 2068)) 0x5FF000
      = BitVec.ofNat 32 (heapAt 0) ||| processMallocFlags := by
    have hset := @DirsOk.pageEntry_setPage _ _ _ 0x5FF000 (BitVec.ofNat 32 (heapAt 0) ||| processMallocFlags)
      letterKernel_view.dirs letterKernel_view.directory (by decide) (by decide) _ 0x5FF000
      letterKernel_view.directory (by decide) (by decide)
    rw [if_pos ⟨rfl, rfl⟩] at hset
    exact hset
  unfold Kernel.taskAddress at hself
  rw [pagingGetPhysicalAddress_eq, hentry, frameOf_or (by decide) (by decide) (by decide)] at hself
  exact absurd hself (by decide)

/-- An empty string of that program is not copied. -/
theorem copyStringFromTask_loses_stack : ¬ ∀ (ds : Nat → Prop) (k : Kernel) (task virt phys max tmp : Nat),
    OwnDirectory ds k task → k.heap.Ready → 1 ≤ max → max < pagingPageSize → tmp = (heapMalloc k.heap max).1 → tmp ≠ 0 →
    SourceApart k task virt (max - 1) tmp → (phys + max ≤ tmp ∨ tmp + max ≤ phys) →
      ∃ k', copyStringFromTask task virt phys max k = .ok (0, k') := by
  intro h
  obtain ⟨k', hrun⟩ := h _ strayKernel (heapAt 2068) 0x400000 0x300000 1 (heapAt 2070) strayKernel_view
    ⟨rfl, by decide⟩ (by decide) (by decide) (letterKernel_malloc (by decide) (by decide)).symm (by decide)
    (fun j hj => absurd hj (Nat.not_lt_zero j)) (Or.inl (by decide))
  obtain ⟨heap, hheap⟩ : ∃ heap, (heapMalloc strayKernel.heap 1).2 = heap := ⟨_, rfl⟩
  have htmp : (heapMalloc strayKernel.heap 1).1 = heapAt 2070 := letterKernel_malloc (by decide) (by decide)
  have halloc : kzalloc 1 strayKernel = .ok (heapAt 2070, { strayKernel with
      heap := heap, memory := fill strayKernel.memory (heapAt 2070) 1 0 }) := by
    rw [kzalloc_eq, htmp, hheap, if_neg (by decide), if_neg (by decide)]
  obtain ⟨k₁, hk₁⟩ : ∃ k₁ : Kernel, k₁ = { strayKernel with
      heap := heap
      memory := fill strayKernel.memory (heapAt 2070) 1 0
      pages := strayKernel.pages.setPage (strayKernel.tasks.task (heapAt 2068)).pageDirectory (heapAt 2070)
        (BitVec.ofNat 32 (heapAt 2070) ||| processMallocFlags) } := ⟨_, rfl⟩
  have hmap : kernelMap (strayKernel.tasks.task (heapAt 2068)).pageDirectory (heapAt 2070) (heapAt 2070)
      processMallocFlags { strayKernel with heap := heap, memory := fill strayKernel.memory (heapAt 2070) 1 0 }
        = .ok ((), k₁) := by
    rw [hk₁, kernelMap_eq, pagingMap_aligned (by decide) (by decide)]
    rfl
  have hsees : SeesPage strayKernel k₁ (heapAt 2068) (heapAt 2070) :=
    strayKernel_view.seesPage (by decide) (by decide) (by rw [hk₁]) (by rw [hk₁])
  have hswitch := pagingSwitchTo_fails (strayKernel_stack hsees (by unfold InPage; decide) (by rw [hk₁]))
  unfold copyStringFromTask at hrun
  rw [if_neg (by decide), bind_of_ok halloc, if_neg (by decide), bind_of_ok (deref_of_ne (by decide)), get_bind] at hrun
  dsimp only at hrun
  rw [bind_of_ok hmap] at hrun
  obtain ⟨_, _, hswitched, _⟩ := bind_eq_ok.mp hrun
  cases hswitch.symm.trans hswitched

end BimbleOS
