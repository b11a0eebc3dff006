import BimbleOS.Memory.PagingNew
import BimbleOS.Memory.PagingSpec
import BimbleOS.Lib.Trace

/-!
# `Memory.PagingRuns` — page directories over a whole history

`paging_new` builds a directory from 1026 heap blocks: the directory, its tables and the structure that
points at it. As long as the heap answers with pages of their own, every directory is a function from pages
to entries that starts as `v | flags` and changes only where `paging_set` and `paging_map` write through
that directory (`pagingHistory_law`).
-/

namespace BimbleOS

open CWord Transition

/-! ## What `paging_new` stores -/

/-- The rounds of the outer loop of `paging_new` from entry `i` on, given the tables. -/
def PageStore.newTables (flags : BitVec 32) (directory : Nat) : List Nat → Nat → PageStore → PageStore
  | [], _, s => s
  | entry :: tables, i, s => newTables flags directory tables (i + 1) (s.newTable flags directory i entry)

/-- `a` is an address in the page at `block`. -/
def InPage (block a : Nat) : Prop := block ≤ a ∧ a < block + 4096

section Stores

variable {s : PageStore} {flags : BitVec 32} {directory entry i a : Nat} {tables : List Nat}

theorem newTable_word_kept (hentry : ¬ InPage entry a) (hdir : a ≠ directory + 4 * i) :
    (s.newTable flags directory i entry).word a = s.word a := by
  unfold PageStore.newTable PageStore.setWord
  show Function.update _ (directory + 4 * i) _ a = _
  rw [Function.update_of_ne hdir]
  exact if_neg hentry

theorem newTable_word_directory : (s.newTable flags directory i entry).word (directory + 4 * i)
    = BitVec.ofNat 32 entry ||| flags ||| pagingIsWriteable :=
  Function.update_self ..

theorem newTable_word_table {j : Nat} (hj : j < 1024) (hdir : entry + 4 * j ≠ directory + 4 * i) :
    (s.newTable flags directory i entry).word (entry + 4 * j)
      = BitVec.ofNat 32 (4194304 * i) + (BitVec.ofNat 32 (j * 4096) ||| flags) := by
  have hinside : entry ≤ entry + 4 * j ∧ entry + 4 * j < entry + 4096 := by omega
  have hindex : (entry + 4 * j - entry) / 4 = j := by omega
  unfold PageStore.newTable PageStore.setWord
  show Function.update _ (directory + 4 * i) _ (entry + 4 * j) = _
  rw [Function.update_of_ne hdir]
  unfold PageStore.fillTable
  show (if entry ≤ entry + 4 * j ∧ entry + 4 * j < entry + 4096 then _ else _) = _
  rw [if_pos hinside, hindex]
  rfl

/-- Words outside the new pages are kept. The induction is on the list of tables. -/
theorem newTables_word_kept (htables : ∀ entry ∈ tables, ¬ InPage entry a)
    (hdir : ∀ j, j < tables.length → a ≠ directory + 4 * (i + j)) :
    (PageStore.newTables flags directory tables i s).word a = s.word a := by
  induction tables generalizing i s with
  | nil => rfl
  | cons entry tables ih =>
      have hfirst := hdir 0 (Nat.succ_pos _)
      rw [PageStore.newTables, ih (fun e he => htables e (List.mem_cons_of_mem entry he)) fun j hj => ?_]
      · exact newTable_word_kept (htables entry List.mem_cons_self) hfirst
      · rw [Nat.add_assoc, Nat.add_comm 1 j]
        exact hdir (j + 1) (Nat.succ_lt_succ hj)

/-- Entry `j` of the directory points at table `j`. -/
theorem newTables_word_directory {j : Nat} (hj : j < tables.length)
    (htables : ∀ entry ∈ tables, ∀ i', i' < 1024 → ¬ InPage entry (directory + 4 * i'))
    (hlen : i + tables.length ≤ 1024) :
    (PageStore.newTables flags directory tables i s).word (directory + 4 * (i + j))
      = BitVec.ofNat 32 tables[j] ||| flags ||| pagingIsWriteable := by
  induction tables generalizing i j s with
  | nil => exact absurd hj (Nat.not_lt_zero j)
  | cons entry tables ih =>
      rw [List.length_cons] at hj hlen
      have hrest : ∀ e ∈ tables, ∀ i', i' < 1024 → ¬ InPage e (directory + 4 * i') :=
        fun e he => htables e (List.mem_cons_of_mem entry he)
      rw [PageStore.newTables]
      cases j with
      | zero =>
          rw [newTables_word_kept (fun e he => hrest e he (i + 0) (by omega)) fun j _ => by omega]
          exact newTable_word_directory
      | succ j =>
          have hnext := ih (i := i + 1) (j := j) (s := s.newTable flags directory i entry) (by omega)
            hrest (by omega)
          rw [Nat.add_right_comm, Nat.add_assoc] at hnext
          exact hnext

/-- Table `j` maps its 1024 pages on to themselves. -/
theorem newTables_word_table {j m : Nat} (hj : j < tables.length) (hm : m < 1024)
    (hnodup : tables.Nodup) (halign : ∀ entry ∈ tables, entry % 4096 = 0)
    (htables : ∀ entry ∈ tables, ∀ i', i' < 1024 → ¬ InPage entry (directory + 4 * i'))
    (hlen : i + tables.length ≤ 1024) :
    (PageStore.newTables flags directory tables i s).word (tables[j] + 4 * m)
      = BitVec.ofNat 32 (4194304 * (i + j)) + (BitVec.ofNat 32 (m * 4096) ||| flags) := by
  induction tables generalizing i j s with
  | nil => exact absurd hj (Nat.not_lt_zero j)
  | cons entry tables ih =>
      rw [List.length_cons] at hj hlen
      obtain ⟨hnew, hnodup⟩ := List.nodup_cons.mp hnodup
      have hrest : ∀ e ∈ tables, ∀ i', i' < 1024 → ¬ InPage e (directory + 4 * i') :=
        fun e he => htables e (List.mem_cons_of_mem entry he)
      have halign' : ∀ e ∈ tables, e % 4096 = 0 := fun e he => halign e (List.mem_cons_of_mem entry he)
      rw [PageStore.newTables]
      cases j with
      | zero =>
          -- the later rounds write to other pages
          have hentry := halign entry List.mem_cons_self
          have hown : ∀ i', i' < 1024 → entry + 4 * m ≠ directory + 4 * i' := by
            intro i' hi' heq
            refine htables entry List.mem_cons_self i' hi' ?_
            unfold InPage
            omega
          have hother : ∀ e ∈ tables, ¬ InPage e (entry + 4 * m) := by
            intro e he hin
            have hpage : e = entry := by
              have halign := halign' e he
              unfold InPage at hin
              omega
            exact hnew (hpage ▸ he)
          rw [List.getElem_cons_zero, newTables_word_kept hother fun j hj => hown _ (by omega)]
          exact newTable_word_table hm (hown i (by omega))
      | succ j =>
          have hnext := ih (i := i + 1) (j := j) (s := s.newTable flags directory i entry) (by omega)
            hnodup halign' hrest (by omega)
          rw [Nat.add_right_comm, Nat.add_assoc] at hnext
          exact hnext

end Stores

/-! ## `paging_new` with the answers of the heap -/

/-- The requests that `paging_new` makes: the directory, its tables, and the structure. -/
def pagingNewSizes : List Nat := 4096 :: (List.replicate 1024 4096 ++ [4])

section New

variable {flags : BitVec 32} {k k' : Kernel} {directory d left i : Nat}

/-- The loop stores the tables the heap answers with; then the heap answers on. -/
theorem pagingNewLoop_run (hrun : pagingNewLoop flags directory left i k = .ok ((), k')) (rest : List Nat) :
    ∃ tables heap memory, tables.length = left ∧ 0 ∉ tables ∧ (0 < left → directory ≠ 0) ∧
      heapAnswers k.heap (List.replicate left 4096 ++ rest) = tables ++ heapAnswers heap rest ∧
      heapAfter k.heap (List.replicate left 4096 ++ rest) = heapAfter heap rest ∧
      k' = { k with
        heap := heap
        memory := memory
        pages := PageStore.newTables flags directory tables i k.pages } := by
  induction left generalizing i k with
  | zero =>
      cases hrun
      exact ⟨[], _, _, rfl, List.not_mem_nil, fun hlt => absurd hlt (Nat.lt_irrefl 0), rfl, rfl, rfl⟩
  | succ left ih =>
      rw [pagingNewLoop] at hrun
      obtain ⟨entry, k₁, halloc, hrun⟩ := Exec.bind_eq_ok.mp hrun
      obtain ⟨_, k₂, hentry, hrun⟩ := Exec.bind_eq_ok.mp hrun
      obtain ⟨_, k₃, hdirectory, hrun⟩ := Exec.bind_eq_ok.mp hrun
      obtain ⟨_, k₄, hstore, hrun⟩ := Exec.bind_eq_ok.mp hrun
      obtain ⟨rfl, memory, rfl⟩ := kzalloc_run halloc
      obtain ⟨hne, rfl⟩ := deref_run hentry
      obtain ⟨hdir, rfl⟩ := deref_run hdirectory
      cases hstore
      obtain ⟨tables, heap, memory', hlen, hall, _, hanswers, hafter, rfl⟩ := ih hrun
      refine ⟨_ :: tables, heap, memory', congrArg (· + 1) hlen, ?_, fun _ => hdir, ?_, ?_, rfl⟩
      · exact fun hmem => (List.mem_cons.mp hmem).elim (fun heq => hne heq.symm) hall
      · rw [List.replicate_succ, List.cons_append, heapAnswers, List.cons_append]
        exact congrArg _ hanswers
      · rw [List.replicate_succ, List.cons_append, heapAfter]
        exact hafter

/-- **A run of `paging_new`** stores the directory, the tables and the structure that the heap answered
    with. -/
theorem pagingNew_run (hrun : pagingNew flags k = .ok (d, k')) :
    ∃ directory tables memory, tables.length = 1024 ∧
      heapAnswers k.heap pagingNewSizes = directory :: (tables ++ [d]) ∧ 0 ∉ heapAnswers k.heap pagingNewSizes ∧
      k' = { k with
        heap := heapAfter k.heap pagingNewSizes
        memory := memory
        pages := (PageStore.newTables flags directory tables 0 k.pages).setWord d (BitVec.ofNat 32 directory) } := by
  unfold pagingNew at hrun
  obtain ⟨directory, k₁, halloc, hrun⟩ := Exec.bind_eq_ok.mp hrun
  obtain ⟨_, k₂, hloop, hrun⟩ := Exec.bind_eq_ok.mp hrun
  obtain ⟨chunk, k₃, hchunk, hrun⟩ := Exec.bind_eq_ok.mp hrun
  obtain ⟨_, k₄, hderef, hrun⟩ := Exec.bind_eq_ok.mp hrun
  obtain ⟨_, k₅, hstore, hrun⟩ := Exec.bind_eq_ok.mp hrun
  obtain ⟨rfl, memory, rfl⟩ := kzalloc_run halloc
  obtain ⟨tables, heap, memory₁, hlen, htables, hdirectory, hanswers, hafter, rfl⟩ := pagingNewLoop_run hloop [4]
  obtain ⟨rfl, memory₂, rfl⟩ := kzalloc_run hchunk
  obtain ⟨hne, rfl⟩ := deref_run hderef
  cases hstore
  cases hrun
  have hall : heapAnswers k.heap pagingNewSizes
      = (heapMalloc k.heap 4096).1 :: (tables ++ [(heapMalloc heap 4).1]) := by
    unfold pagingNewSizes
    rw [heapAnswers]
    exact congrArg _ hanswers
  have hheap : heapAfter k.heap pagingNewSizes = (heapMalloc heap 4).2 := by
    unfold pagingNewSizes
    rw [heapAfter]
    exact hafter
  refine ⟨_, tables, memory₂, hlen, hall, ?_, ?_⟩
  · rw [hall]
    intro hmem
    rcases List.mem_cons.mp hmem with heq | hmem
    · exact hdirectory (by decide) heq.symm
    rcases List.mem_append.mp hmem with hmem | hmem
    · exact htables hmem
    · exact hne (List.mem_singleton.mp hmem).symm
  · rw [hheap]
    rfl

end New

/-! ## The new directory -/

/-- Heap blocks that are pages of their own. -/
structure OwnPages (blocks : List Nat) : Prop where
  nodup : blocks.Nodup
  aligned : ∀ b ∈ blocks, b % 4096 = 0
  lt : ∀ b ∈ blocks, b < 4294967296

theorem pagingNewSizes_one : ∀ size ∈ pagingNewSizes, 1 ≤ size ∧ size ≤ 4096 := by
  intro size hsize
  rcases List.mem_cons.mp hsize with rfl | hsize
  · decide
  rcases List.mem_append.mp hsize with hsize | hsize
  · rw [List.eq_of_mem_replicate hsize]
    decide
  · rw [List.mem_singleton.mp hsize]
    decide

/-- Where all its requests are answered, `paging_new` has pages of its own. -/
theorem ownPages_answers {heap : Heap} (h : heap.Ready) (hanswered : 0 ∉ heapAnswers heap pagingNewSizes) :
    OwnPages (heapAnswers heap pagingNewSizes) := by
  obtain ⟨hnodup, hanswers⟩ := heapAnswers_one h pagingNewSizes_one hanswered
  have hstart : heap.saddr = 16777216 := h.start
  have htotal := h.total
  refine ⟨hnodup, fun b hb => ?_, fun b hb => ?_⟩
  · obtain ⟨s, hs, _, rfl⟩ := hanswers b hb
    omega
  · obtain ⟨s, hs, _, rfl⟩ := hanswers b hb
    omega

/-- In aligned pages an address lies in one page only. -/
theorem eq_of_inPage {b b' a : Nat} (hb : b % 4096 = 0) (hb' : b' % 4096 = 0) (h : InPage b a)
    (h' : InPage b' a) : b = b' := by
  unfold InPage at h h'
  omega

/-- What the store is like after `paging_new`: the new directory maps every page on to itself, and the
    words of all other pages are kept. -/
structure NewDirectory (s s' : PageStore) (flags : BitVec 32) (d directory : Nat) (tables : List Nat) :
    Prop where
  kept : ∀ a, (∀ b ∈ directory :: (tables ++ [d]), ¬ InPage b a) → s'.word a = s.word a
  points : s'.directory d = directory
  table : ∀ i (h : i < tables.length), s'.table directory i = tables[i]
  entry : ∀ v, v % 4096 = 0 → v < 4294967296 → s'.pageEntry directory v = BitVec.ofNat 32 v ||| flags

theorem newDirectory_spec {s : PageStore} {flags : BitVec 32} {d directory : Nat} {tables : List Nat}
    (hflags : flags.toNat < 256) (hlen : tables.length = 1024)
    (hblocks : OwnPages (directory :: (tables ++ [d]))) :
    NewDirectory s ((PageStore.newTables flags directory tables 0 s).setWord d (BitVec.ofNat 32 directory))
      flags d directory tables := by
  obtain ⟨hdirnew, hnodup⟩ := List.nodup_cons.mp hblocks.nodup
  have htablesnew := (List.nodup_append.mp hnodup).1
  have hdirmem : directory ∈ directory :: (tables ++ [d]) := List.mem_cons_self
  have hdmem : d ∈ directory :: (tables ++ [d]) :=
    List.mem_cons_of_mem _ (List.mem_append_right _ (List.mem_singleton.mpr rfl))
  have htablemem : ∀ e ∈ tables, e ∈ directory :: (tables ++ [d]) := fun e he =>
    List.mem_cons_of_mem _ (List.mem_append_left _ he)
  have hdir := hblocks.aligned directory hdirmem
  have hd := hblocks.aligned d hdmem
  have halign : ∀ e ∈ tables, e % 4096 = 0 := fun e he => hblocks.aligned e (htablemem e he)
  -- the structure is in no other page, and no table is in the directory's page
  have hapart : ∀ b a, b % 4096 = 0 → b ≠ d → InPage b a → a ≠ d := by
    rintro b a hb hne hin rfl
    exact hne (eq_of_inPage hb hd hin ⟨Nat.le_refl a, by omega⟩)
  have hdirne : directory ≠ d := fun heq =>
    hdirnew (heq ▸ List.mem_append_right _ (List.mem_singleton.mpr rfl))
  have htablene : ∀ e ∈ tables, e ≠ d := fun e he heq =>
    (List.nodup_append.mp hnodup).2.2 e he d (List.mem_singleton.mpr rfl) heq
  have hindir : ∀ i, i < 1024 → InPage directory (directory + 4 * i) := fun i hi =>
    ⟨Nat.le_add_right _ _, by omega⟩
  have htables : ∀ e ∈ tables, ∀ i, i < 1024 → ¬ InPage e (directory + 4 * i) := fun e he i hi hin =>
    hdirnew (List.mem_append_left _ (eq_of_inPage (halign e he) hdir hin (hindir i hi) ▸ he))
  have hword : ∀ a, a ≠ d → ((PageStore.newTables flags directory tables 0 s).setWord d
      (BitVec.ofNat 32 directory)).word a = (PageStore.newTables flags directory tables 0 s).word a :=
    fun a ha => Function.update_of_ne ha _ _
  have htable : ∀ i (h : i < tables.length), ((PageStore.newTables flags directory tables 0 s).setWord d
      (BitVec.ofNat 32 directory)).table directory i = tables[i] := by
    intro i hi
    have hin := hindir i (by omega)
    have hmem := List.getElem_mem hi
    have hsmall : (flags ||| pagingIsWriteable).toNat < 4096 := by
      rw [BitVec.toNat_or]
      exact Nat.lt_trans (Nat.or_lt_two_pow (n := 8) hflags (by decide)) (by decide)
    have hdirword := @newTables_word_directory s flags directory 0 tables i hi htables (by omega)
    rw [Nat.zero_add] at hdirword
    unfold PageStore.table
    rw [hword _ (hapart directory _ hdir hdirne hin), hdirword, BitVec.or_assoc]
    exact frameOf_or (halign _ hmem) (hblocks.lt _ (htablemem _ hmem)) hsmall
  refine ⟨fun a ha => ?_, ?_, htable, fun v hv hlt => ?_⟩
  · have had : a ≠ d := by
      rintro rfl
      exact ha a hdmem ⟨Nat.le_refl a, by omega⟩
    rw [hword a had]
    refine newTables_word_kept (fun e he => ha e (htablemem e he)) fun j hj heq => ?_
    refine ha directory hdirmem ?_
    rw [heq, Nat.zero_add]
    exact hindir j (by omega)
  · have hself : ((PageStore.newTables flags directory tables 0 s).setWord d
        (BitVec.ofNat 32 directory)).word d = BitVec.ofNat 32 directory := Function.update_self ..
    unfold PageStore.directory
    rw [hself, BitVec.toNat_ofNat, Nat.mod_eq_of_lt (hblocks.lt directory hdirmem)]
  · have hi : v / 4194304 < tables.length := by omega
    have hm : v % 4194304 / 4096 < 1024 := by omega
    have hmem := List.getElem_mem hi
    have hin : InPage tables[v / 4194304] (tables[v / 4194304] + 4 * (v % 4194304 / 4096)) :=
      ⟨Nat.le_add_right _ _, by omega⟩
    have htableword := @newTables_word_table s flags directory 0 tables (v / 4194304)
      (v % 4194304 / 4096) hi hm htablesnew halign htables (by omega)
    rw [Nat.zero_add] at htableword
    unfold PageStore.pageEntry
    rw [htable _ hi, hword _ (hapart _ _ (halign _ hmem) (htablene _ hmem) hin), htableword]
    -- the sum of the offset and the flagged page is the flagged address
    have hpage : v % 4194304 / 4096 * 4096 < 4294967296 := by omega
    have hlow : (BitVec.ofNat 32 (v % 4194304 / 4096 * 4096) ||| flags).toNat
        = v % 4194304 / 4096 * 4096 + flags.toNat := toNat_or_flags (by omega) hpage (by omega)
    have hall : (BitVec.ofNat 32 v ||| flags).toNat = v + flags.toNat :=
      toNat_or_flags hv hlt (by omega)
    apply BitVec.eq_of_toNat_eq
    rw [BitVec.toNat_add, hlow, hall, BitVec.toNat_ofNat]
    omega

/-- The pages of the directory `d` are blocks of `used`. -/
def PageStore.Within (s : PageStore) (used : Set Nat) (d : Nat) : Prop :=
  d ∈ used ∧ s.directory d ∈ used ∧ ∀ i, i < 1024 → s.table (s.directory d) i ∈ used

section NewDirectory

variable {s s' : PageStore} {flags : BitVec 32} {d directory : Nat} {tables : List Nat} {used : Set Nat}
  {ds : Nat → Prop}

/-- A new directory lies in its own pages. -/
theorem NewDirectory.within (h : NewDirectory s s' flags d directory tables) (hlen : tables.length = 1024) :
    s'.Within { b | b ∈ directory :: (tables ++ [d]) } d := by
  unfold PageStore.Within
  rw [h.points]
  refine ⟨List.mem_cons_of_mem _ (List.mem_append_right _ (List.mem_singleton.mpr rfl)), List.mem_cons_self,
    fun i hi => ?_⟩
  rw [h.table i (by omega)]
  exact List.mem_cons_of_mem _ (List.mem_append_left _ (List.getElem_mem _))

/-- What `paging_new` keeps of a directory that lies in other pages. -/
theorem NewDirectory.old {d' : Nat} (h : NewDirectory s s' flags d directory tables)
    (hblocks : OwnPages (directory :: (tables ++ [d]))) (hused : ∀ b ∈ used, b % 4096 = 0)
    (hapart : ∀ b ∈ directory :: (tables ++ [d]), b ∉ used) (hmem : s.Within used d') :
    s'.directory d' = s.directory d' ∧
      (∀ i, i < 1024 → s'.table (s.directory d') i = s.table (s.directory d') i) ∧
      ∀ virt, virt < 4294967296 → s'.pageEntry (s.directory d') virt = s.pageEntry (s.directory d') virt := by
  obtain ⟨hd', hdir, htables⟩ := hmem
  have hword : ∀ b ∈ used, ∀ a, InPage b a → s'.word a = s.word a := by
    intro b hb a hin
    refine h.kept a fun b' hb' hin' => ?_
    exact hapart b' hb' (eq_of_inPage (hused b hb) (hblocks.aligned b' hb') hin hin' ▸ hb)
  have htable : ∀ i, i < 1024 → s'.table (s.directory d') i = s.table (s.directory d') i := by
    intro i hi
    have hsame := hword _ hdir (s.directory d' + 4 * i) ⟨Nat.le_add_right _ _, by omega⟩
    exact congrArg frameOf hsame
  refine ⟨?_, htable, fun virt hlt => ?_⟩
  · exact congrArg BitVec.toNat (hword _ hd' d' ⟨Nat.le_refl d', by omega⟩)
  · unfold PageStore.pageEntry
    rw [htable _ (by omega)]
    exact hword _ (htables _ (by omega)) _ ⟨Nat.le_add_right _ _, by omega⟩

/-- **A new directory joins the others.** -/
theorem NewDirectory.dirsOk (h : NewDirectory s s' flags d directory tables) (hlen : tables.length = 1024)
    (hblocks : OwnPages (directory :: (tables ++ [d]))) (hok : DirsOk s ds) (hused : ∀ b ∈ used, b % 4096 = 0)
    (hwithin : ∀ d', ds d' → s.Within used d') (hapart : ∀ b ∈ directory :: (tables ++ [d]), b ∉ used) :
    DirsOk s' fun d' => ds d' ∨ d' = d := by
  have hold := fun d' (hd' : ds d') => h.old hblocks hused hapart (hwithin d' hd')
  obtain ⟨hdmem, hdirmem, htablemem⟩ := h.within hlen
  have hd : d % 4096 = 0 := hblocks.aligned d hdmem
  obtain ⟨hdirnew, hnodup⟩ := List.nodup_cons.mp hblocks.nodup
  refine ⟨?_, ?_, ?_⟩
  · rintro d' (hd' | rfl)
    · rw [(hold d' hd').1]
      exact hok.aligned d' hd'
    · exact hblocks.aligned _ hdirmem
  · rintro d₁ d₂ i₁ i₂ (h₁ | rfl) (h₂ | rfl) hi₁ hi₂ heq
    · obtain ⟨hdir₁, htable₁, _⟩ := hold d₁ h₁
      obtain ⟨hdir₂, htable₂, _⟩ := hold d₂ h₂
      rw [hdir₁, hdir₂, htable₁ i₁ hi₁, htable₂ i₂ hi₂] at heq
      exact hok.tables d₁ d₂ i₁ i₂ h₁ h₂ hi₁ hi₂ heq
    · obtain ⟨hdir₁, htable₁, _⟩ := hold d₁ h₁
      rw [hdir₁, htable₁ i₁ hi₁] at heq
      exact absurd (heq ▸ (hwithin d₁ h₁).2.2 i₁ hi₁) (hapart _ (htablemem i₂ hi₂))
    · obtain ⟨hdir₂, htable₂, _⟩ := hold d₂ h₂
      rw [hdir₂, htable₂ i₂ hi₂] at heq
      exact absurd (heq ▸ (hwithin d₂ h₂).2.2 i₂ hi₂) (hapart _ (htablemem i₁ hi₁))
    · rw [h.points, h.table i₁ (by omega), h.table i₂ (by omega)] at heq
      exact ⟨rfl, (List.nodup_append.mp hnodup).1.getElem_inj_iff.mp heq⟩
  · rintro d₁ d₂ i h₁ h₂ hi
    -- an aligned block is its own page
    have hpage : d₂ / 4096 * 4096 = d₂ := by
      have halign : d₂ % 4096 = 0 := by
        rcases h₂ with h₂ | rfl
        · exact hused _ (hwithin d₂ h₂).1
        · exact hd
      omega
    rw [hpage]
    rcases h₁ with h₁ | rfl
    · obtain ⟨hdir₁, htable₁, _⟩ := hold d₁ h₁
      have hin := (hwithin d₁ h₁).2.2 i hi
      rw [hdir₁, htable₁ i hi]
      rcases h₂ with h₂ | rfl
      · have happart := hok.apart d₁ d₂ i h₁ h₂ hi
        rw [hpage] at happart
        rw [(hold d₂ h₂).1]
        exact happart
      · exact ⟨fun heq => hapart _ hdirmem (heq ▸ hin), fun heq => hapart _ hdmem (heq ▸ hin)⟩
    · have hmem := htablemem i hi
      rcases h₂ with h₂ | rfl
      · rw [(hold d₂ h₂).1]
        exact ⟨fun heq => hapart _ hmem (heq ▸ (hwithin d₂ h₂).2.1),
          fun heq => hapart _ hmem (heq ▸ (hwithin d₂ h₂).1)⟩
      · rw [h.points, h.table i (by omega)]
        have hget : tables[i] ∈ tables := List.getElem_mem _
        refine ⟨fun heq => hdirnew (List.mem_append_left _ (heq ▸ hget)), fun heq => ?_⟩
        exact (List.nodup_append.mp hnodup).2.2 _ hget _ (List.mem_singleton.mpr rfl) heq

end NewDirectory

/-! ## Histories -/

/-- A call to the paging functions, or anything else the kernel does. -/
inductive PagingEvent where
  | new (flags : BitVec 32) (d : Nat)
  | set (d virt : Nat) (val : BitVec 32)
  | map (d virt phys : Nat) (flags : BitVec 32)
  | other

/-- A kernel with its history: the calls so far, and the blocks that went into page directories. -/
structure PagingWorld where
  kernel : Kernel
  used : List Nat := []
  history : List PagingEvent := []

/-- The directory `d` was built with `flags`. -/
def Built (history : List PagingEvent) (flags : BitVec 32) (d : Nat) : Prop :=
  PagingEvent.new flags d ∈ history

/-- A step: `paging_new` while the heap answers with pages of their own, `paging_set` and `paging_map` on
    a directory that was built, or something that leaves the page tables alone. -/
inductive PagingStep : PagingWorld → PagingEvent → PagingWorld → Prop where
  | new {w : PagingWorld} {k' : Kernel} {flags : BitVec 32} {d : Nat} : flags.toNat < 256 →
      OwnPages (w.used ++ heapAnswers w.kernel.heap pagingNewSizes) →
      pagingNew flags w.kernel = .ok (d, k') →
      PagingStep w (.new flags d) {
        kernel := k'
        used := w.used ++ heapAnswers w.kernel.heap pagingNewSizes
        history := w.history ++ [.new flags d] }
  | set {w : PagingWorld} {flags : BitVec 32} {d virt : Nat} {val : BitVec 32} : Built w.history flags d →
      virt < 4294967296 →
      PagingStep w (.set d virt val) { w with
        kernel := { w.kernel with
          pages := (pagingSet w.kernel.pages (w.kernel.pages.directory d) virt val).2 }
        history := w.history ++ [.set d virt val] }
  | map {w : PagingWorld} {flags flags' : BitVec 32} {d virt phys : Nat} : Built w.history flags d →
      virt < 4294967296 → phys < 4294967296 →
      PagingStep w (.map d virt phys flags') { w with
        kernel := { w.kernel with pages := (pagingMap w.kernel.pages d virt phys flags').2 }
        history := w.history ++ [.map d virt phys flags'] }
  | other {w : PagingWorld} {k' : Kernel} : k'.pages = w.kernel.pages →
      PagingStep w .other { w with kernel := k', history := w.history ++ [.other] }

/-- What a call writes to the page `virt` of `d`, if it writes there. -/
def PagingEvent.written (d virt : Nat) : PagingEvent → Option (BitVec 32)
  | .set d' virt' val => if d' = d ∧ virt' = virt then some val else none
  | .map d' virt' phys flags =>
      if d' = d ∧ virt' = virt ∧ phys % 4096 = 0 then some (BitVec.ofNat 32 phys ||| flags) else none
  | _ => none

/-- The value written last, or the one `paging_new` starts with. -/
def lastValue (history : List PagingEvent) (flags : BitVec 32) (d virt : Nat) : BitVec 32 :=
  (history.filterMap (PagingEvent.written d virt)).getLast?.getD (BitVec.ofNat 32 virt ||| flags)

/-- **What the paging functions promise** for a directory that was built with `flags`. -/
structure PagingLaw (w : PagingWorld) (flags : BitVec 32) (d : Nat) : Prop where
  get : ∀ virt, virt % 4096 = 0 → virt < 4294967296 →
    pagingGet w.kernel.pages (w.kernel.pages.directory d) virt = lastValue w.history flags d virt
  setMisaligned : ∀ virt val, virt % 4096 ≠ 0 →
    pagingSet w.kernel.pages (w.kernel.pages.directory d) virt val = (-EINVARG, w.kernel.pages)
  mapMisaligned : ∀ virt phys flags', virt % 4096 ≠ 0 →
    pagingMap w.kernel.pages d virt phys flags' = (-EINVARG, w.kernel.pages)
  apart : ∀ flags' d', Built w.history flags' d' → d' ≠ d → ∀ virt val a, virt < 4294967296 → a < 4294967296 →
    pagingGet (pagingSet w.kernel.pages (w.kernel.pages.directory d') virt val).2
        ((pagingSet w.kernel.pages (w.kernel.pages.directory d') virt val).2.directory d) a
      = pagingGet w.kernel.pages (w.kernel.pages.directory d) a
  physical : ∀ a, a < 4294967296 →
    pagingGetPhysicalAddress w.kernel.pages (w.kernel.pages.directory d) a
      = frameOf (lastValue w.history flags d (a / 4096 * 4096)) + a % 4096

/-- The invariant of a history: the directories lie in blocks of their own, and each holds the values
    written last. -/
structure PagingInv (w : PagingWorld) : Prop where
  used : OwnPages w.used
  owned : ∀ flags d, Built w.history flags d → d ∈ w.used ∧ w.kernel.pages.directory d ∈ w.used ∧
    ∀ i, i < 1024 → w.kernel.pages.table (w.kernel.pages.directory d) i ∈ w.used
  dirs : DirsOk w.kernel.pages fun d => ∃ flags, Built w.history flags d
  entry : ∀ flags d, Built w.history flags d → ∀ virt, virt % 4096 = 0 → virt < 4294967296 →
    w.kernel.pages.pageEntry (w.kernel.pages.directory d) virt = lastValue w.history flags d virt
  unwritten : ∀ d virt, d ∉ w.used → virt % 4096 = 0 →
    w.history.filterMap (PagingEvent.written d virt) = []

section History

variable {w w' : PagingWorld} {history : List PagingEvent} {e : PagingEvent} {k' : Kernel}
  {flags : BitVec 32} {d : Nat}

/-- One more call in the history. -/
theorem lastValue_snoc {virt : Nat} : lastValue (history ++ [e]) flags d virt
    = (e.written d virt).getD (lastValue history flags d virt) := by
  unfold lastValue
  rw [List.filterMap_append]
  rcases hwritten : e.written d virt with _ | val
  · rw [List.filterMap_cons_none hwritten]
    simp
  · rw [List.filterMap_cons_some hwritten]
    simp

/-- A call that builds no directory. -/
theorem built_snoc (he : ∀ flags d, e ≠ .new flags d) :
    Built (history ++ [e]) flags d ↔ Built history flags d := by
  unfold Built
  rw [List.mem_append, List.mem_singleton]
  exact or_iff_left fun h => he flags d h.symm

theorem built_snoc_dirs (he : ∀ flags d, e ≠ .new flags d) :
    (fun d => ∃ flags, Built (history ++ [e]) flags d) = fun d => ∃ flags, Built history flags d := by
  funext d
  simp only [built_snoc he]

/-- A step that leaves the page tables alone. -/
theorem PagingInv.keep (h : PagingInv w) (hk : k'.pages = w.kernel.pages)
    (he : ∀ flags d, e ≠ .new flags d)
    (hwritten : ∀ d virt, virt % 4096 = 0 → e.written d virt = none) :
    PagingInv ⟨k', w.used, w.history ++ [e]⟩ where
  used := h.used
  owned := fun flags d hd => by
    simp only [hk]
    exact h.owned flags d ((built_snoc he).mp hd)
  dirs := by
    simp only [hk, built_snoc_dirs he]
    exact h.dirs
  entry := fun flags d hd virt hvirt hlt => by
    simp only [hk]
    rw [lastValue_snoc, hwritten d virt hvirt]
    exact h.entry flags d ((built_snoc he).mp hd) virt hvirt hlt
  unwritten := fun d virt hd hvirt => by
    rw [List.filterMap_append, h.unwritten d virt hd hvirt,
      List.filterMap_cons_none (hwritten d virt hvirt)]
    rfl

/-- A write to one page of one directory. -/
theorem PagingInv.write {virt : Nat} {val : BitVec 32} (h : PagingInv w) (hd : Built w.history flags d)
    (hvirt : virt % 4096 = 0) (hlt : virt < 4294967296)
    (hk : k'.pages = w.kernel.pages.setPage d virt val) (he : ∀ flags d, e ≠ .new flags d)
    (hwritten : ∀ d' virt', virt' % 4096 = 0 →
      e.written d' virt' = if d' = d ∧ virt' = virt then some val else none) :
    PagingInv ⟨k', w.used, w.history ++ [e]⟩ where
  used := h.used
  owned := fun flags' d' hd' => by
    have hold := (built_snoc he).mp hd'
    obtain ⟨hmem, hdir, htables⟩ := h.owned flags' d' hold
    simp only [hk]
    refine ⟨hmem, ?_, fun i hi => ?_⟩
    · rw [h.dirs.directory_setPage ⟨flags, hd⟩ hvirt hlt ⟨flags', hold⟩]
      exact hdir
    · rw [h.dirs.table_setPage ⟨flags, hd⟩ hvirt hlt ⟨flags', hold⟩ hi]
      exact htables i hi
  dirs := by
    simp only [hk, built_snoc_dirs he]
    exact h.dirs.setPage ⟨flags, hd⟩ hvirt hlt
  entry := fun flags' d' hd' virt' hvirt' hlt' => by
    have hold := (built_snoc he).mp hd'
    simp only [hk]
    rw [lastValue_snoc, hwritten d' virt' hvirt',
      h.dirs.pageEntry_setPage ⟨flags, hd⟩ hvirt hlt ⟨flags', hold⟩ hvirt' hlt']
    by_cases heq : d' = d ∧ virt' = virt
    · rw [if_pos heq, if_pos heq]
      rfl
    · rw [if_neg heq, if_neg heq]
      exact h.entry flags' d' hold virt' hvirt' hlt'
  unwritten := fun d' virt' hd' hvirt' => by
    have hne : ¬ (d' = d ∧ virt' = virt) := by
      rintro ⟨rfl, _⟩
      exact hd' (h.owned flags d' hd).1
    have hnone := hwritten d' virt' hvirt'
    rw [if_neg hne] at hnone
    rw [List.filterMap_append, h.unwritten d' virt' hd' hvirt', List.filterMap_cons_none hnone]
    rfl

/-- A new directory. -/
theorem PagingInv.new (h : PagingInv w) (hflags : flags.toNat < 256)
    (hpages : OwnPages (w.used ++ heapAnswers w.kernel.heap pagingNewSizes))
    (hrun : pagingNew flags w.kernel = .ok (d, k')) :
    PagingInv ⟨k', w.used ++ heapAnswers w.kernel.heap pagingNewSizes, w.history ++ [.new flags d]⟩ := by
  obtain ⟨directory, tables, memory, hlen, hanswers, _, hk'⟩ := pagingNew_run hrun
  have hstore : k'.pages = (PageStore.newTables flags directory tables 0 w.kernel.pages).setWord d
      (BitVec.ofNat 32 directory) := by
    rw [hk']
  rw [hanswers] at hpages ⊢
  obtain ⟨_, hnodup, hsep⟩ := List.nodup_append.mp hpages.nodup
  have hblocks : OwnPages (directory :: (tables ++ [d])) :=
    ⟨hnodup, fun b hb => hpages.aligned b (List.mem_append_right _ hb),
      fun b hb => hpages.lt b (List.mem_append_right _ hb)⟩
  have hnew := newDirectory_spec (s := w.kernel.pages) hflags hlen hblocks
  rw [← hstore] at hnew
  have hbuilt : ∀ flags' d', Built (w.history ++ [.new flags d]) flags' d' ↔
      Built w.history flags' d' ∨ flags' = flags ∧ d' = d := by
    intro flags' d'
    unfold Built
    rw [List.mem_append, List.mem_singleton, PagingEvent.new.injEq]
  have hdirs : (fun d' => ∃ flags', Built (w.history ++ [.new flags d]) flags' d')
      = fun d' => (∃ flags', Built w.history flags' d') ∨ d' = d := by
    funext d'
    simp only [hbuilt, exists_or, exists_and_right, exists_eq, true_and]
  have hused : ∀ b ∈ { b | b ∈ w.used }, b % 4096 = 0 := fun b hb => hpages.aligned b (List.mem_append_left _ hb)
  have hwithin : ∀ d', (∃ flags', Built w.history flags' d') → w.kernel.pages.Within { b | b ∈ w.used } d' := by
    rintro d' ⟨flags', hd'⟩
    exact h.owned flags' d' hd'
  have hapart : ∀ b ∈ directory :: (tables ++ [d]), b ∉ { b | b ∈ w.used } :=
    fun b hb hin => hsep b hin b hb rfl
  have hold :=
    fun flags' d' (hd' : Built w.history flags' d') => hnew.old hblocks hused hapart (hwithin d' ⟨flags', hd'⟩)
  have hown : k'.pages.Within { b | b ∈ directory :: (tables ++ [d]) } d := hnew.within hlen
  refine ⟨hpages, fun flags' d' hd' => ?_, ?_, fun flags' d' hd' virt hvirt hlt => ?_, fun d' virt hd' hvirt => ?_⟩
  · rcases (hbuilt flags' d').mp hd' with hd' | ⟨_, rfl⟩
    · obtain ⟨hmem, hdir, htables⟩ := h.owned flags' d' hd'
      obtain ⟨hdireq, htableeq, _⟩ := hold flags' d' hd'
      refine ⟨List.mem_append_left _ hmem, ?_, fun i hi => ?_⟩
      · simp only [hdireq]
        exact List.mem_append_left _ hdir
      · simp only [hdireq, htableeq i hi]
        exact List.mem_append_left _ (htables i hi)
    · exact ⟨List.mem_append_right _ hown.1, List.mem_append_right _ hown.2.1,
        fun i hi => List.mem_append_right _ (hown.2.2 i hi)⟩
  · simp only [hdirs]
    exact hnew.dirsOk hlen hblocks h.dirs hused hwithin hapart
  · rw [lastValue_snoc]
    show _ = lastValue w.history flags' d' virt
    rcases (hbuilt flags' d').mp hd' with ho | ⟨rfl, rfl⟩
    · obtain ⟨hdir, _, hentry⟩ := hold flags' d' ho
      simp only [hdir, hentry virt hlt]
      exact h.entry flags' d' ho virt hvirt hlt
    · -- nothing was written through the new directory
      simp only [hnew.points, hnew.entry virt hvirt hlt]
      unfold lastValue
      rw [h.unwritten d' virt (hapart d' hown.1) hvirt]
      rfl
  · have hd : d' ∉ w.used := fun hmem => hd' (List.mem_append_left _ hmem)
    rw [List.filterMap_append, h.unwritten d' virt hd hvirt]
    rfl

/-- What one step preserves. -/
theorem PagingInv.step (h : PagingInv w) (hstep : PagingStep w e w') : PagingInv w' := by
  cases hstep with
  | new hflags hpages hrun => exact h.new hflags hpages hrun
  | @set flags d virt val hd hlt =>
      by_cases hvirt : virt % 4096 = 0
      · have hstore : (pagingSet w.kernel.pages (w.kernel.pages.directory d) virt val).2
            = w.kernel.pages.setPage d virt val := rfl
        refine h.write hd hvirt hlt hstore (fun _ _ heq => by cases heq) fun d' virt' _ => ?_
        simp only [PagingEvent.written, eq_comm]
      · refine h.keep (by rw [pagingSet_misaligned hvirt]) (fun _ _ heq => by cases heq) fun d' virt' hvirt' => ?_
        refine if_neg ?_
        rintro ⟨_, rfl⟩
        exact hvirt hvirt'
  | @map flags flags' d virt phys hd hlt hphys =>
      by_cases hboth : virt % 4096 = 0 ∧ phys % 4096 = 0
      · obtain ⟨hvirt, hphys'⟩ := hboth
        have hstore : (pagingMap w.kernel.pages d virt phys flags').2
            = w.kernel.pages.setPage d virt (BitVec.ofNat 32 phys ||| flags') := by
          rw [pagingMap_aligned hvirt hphys']
          rfl
        refine h.write hd hvirt hlt hstore (fun _ _ heq => by cases heq) fun d' virt' _ => ?_
        simp only [PagingEvent.written, hphys', and_true, eq_comm]
      · have hmisaligned : pagingMap w.kernel.pages d virt phys flags' = (-EINVARG, w.kernel.pages) := by
          refine if_pos ?_
          by_contra hall
          rw [not_or, not_not, not_not] at hall
          exact hboth hall
        refine h.keep (by rw [hmisaligned]) (fun _ _ heq => by cases heq) fun d' virt' hvirt' => ?_
        refine if_neg ?_
        rintro ⟨_, rfl, hphys'⟩
        exact hboth ⟨hvirt', hphys'⟩
  | other hk => exact h.keep hk (fun _ _ heq => by cases heq) fun _ _ _ => rfl

/-- A misaligned address reads the entry of page 0. -/
theorem pagingGet_eq {s : PageStore} {directory a : Nat} :
    pagingGet s directory a = s.pageEntry directory (if a % 4096 = 0 then a else 0) := by
  by_cases ha : a % 4096 = 0
  · rw [if_pos ha, pagingGet_aligned ha]
  · have hmisaligned : pagingIsAligned a = false := decide_eq_false ha
    unfold pagingGet pagingGetIndexes
    rw [if_neg ha, hmisaligned]
    rfl

/-- What the invariant promises. -/
theorem PagingInv.law (h : PagingInv w) (hd : Built w.history flags d) : PagingLaw w flags d where
  get := fun virt hvirt hlt => by
    rw [pagingGet_aligned hvirt]
    exact h.entry flags d hd virt hvirt hlt
  setMisaligned := fun virt val hvirt => pagingSet_misaligned hvirt
  mapMisaligned := fun virt phys flags' hvirt => if_pos (Or.inl hvirt)
  apart := fun flags' d' hd' hne virt val a hlt ha => by
    by_cases hvirt : virt % 4096 = 0
    · have hpage : (if a % 4096 = 0 then a else 0) % 4096 = 0 := by
        split
        · assumption
        · rfl
      have hpagelt : (if a % 4096 = 0 then a else 0) < 4294967296 := by
        split
        · exact ha
        · exact Nat.succ_pos _
      rw [pagingGet_eq, pagingGet_eq]
      generalize (if a % 4096 = 0 then a else 0) = page at hpage hpagelt ⊢
      have hentry := @DirsOk.pageEntry_setPage _ _ d' virt val h.dirs ⟨flags', hd'⟩ hvirt hlt d page
        ⟨flags, hd⟩ hpage hpagelt
      rw [if_neg (fun heq => hne heq.1.symm)] at hentry
      exact hentry
    · rw [pagingSet_misaligned hvirt]
  physical := fun a ha => by
    have hlow : pagingAlignToLowerPage a = a / 4096 * 4096 := by
      unfold pagingAlignToLowerPage pagingPageSize
      omega
    have hrest : a - a / 4096 * 4096 = a % 4096 := by omega
    have hframe : ∀ entry : BitVec 32, frameOf entry + a % 4096 < 4294967296 := by
      intro entry
      have hentry := entry.isLt
      rw [frameOf_eq]
      omega
    unfold pagingGetPhysicalAddress
    simp only [hlow, hrest]
    rw [pagingGet_aligned (by omega), h.entry flags d hd _ (by omega) (by omega)]
    exact u32_of_lt (hframe _)

end History

/-- **Page directories keep what is written to them.** Over any history of calls, every directory that
    `paging_new` built reads as its last writes, or as `v | flags` where there was none; misaligned calls
    change nothing, and directories do not affect each other. -/
theorem pagingHistory_law {k : Kernel} {w : PagingWorld} {tr : List (PagingWorld × PagingEvent)}
    {flags : BitVec 32} {d : Nat} (h : Trace PagingStep { kernel := k } tr w)
    (hd : Built w.history flags d) : PagingLaw w flags d := by
  have hstart : PagingInv { kernel := k } := by
    refine ⟨⟨List.nodup_nil, ?_, ?_⟩, ?_, ⟨?_, ?_, ?_⟩, ?_, ?_⟩
    · exact fun b hb => absurd hb List.not_mem_nil
    · exact fun b hb => absurd hb List.not_mem_nil
    · exact fun _ _ hd => absurd hd List.not_mem_nil
    · exact fun _ ⟨_, hd⟩ => absurd hd List.not_mem_nil
    · exact fun _ _ _ _ ⟨_, hd⟩ => absurd hd List.not_mem_nil
    · exact fun _ _ _ ⟨_, hd⟩ => absurd hd List.not_mem_nil
    · exact fun _ _ hd => absurd hd List.not_mem_nil
    · exact fun _ _ _ _ => rfl
  have hpres : ∀ w e w', PagingInv w → True → PagingStep w e w' → PagingInv w' :=
    fun _ _ _ hinv _ hstep => hinv.step hstep
  have hinv := (Trace.invariant hpres hstart h fun _ _ => True.intro).2
  exact hinv.law hd

/-- The answers of a heap with enough free blocks are pages of their own. -/
theorem heapAnswers_ownPages {heap : Heap} (h : heap.Ready) (hfree : 1026 ≤ heap.freeBlocks) :
    OwnPages (heapAnswers heap pagingNewSizes) := by
  have hlen : pagingNewSizes.length = 1026 := by
    unfold pagingNewSizes
    rw [List.length_cons, List.length_append, List.length_replicate]
    rfl
  exact ownPages_answers h (heapAnswers_answered h pagingNewSizes_one (by rw [hlen]; exact hfree))

theorem pagingHistory_law_boot : ∃ d k', pagingNew 5 bootKernel = .ok (d, k') ∧
    ∀ virt val, virt < 4294967296 → PagingLaw
      ⟨{ k' with pages := (pagingSet k'.pages (k'.pages.directory d) virt val).2 },
        [] ++ heapAnswers bootKernel.heap pagingNewSizes, [.new 5 d, .set d virt val]⟩ 5 d := by
  have hfree : 1026 ≤ bootKernel.heap.freeBlocks := by
    rw [bootKernel_freeBlocks]
    decide
  obtain ⟨d, k', hrun, _⟩ := @pagingNew_ok 5 bootKernel bootKernel_ready hfree
  refine ⟨d, k', hrun, fun virt val hlt => ?_⟩
  have hnew : PagingStep { kernel := bootKernel } (.new 5 d) _ :=
    PagingStep.new (by decide) (heapAnswers_ownPages bootKernel_ready hfree) hrun
  exact pagingHistory_law ((Trace.nil.snoc hnew).snoc (PagingStep.set (List.mem_singleton.mpr rfl) hlt))
    List.mem_cons_self

end BimbleOS
