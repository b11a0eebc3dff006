import BimbleOS.Fs.FileUse
import BimbleOS.Memory.HeapLoans

/-!
# `Fs.PathParts` — the parts of a path: their blocks, and the text they keep

A root takes one block and every part two. The buffer for the empty part that ends a path is given back in the parser
itself, and `pathparser_free` gives back the rest, so a path that is parsed and freed leaves the heap as it was
(`pathparserParse_settles`).

An empty part is how the loop sees the end of the path. It also sees one between two slashes, and then the rest of
the path is lost (`pathparserParse_keepsText_iff`).
-/

namespace BimbleOS

open CWord Exec

/-- The blocks of a list of parts, in the order in which they are freed. -/
def partBlocks (parts : List PathPart) : List Nat := parts.flatMap fun part => [part.buffer, part.addr]

theorem partBlocks_cons (part : PathPart) (parts : List PathPart) :
    partBlocks (part :: parts) = part.buffer :: part.addr :: partBlocks parts := rfl

/-- The name that a path starts with. -/
def firstName (path : List (BitVec 8)) : List (BitVec 8) := path.takeWhile fun c => ¬ (c = 0x2f ∨ c = 0x00)

/-- What is behind it, and behind a slash. -/
def behindName (path : List (BitVec 8)) : List (BitVec 8) :=
  pathparserSkipSlash (path.dropWhile fun c => ¬ (c = 0x2f ∨ c = 0x00))

theorem splitNames_succ (fuel : Nat) (path : List (BitVec 8)) : splitNames (fuel + 1) path
    = if firstName path = [] then [] else firstName path :: splitNames fuel (behindName path) := rfl

/-- The text of a C string. -/
def cText (s : List (BitVec 8)) : List (BitVec 8) := s.takeWhile (· ≠ 0)

/-- A text is its first name, or its first name, a slash and the text behind it. -/
theorem cText_cases (path : List (BitVec 8)) : (cText path = firstName path ∧ cText (behindName path) = []) ∨
    cText path = firstName path ++ 0x2f :: cText (behindName path) := by
  induction path with
  | nil => exact Or.inl ⟨rfl, rfl⟩
  | cons c path ih =>
      -- the first name ends here, with text behind it
      by_cases hslash : c = 0x2f
      · subst hslash
        exact Or.inr rfl
      -- here the text ends as well
      by_cases hend : c = 0x00
      · subst hend
        exact Or.inl ⟨rfl, rfl⟩
      have hkeep : decide (¬ (c = 0x2f ∨ c = 0x00)) = true := decide_eq_true (not_or.mpr ⟨hslash, hend⟩)
      have hfirst : firstName (c :: path) = c :: firstName path := by
        unfold firstName
        rw [List.takeWhile_cons, hkeep]
        rfl
      have hbehind : behindName (c :: path) = behindName path := by
        unfold behindName
        rw [List.dropWhile_cons, hkeep]
        rfl
      have htext : cText (c :: path) = c :: cText path := by
        unfold cText
        rw [List.takeWhile_cons, decide_eq_true hend]
        rfl
      rw [hfirst, hbehind, htext]
      rcases ih with ⟨heq, hnil⟩ | heq
      · exact Or.inl ⟨congrArg _ heq, hnil⟩
      · exact Or.inr (congrArg _ heq)

/-- The text behind a name is shorter by the name. -/
theorem strlen_behind (path : List (BitVec 8)) :
    (firstName path).length + strlen (behindName path) ≤ strlen path := by
  have hlen : ∀ s, strlen s = (cText s).length := fun _ => rfl
  rw [hlen, hlen]
  rcases cText_cases path with ⟨heq, hnil⟩ | heq
  · rw [heq, hnil, List.length_nil]
    omega
  · rw [heq, List.length_append, List.length_cons]
    omega

section Loans

variable {k k' : Kernel} {T : Set Nat} {ptrs : List Nat} {path : List (BitVec 8)}

/-- Copying leaves the kernel alone, and follows its pointer unless the name is empty. -/
theorem pathparserCopyPart_kernel {ptr i : Nat} {r : List (BitVec 8) × List (BitVec 8)}
    (hrun : pathparserCopyPart ptr i path k = .ok (r, k')) : k' = k ∧ (r.1 ≠ [] → ptr ≠ 0) := by
  induction path generalizing i r k with
  | nil =>
      cases hrun
      exact ⟨rfl, fun hne => absurd rfl hne⟩
  | cons c path ih =>
      rw [pathparserCopyPart] at hrun
      by_cases hstop : c = 0x2f ∨ c = 0x00
      · rw [if_pos hstop] at hrun
        cases hrun
        exact ⟨rfl, fun hne => absurd rfl hne⟩
      · rw [if_neg hstop] at hrun
        obtain ⟨_, k₁, hderef, hrest⟩ := bind_eq_ok.mp hrun
        obtain ⟨hptr, rfl⟩ := deref_run hderef
        split at hrest
        · cases hrest
        · obtain ⟨q, k₂, hcopy, hdone⟩ := bind_eq_ok.mp hrest
          cases hdone
          exact ⟨(ih hcopy).1, fun _ => hptr⟩

/-- A part is two loans; the buffer of an empty one is given back. -/
theorem Heap.Lends.parsePart {r : Option PathPart × List (BitVec 8)} (h : k.heap.Lends T ptrs)
    (hrun : pathparserParsePathPart path k = .ok (r, k')) :
    (r.1 = none ∧ k'.heap.Lends T ptrs) ∨
      ∃ part, r.1 = some part ∧ k'.heap.Lends T (part.addr :: part.buffer :: ptrs) := by
  obtain ⟨⟨str, rest⟩, k₁, hpart, hrun₁⟩ := bind_eq_ok.mp hrun
  obtain ⟨buffer, k₂, halloc, hpart₂⟩ := bind_eq_ok.mp hpart
  obtain ⟨⟨name, behind⟩, k₃, hcopy, hpart₃⟩ := bind_eq_ok.mp hpart₂
  obtain ⟨rfl, hfollowed⟩ := pathparserCopyPart_kernel hcopy
  have hbuffer := h.kzalloc (by decide) (by decide) halloc
  change (if name = [] then _ else _ : KM _) k₃ = _ at hpart₃
  -- the buffer was allocated before the name was known to be empty
  by_cases hname : name = []
  · rw [if_pos hname] at hpart₃
    obtain ⟨_, k₄, hfree, hdone⟩ := bind_eq_ok.mp hpart₃
    cases hfree
    cases hdone
    cases hrun₁
    refine Or.inl ⟨rfl, ?_⟩
    rcases hbuffer with ⟨rfl, hlends⟩ | ⟨_, hlends⟩
    · show (heapFree k₃.heap 0).Lends T ptrs
      rw [hlends.ready.free_null]
      exact hlends
    · exact hlends.free
  · rw [if_neg hname] at hpart₃
    cases hpart₃
    obtain ⟨addr, k₄, halloc', hrun₂⟩ := bind_eq_ok.mp hrun₁
    obtain ⟨_, k₅, hderef, hdone⟩ := bind_eq_ok.mp hrun₂
    obtain ⟨haddr, rfl⟩ := deref_run hderef
    cases hdone
    refine Or.inr ⟨_, rfl, ?_⟩
    rcases hbuffer with ⟨hnull, _⟩ | ⟨_, hlends⟩
    · exact absurd hnull (hfollowed hname)
    · rcases hlends.kzalloc (by decide) (by decide) halloc' with ⟨hnull, _⟩ | ⟨_, hlends'⟩
      · exact absurd hnull haddr
      · exact hlends'

/-- The blocks of all the parts are on loan. The induction follows the loop. -/
theorem Heap.Lends.parseParts {fuel : Nat} {parts : List PathPart} (h : k.heap.Lends T ptrs)
    (hrun : pathparserParseParts fuel path k = .ok (parts, k')) : k'.heap.Lends T (partBlocks parts ++ ptrs) := by
  induction fuel generalizing path parts k ptrs with
  | zero =>
      cases hrun
      exact h
  | succ fuel ih =>
      obtain ⟨⟨part, rest⟩, k₁, hpart, hrun₁⟩ := bind_eq_ok.mp hrun
      rcases h.parsePart hpart with ⟨hnone, hlends⟩ | ⟨part', hsome, hlends⟩
      · obtain rfl : part = none := hnone
        cases hrun₁
        exact hlends
      · obtain rfl : part = some part' := hsome
        obtain ⟨parts', k₂, hparts, hdone⟩ := bind_eq_ok.mp hrun₁
        cases hdone
        -- the loans of this part are listed in front of those of the rest
        have hperm : (partBlocks parts' ++ part'.addr :: part'.buffer :: ptrs).Perm
            (part'.buffer :: part'.addr :: (partBlocks parts' ++ ptrs)) := by
          refine (List.perm_middle.trans (List.Perm.cons _ List.perm_middle)).trans ?_
          exact List.Perm.swap ..
        exact (ih hlends hparts).perm hperm

/-- `pathparser_free` gives them all back. -/
theorem Heap.Lends.freeParts {parts : List PathPart} (h : k.heap.Lends T (partBlocks parts ++ ptrs)) :
    ∃ k', pathparserFreeParts parts k = .ok ((), k') ∧ k'.heap.Lends T ptrs := by
  induction parts generalizing k with
  | nil => exact ⟨k, rfl, h⟩
  | cons part parts ih =>
      rw [partBlocks_cons] at h
      exact ih (k := { k with heap := heapFree (heapFree k.heap part.buffer) part.addr }) h.free.free

end Loans

/-! ## Enough blocks -/

section Room

variable {k : Kernel} {path : List (BitVec 8)}

/-- Copying a name that fits the buffer returns; an empty one needs no buffer. -/
theorem pathparserCopyPart_returns {ptr i : Nat} (hptr : firstName path ≠ [] → ptr ≠ 0)
    (hlength : i + (firstName path).length ≤ bimbleosMaxPath) : ∃ r, pathparserCopyPart ptr i path k = .ok (r, k) := by
  induction path generalizing i with
  | nil => exact ⟨_, rfl⟩
  | cons c path ih =>
      rw [pathparserCopyPart]
      by_cases hstop : c = 0x2f ∨ c = 0x00
      · rw [if_pos hstop]
        exact ⟨_, rfl⟩
      · have hfirst : firstName (c :: path) = c :: firstName path := by
          unfold firstName
          rw [List.takeWhile_cons, decide_eq_true hstop]
          rfl
        rw [hfirst] at hptr hlength
        rw [List.length_cons] at hlength
        have hne := hptr (List.cons_ne_nil _ _)
        obtain ⟨⟨part, rest⟩, hcopy⟩ := @ih (i + 1) (fun _ => hne) (by omega)
        rw [if_neg hstop, bind_of_ok (deref_of_ne hne), if_neg (by omega), bind_of_ok hcopy]
        exact ⟨_, rfl⟩

/-- Two blocks are enough for a part, and none are needed when it is empty. -/
theorem pathparserParsePathPart_returns {n : Nat} (hready : k.heap.Ready)
    (hlength : (firstName path).length ≤ bimbleosMaxPath) (hroom : firstName path ≠ [] → n + 2 ≤ k.heap.freeBlocks) :
    ∃ r k', pathparserParsePathPart path k = .ok (r, k') ∧ k'.heap.Ready ∧
      (firstName path ≠ [] → n ≤ k'.heap.freeBlocks) := by
  obtain ⟨buffer, k₁, halloc, hready₁, hroom₁⟩ : ∃ buffer k₁, kzalloc bimbleosMaxPath k = .ok (buffer, k₁) ∧
      k₁.heap.Ready ∧ (firstName path ≠ [] → buffer ≠ 0 ∧ n + 1 ≤ k₁.heap.freeBlocks) := by
    rcases kzalloc_one bimbleosMaxPath hready (by decide) (by decide) with
      ⟨halloc, hzero⟩ | ⟨buffer, k₁, halloc, hne, hready₁, hcount⟩
    · -- no block: the buffer is null, and the name has to be empty
      refine ⟨0, k, halloc, hready, fun hname => ?_⟩
      have hmore := hroom hname
      omega
    · refine ⟨buffer, k₁, halloc, hready₁, fun hname => ⟨hne, ?_⟩⟩
      have hmore := hroom hname
      omega
  obtain ⟨⟨name, rest⟩, hcopy⟩ :=
    @pathparserCopyPart_returns k₁ path buffer 0 (fun hname => (hroom₁ hname).1) (by omega)
  have hname : name = firstName path := (Prod.mk.inj (pathparserCopyPart_run hcopy)).1
  by_cases hempty : firstName path = []
  · refine ⟨(none, pathparserSkipSlash rest), { k₁ with heap := heapFree k₁.heap buffer }, ?_, hready₁.free,
      fun hne => absurd hempty hne⟩
    have hpart : pathparserGetPathPart path k
        = .ok ((none, pathparserSkipSlash rest), { k₁ with heap := heapFree k₁.heap buffer }) := by
      unfold pathparserGetPathPart
      rw [bind_of_ok halloc, bind_of_ok hcopy]
      show (if name = [] then _ else _ : KM _) k₁ = _
      rw [if_pos (hname.trans hempty)]
      rfl
    exact bind_of_ok hpart
  · -- a name: one more block, for the part itself
    have hpart : pathparserGetPathPart path k
        = .ok ((some (buffer, name), pathparserSkipSlash rest), k₁) := by
      unfold pathparserGetPathPart
      rw [bind_of_ok halloc, bind_of_ok hcopy]
      show (if name = [] then _ else _ : KM _) k₁ = _
      rw [if_neg (fun hnil => hempty (hname.symm.trans hnil))]
      rfl
    have hmore := (hroom₁ hempty).2
    rcases kzalloc_one sizeofPathPart hready₁ (by decide) (by decide) with
      ⟨_, hzero⟩ | ⟨addr, k₂, halloc', hne, hready₂, hcount⟩
    · omega
    · refine ⟨(some { addr := addr, buffer := buffer, part := name }, pathparserSkipSlash rest), k₂, ?_, hready₂,
        fun _ => by omega⟩
      refine (bind_of_ok hpart).trans ((bind_of_ok halloc').trans ?_)
      exact bind_of_ok (deref_of_ne hne)

/-- Two blocks for each name are enough for the parts. The induction follows the loop. -/
theorem pathparserParseParts_returns {fuel n : Nat} (hready : k.heap.Ready) (hlength : strlen path ≤ bimbleosMaxPath)
    (hroom : n + 2 * (splitNames fuel path).length ≤ k.heap.freeBlocks) :
    ∃ parts k', pathparserParseParts fuel path k = .ok (parts, k') := by
  induction fuel generalizing path k with
  | zero => exact ⟨_, _, rfl⟩
  | succ fuel ih =>
      have htext := strlen_behind path
      rw [splitNames_succ] at hroom
      have hfirst : firstName path ≠ [] →
          n + 2 * (splitNames fuel (behindName path)).length + 2 ≤ k.heap.freeBlocks := by
        intro hne
        rw [if_neg hne, List.length_cons] at hroom
        omega
      obtain ⟨⟨part, rest⟩, k₁, hpart, hready₁, hroom₁⟩ := pathparserParsePathPart_returns hready (by omega) hfirst
      obtain ⟨hname, hrest⟩ := pathparserParsePathPart_run hpart
      obtain rfl : rest = behindName path := hrest
      cases part with
      | none => exact ⟨[], k₁, bind_of_ok hpart⟩
      | some part =>
          have hne : firstName path ≠ [] := by
            intro hempty
            have hnone : some part.part = (if firstName path = [] then none else some (firstName path)) := hname
            rw [if_pos hempty] at hnone
            cases hnone
          obtain ⟨parts, k₂, hparts⟩ := ih hready₁ (by omega) (hroom₁ hne)
          exact ⟨part :: parts, k₂, (bind_of_ok hpart).trans (bind_of_ok hparts)⟩

/-- A path takes a block for its root, and two for each name. -/
theorem pathparserParse_returns (hready : k.heap.Ready)
    (hroom : 2 * (fileNames path).length + 1 ≤ k.heap.freeBlocks) : ∃ r k', pathparserParse path k = .ok (r, k') := by
  rcases pathparserParse_cases path with ⟨_, hnone⟩ | ⟨hshort, hvalid, hparse⟩
  · exact ⟨none, k, by rw [hnone]; rfl⟩
  · have hbehind := pathparserPathValidFormat_strlen hvalid
    rcases kzalloc_one sizeofPathRoot hready (by decide) (by decide) with
      ⟨_, hzero⟩ | ⟨addr, k₁, halloc, hne, hready₁, hcount⟩
    · omega
    · obtain ⟨first, k₂, hparts⟩ := @pathparserParseParts_returns k₁ (path.drop 3) (strlen path + 1) 0 hready₁
        (by omega) (by unfold fileNames at hroom; omega)
      rw [hparse, bind_of_ok (pathparserCreateRoot_of_ne halloc hne), bind_of_ok hparts]
      exact ⟨_, k₂, rfl⟩

/-- A path that is short and well formed is not turned down. -/
theorem pathparserParse_accepts {r : Option PathRoot} {k' : Kernel} (hshort : strlen path ≤ bimbleosMaxPath)
    (hvalid : pathparserPathValidFormat path = true) (hrun : pathparserParse path k = .ok (r, k')) : r ≠ none := by
  rintro rfl
  rcases pathparserParse_cases path with ⟨hbad, _⟩ | ⟨_, _, hparse⟩
  · exact hbad ⟨hshort, hvalid⟩
  · rw [hparse] at hrun
    obtain ⟨_, _, _, hrun₁⟩ := bind_eq_ok.mp hrun
    obtain ⟨_, _, _, hdone⟩ := bind_eq_ok.mp hrun₁
    cases hdone

end Room

section Settles

variable {k k' : Kernel} {path : List (BitVec 8)} {root : PathRoot} {T : Set Nat}

/-- The root and the parts of a path that was parsed are on loan. -/
theorem Heap.Lends.parse (h : k.heap.Lends T []) (hrun : pathparserParse path k = .ok (some root, k')) :
    k'.heap.Lends T (partBlocks root.first ++ [root.addr]) := by
  obtain ⟨_, k₁, halloc, hne, hparts⟩ := pathparserParse_some hrun
  rcases h.kzalloc (by decide) (by decide) halloc with ⟨hnull, _⟩ | ⟨_, hlends⟩
  · exact absurd hnull hne
  · exact hlends.parseParts hparts

/-- `pathparser_free` gives them back. -/
theorem Heap.Lends.freeRoot (h : k.heap.Lends T (partBlocks root.first ++ [root.addr])) :
    ∃ k', pathparserFree root k = .ok ((), k') ∧ k'.heap.Lends T [] := by
  obtain ⟨k₁, hfree, hlends⟩ := h.freeParts
  exact ⟨{ k₁ with heap := heapFree k₁.heap root.addr }, bind_of_ok hfree, hlends.free⟩

/-- **A path that is parsed and freed leaves the heap as it was**, and a path that is turned down takes nothing. A
    block for the root and two for each name are enough for the parser to return. -/
theorem pathparserParse_settles (hready : k.heap.Ready) :
    (2 * (fileNames path).length + 1 ≤ k.heap.freeBlocks → ∃ r k₁, pathparserParse path k = .ok (r, k₁)) ∧
      ∀ r k₁, pathparserParse path k = .ok (r, k₁) → (r = none → k₁.heap.taken = k.heap.taken) ∧
        ∀ root, r = some root →
          ∃ k₂, pathparserFree root k₁ = .ok ((), k₂) ∧ k₂.heap.taken = k.heap.taken := by
  refine ⟨pathparserParse_returns hready, ?_⟩
  intro r k₁ hrun
  constructor
  · rintro rfl
    rcases pathparserParse_cases path with ⟨_, hnone⟩ | ⟨hshort, hvalid, _⟩
    · rw [hnone] at hrun
      cases hrun
      rfl
    · exact absurd rfl (pathparserParse_accepts hshort hvalid hrun)
  · rintro root rfl
    obtain ⟨k₂, hfree, hlends⟩ := (hready.lends.parse hrun).freeRoot
    exact ⟨k₂, hfree, hlends.settled⟩

end Settles

/-- A path that is read to its end, parsed and freed while the heap still has its boot pages. -/
theorem pathparserParse_settles_boot :
    (∃ r k₁, pathparserParse [0x30, 0x3a, 0x2f, 0x61, 0x2f, 0x62] bootKernel = .ok (r, k₁)) ∧
      ∀ r k₁, pathparserParse [0x30, 0x3a, 0x2f, 0x61, 0x2f, 0x62] bootKernel = .ok (r, k₁) →
        (r = none → k₁.heap.taken = bootKernel.heap.taken) ∧ ∀ root, r = some root →
          ∃ k₂, pathparserFree root k₁ = .ok ((), k₂) ∧ k₂.heap.taken = bootKernel.heap.taken := by
  obtain ⟨hreturns, hsettles⟩ :=
    @pathparserParse_settles bootKernel [0x30, 0x3a, 0x2f, 0x61, 0x2f, 0x62] bootKernel_ready
  refine ⟨hreturns ?_, hsettles⟩
  rw [bootKernel_freeBlocks]
  decide

/-! ## The text that is kept -/

/-- Wherever two slashes follow each other, the one in front of the text counted, the rest is slashes. -/
def SlashesEnd (text : List (BitVec 8)) : Prop :=
  ∀ a b, 0x2f :: text = a ++ 0x2f :: 0x2f :: b → ∀ c ∈ b, c = 0x2f

section Text

variable {name text : List (BitVec 8)}

theorem slashesEnd_nil : SlashesEnd [] := by
  intro a b heq
  have hlen := congrArg List.length heq
  simp only [List.length_cons, List.length_append, List.length_nil] at hlen
  omega

/-- A name has no slash. -/
theorem slashesEnd_name (hplain : 0x2f ∉ name) : SlashesEnd name := by
  intro a b heq
  rcases a with _ | ⟨x, a⟩
  · obtain rfl : name = 0x2f :: b := (List.cons.inj heq).2
    exact absurd List.mem_cons_self hplain
  · obtain rfl : name = a ++ 0x2f :: 0x2f :: b := (List.cons.inj heq).2
    exact absurd (List.mem_append_right a List.mem_cons_self) hplain

/-- An empty name leaves slashes only. -/
theorem slashesEnd_slash : SlashesEnd (0x2f :: text) ↔ ∀ c ∈ text, c = 0x2f := by
  constructor
  · intro h
    exact h [] text rfl
  · intro hall a b heq c hc
    have hmem : c ∈ (0x2f :: 0x2f :: text : List (BitVec 8)) := by
      rw [heq]
      exact List.mem_append_right a (List.mem_cons_of_mem _ (List.mem_cons_of_mem _ hc))
    rcases List.mem_cons.mp hmem with hslash | hmem
    · exact hslash
    · rcases List.mem_cons.mp hmem with hslash | hmem
      · exact hslash
      · exact hall c hmem

/-- A name in front makes no difference: the two slashes are behind it. -/
theorem slashesEnd_append (hne : name ≠ []) (hplain : 0x2f ∉ name) :
    SlashesEnd (name ++ 0x2f :: text) ↔ SlashesEnd text := by
  constructor
  · intro h a b heq
    refine h (0x2f :: name ++ a) b ?_
    rw [heq, List.cons_append, List.cons_append, List.append_assoc]
  · intro h a b heq
    have hsplit : (0x2f :: name) ++ (0x2f :: text) = a ++ 0x2f :: 0x2f :: b := heq
    -- the two slashes are behind the name, or they reach into it
    rcases List.append_eq_append_iff.mp hsplit with ⟨behind, _, hbehind⟩ | ⟨front, hfront, hrest⟩
    · exact h behind b hbehind
    · -- the first of the two slashes would end the name, or be in it
      rcases front with _ | ⟨x, _ | ⟨y, front⟩⟩
      · exact h [] b hrest.symm
      · obtain rfl : 0x2f = x := (List.cons.inj hrest).1
        rcases a with _ | ⟨z, a⟩
        · exact absurd (List.cons.inj hfront).2 hne
        · obtain rfl : name = a ++ [0x2f] := (List.cons.inj hfront).2
          exact absurd (List.mem_append_right a List.mem_cons_self) hplain
      · obtain rfl : 0x2f = y := (List.cons.inj (List.cons.inj hrest).2).1
        rcases a with _ | ⟨z, a⟩
        · obtain rfl : name = 0x2f :: front := (List.cons.inj hfront).2
          exact absurd List.mem_cons_self hplain
        · obtain rfl : name = a ++ x :: 0x2f :: front := (List.cons.inj hfront).2
          exact absurd (List.mem_append_right a (List.mem_cons_of_mem x List.mem_cons_self)) hplain

/-- The characters of a first name. -/
theorem mem_firstName {path : List (BitVec 8)} {c : BitVec 8} (h : c ∈ firstName path) :
    ¬ (c = 0x2f ∨ c = 0x00) := by
  have hkeep := List.mem_takeWhile_imp h
  exact of_decide_eq_true hkeep

/-- A name has no slash to leave out. -/
theorem filter_name (hplain : 0x2f ∉ name) : name.filter (· ≠ 0x2f) = name := by
  refine List.filter_eq_self.mpr fun c hc => decide_eq_true ?_
  rintro rfl
  exact hplain hc

/-- The names of a text keep its characters when slashes end it. The induction follows the parser. -/
theorem splitNames_keepsText_iff {fuel : Nat} (path : List (BitVec 8)) (hfuel : strlen path < fuel) :
    (splitNames fuel path).flatten = (cText path).filter (· ≠ 0x2f) ↔ SlashesEnd (cText path) := by
  induction fuel generalizing path with
  | zero => exact absurd hfuel (Nat.not_lt_zero _)
  | succ fuel ih =>
      have hplain : 0x2f ∉ firstName path := fun hmem => mem_firstName hmem (Or.inl rfl)
      have hlen : strlen path = (cText path).length := rfl
      have hbehind : strlen (behindName path) = (cText (behindName path)).length := rfl
      rw [splitNames_succ]
      by_cases hempty : firstName path = []
      · rw [if_pos hempty]
        -- an empty name ends the parts, whatever is behind it
        rcases cText_cases path with ⟨htext, _⟩ | htext
        · rw [htext, hempty]
          exact iff_of_true rfl slashesEnd_nil
        · rw [htext, hempty, List.nil_append, slashesEnd_slash]
          have hfilter : (0x2f :: cText (behindName path)).filter (· ≠ 0x2f)
              = (cText (behindName path)).filter (· ≠ 0x2f) := rfl
          rw [hfilter, List.flatten_nil, eq_comm, List.filter_eq_nil_iff]
          exact forall₂_congr fun c _ => by simp
      · rw [if_neg hempty, List.flatten_cons]
        have hpos := List.length_pos_iff.mpr hempty
        rcases cText_cases path with ⟨htext, hnil⟩ | htext
        · -- the name is the last one
          have hshort : strlen (behindName path) < fuel := by
            rw [hlen, htext] at hfuel
            rw [hbehind, hnil]
            exact Nat.lt_of_lt_of_le hpos (Nat.le_of_lt_succ hfuel)
          have hrest := (ih (behindName path) hshort).mpr (hnil ▸ slashesEnd_nil)
          rw [htext, hrest, hnil, List.filter_nil, List.append_nil, filter_name hplain]
          exact iff_of_true rfl (slashesEnd_name hplain)
        · have hshort : strlen (behindName path) < fuel := by
            rw [hlen, htext, List.length_append, List.length_cons] at hfuel
            omega
          -- a slash and the text behind it, which has names of its own
          rw [htext, slashesEnd_append hempty hplain, ← ih (behindName path) hshort, List.filter_append,
            filter_name hplain, List.append_right_inj]
          rfl

end Text

section Keeps

variable {k k' : Kernel} {path : List (BitVec 8)} {root : PathRoot}

/-- **The parts of a path keep its text** if and only if slashes are all that is behind two slashes. The parser takes
    the empty part between them for the end of the path. -/
theorem pathparserParse_keepsText_iff (hrun : pathparserParse path k = .ok (some root, k')) :
    (pathNames root.first).flatten = (cText (path.drop 3)).filter (· ≠ 0x2f) ↔ SlashesEnd (cText (path.drop 3)) := by
  have hbehind := pathparserPathValidFormat_strlen (pathparserParse_some hrun).1
  rw [pathparserParse_run hrun]
  exact splitNames_keepsText_iff (path.drop 3) (by omega)

/-- A path that is accepted while the heap still has its boot pages. -/
theorem pathparserParse_boot (hshort : strlen path ≤ bimbleosMaxPath) (hvalid : pathparserPathValidFormat path = true)
    (hroom : 2 * (fileNames path).length + 1 ≤ 25600) :
    ∃ root k', pathparserParse path bootKernel = .ok (some root, k') := by
  obtain ⟨r, k', hrun⟩ :=
    pathparserParse_returns bootKernel_ready (hroom.trans (Nat.le_of_eq bootKernel_freeBlocks.symm))
  obtain ⟨root, rfl⟩ := Option.ne_none_iff_exists'.mp (pathparserParse_accepts hshort hvalid hrun)
  exact ⟨root, k', hrun⟩

end Keeps

/-- `0:/a/b//` keeps its text. -/
theorem pathparserParse_keepsText_slashes :
    ∃ root k', pathparserParse [0x30, 0x3a, 0x2f, 0x61, 0x2f, 0x62, 0x2f, 0x2f] bootKernel = .ok (some root, k') ∧
      (pathNames root.first).flatten = [0x61, 0x62] ∧ SlashesEnd [0x61, 0x2f, 0x62, 0x2f, 0x2f] := by
  obtain ⟨root, k', hrun⟩ :=
    @pathparserParse_boot [0x30, 0x3a, 0x2f, 0x61, 0x2f, 0x62, 0x2f, 0x2f] (by decide) (by decide) (by decide)
  have htext : (pathNames root.first).flatten = [0x61, 0x62] := by
    rw [pathparserParse_run hrun]
    decide
  exact ⟨root, k', hrun, htext, (pathparserParse_keepsText_iff hrun).mp (htext.trans (by decide))⟩

/-- `0:/a//b` and `0:/a/` give the same parts: the name behind the two slashes is lost. -/
theorem pathparserParse_losesText :
    ∃ root k' root' k'', pathparserParse [0x30, 0x3a, 0x2f, 0x61, 0x2f, 0x2f, 0x62] bootKernel = .ok (some root, k') ∧
      (pathNames root.first).flatten ≠ (cText [0x61, 0x2f, 0x2f, 0x62]).filter (· ≠ 0x2f) ∧
      pathparserParse [0x30, 0x3a, 0x2f, 0x61, 0x2f] bootKernel = .ok (some root', k'') ∧
      pathNames root.first = pathNames root'.first := by
  obtain ⟨root, k', hrun⟩ :=
    @pathparserParse_boot [0x30, 0x3a, 0x2f, 0x61, 0x2f, 0x2f, 0x62] (by decide) (by decide) (by decide)
  obtain ⟨root', k'', hrun'⟩ := @pathparserParse_boot [0x30, 0x3a, 0x2f, 0x61, 0x2f] (by decide) (by decide) (by decide)
  refine ⟨root, k', root', k'', hrun, ?_, hrun', ?_⟩
  · rw [pathparserParse_run hrun]
    decide
  · rw [pathparserParse_run hrun, pathparserParse_run hrun']
    decide

end BimbleOS
