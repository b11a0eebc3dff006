import BimbleOS.Stdlib.Command
import BimbleOS.Stdlib.StrtokRuns
import BimbleOS.Task.ArgumentRuns

/-!
# `Stdlib.CommandList` — the list of arguments in memory

`Stdlib.Command` says which arguments `bimbleos_parse_command` finds. Here its list is in memory: the nodes lie where
`malloc` puts them, `strncpy` fills them and each pointer is stored. Whatever memory `malloc` gives, and wherever it
ends, the list that is returned has the pieces of the command for which there was memory (`parseCommandNodes_spec`),
and `bimbleos_system_run` hands it to `bimbleos_system`. The induction of the loop is on the pieces that are left; a
node is as it was written from then on, except for its pointer to the next one.
-/

namespace BimbleOS.Stdlib

open Bytes Links

/-- `a` is in the node at `p`. -/
def InNode (p a : Nat) : Prop := p ≤ a ∧ a < p + sizeofCommandArgument

/-- The calls of `malloc` for the nodes of a list: their answers, null where there is no memory, and the memory that
    each of them leaves. A program relies on its own memory and earlier nodes being left alone, and on a node that
    overlaps none of them. -/
structure NodeMalloc (own : Nat → Prop) where
  ptr : Nat → Nat
  memory : Nat → Mem → Mem
  inside : ∀ i, ptr i ≠ 0 → ptr i + sizeofCommandArgument ≤ addressSpace
  apart : ∀ i, ptr i ≠ 0 → ∀ a, InNode (ptr i) a → ¬ own a
  fresh : ∀ i j, j < i → ptr i ≠ 0 → ptr j ≠ 0 → ∀ a, InNode (ptr i) a → ¬ InNode (ptr j) a
  kept : ∀ i m a, (own a ∨ ∃ j, j < i ∧ ptr j ≠ 0 ∧ InNode (ptr j) a) → memory i m a = m a

variable {own : Nat → Prop}

/-- The call is answered. -/
def NodeMalloc.answers (malloc : NodeMalloc own) (i : Nat) : Bool := malloc.ptr i ≠ 0

/-- The nodes for the pieces, from the `i`-th call on. -/
def NodeMalloc.nodes (malloc : NodeMalloc own) : Nat → List (List (BitVec 8)) → List Nat
  | _, [] => []
  | i, _ :: ws => if malloc.ptr i = 0 then [] else malloc.ptr i :: malloc.nodes (i + 1) ws

/-- Each of them is the answer of a call. -/
theorem NodeMalloc.mem_nodes {malloc : NodeMalloc own} {ws : List (List (BitVec 8))} {i n : Nat}
    (h : n ∈ malloc.nodes i ws) : ∃ j, n = malloc.ptr j ∧ malloc.ptr j ≠ 0 := by
  induction ws generalizing i with
  | nil => exact absurd h List.not_mem_nil
  | cons w ws ih =>
      unfold NodeMalloc.nodes at h
      by_cases hnull : malloc.ptr i = 0
      · rw [if_pos hnull] at h
        exact absurd h List.not_mem_nil
      · rw [if_neg hnull] at h
        rcases List.mem_cons.mp h with hn | hn
        · exact ⟨i, hn, hnull⟩
        · exact ih hn

/-- `strncpy(node->argument, token, sizeof(node->argument))` and `node->next = 0`. -/
def writeNode (m : Mem) (node token : Nat) : Mem :=
  store32 (strncpy m node token sizeofArgument) (node + sizeofArgument) 0

/-- The loop of `bimbleos_parse_command`, from the `i`-th node on: the memory and `sp`. -/
def parseNodes (malloc : NodeMalloc own) : Nat → Nat → Mem → Nat → Nat → Nat → Option (Mem × Nat)
  | 0, _, _, _, _, _ => none
  | fuel + 1, i, m, sp, current, token =>
      if token = 0 then some (m, sp)
      else
        let newCommand := malloc.ptr i
        let m := malloc.memory i m
        if newCommand = 0 then some (m, sp)
        else
          let m := writeNode m newCommand token
          let m := store32 m (current + sizeofArgument) (BitVec.ofNat 32 newCommand)
          (strtok 0 [0x20] m sp).bind fun (token, m, sp) => parseNodes malloc fuel (i + 1) m sp newCommand token

/-- `bimbleos_parse_command`: the pointer that it returns, the memory, and `sp`. -/
def parseCommandNodes (malloc : NodeMalloc own) (command : Nat) (max : Int) (scommand : Nat) (m : Mem) (sp : Nat) :
    Option (Nat × Mem × Nat) :=
  if (sizeofScommand : Int) ≤ max then some (0, m, sp)
  else
    let m := strncpy m scommand command sizeofScommand
    (strtok scommand [0x20] m sp).bind fun (token, m, sp) =>
      if token = 0 then some (0, m, sp)
      else
        let rootCommand := malloc.ptr 0
        let m := malloc.memory 0 m
        if rootCommand = 0 then some (0, m, sp)
        else
          let m := writeNode m rootCommand token
          (strtok 0 [0x20] m sp).bind fun (token, m, sp) =>
            (parseNodes malloc addressSpace 1 m sp rootCommand token).map fun (m, sp) => (rootCommand, m, sp)

/-- `sizeof(buf)` of `bimbleos_system_run`. -/
def sizeofBuf : Nat := 1024

/-- `bimbleos_system_run`: its result, or the argument of its call of `bimbleos_system`; the memory, and `sp`. -/
def bimbleosSystemRun (malloc : NodeMalloc own) (command buf scommand : Nat) (m : Mem) (sp : Nat) :
    Option (Except Int Nat × Mem × Nat) :=
  let m := strncpy m buf command sizeofBuf
  (parseCommandNodes malloc buf sizeofBuf scommand m sp).map fun (rootCommandArgument, m, sp) =>
    if rootCommandArgument = 0 then (.error (-1), m, sp) else (.ok rootCommandArgument, m, sp)

/-! ## `strtok` stays in its string -/

/-- What a call of `strtok` for a string from `lo` to `hi` has returned: the first piece and what is left lie there. -/
inductive TokenWithin (lo hi : Nat) (r : Nat × Mem × Nat) : List (List (BitVec 8)) → Prop where
  | none (htoken : r.1 = 0) (hsp : r.2.2 = 0) : TokenWithin lo hi r []
  | some {w rest : List (BitVec 8)} (htoken : lo ≤ r.1) (hend : r.1 + w.length ≤ hi) (hword : HoldsString r.2.1 r.1 w)
      (hsp : lo ≤ r.2.2) (hleft : r.2.2 + rest.length ≤ hi) (hrest : HoldsString r.2.1 r.2.2 rest) :
      TokenWithin lo hi r (w :: pieces rest)

section Strtok

variable {m m' : Mem} {p lo hi str sp token : Nat} {s w : List (BitVec 8)} {ws : List (List (BitVec 8))}

theorem strtok_within (hlo : 0 < lo) (hp : lo ≤ p) (hend : p + s.length ≤ hi) (hhi : hi < addressSpace)
    (hstart : (str = p ∧ sp = 0) ∨ sp = p) (h : HoldsString m p s) : ∃ r, strtok str [0x20] m sp = some r ∧
      TokenWithin lo hi r (pieces s) ∧ ∀ a, a < lo ∨ hi < a → r.2.1 a = m a := by
  obtain ⟨r, hrun, htoken⟩ := strtok_spec (by omega) hstart h (by omega)
  obtain ⟨hne, hbytes⟩ := holdsString_iff.mp h
  have hon := @strtokOn_eq [0x20] { memory := m } sp str
  have hnone : ({ memory := m } : Access).Within p (p + s.length) := fun a ha => absurd ha List.not_mem_nil
  refine ⟨r, hrun, ?_⟩
  rcases @strtokOn_spec [0x20] s { memory := m } p 0 str sp (by decide) hne (by omega) (by omega) hstart
      (fun i _ hi => hbytes i hi) (Nat.zero_le _) (Or.inl rfl) hnone with
    ⟨w', hcall, hmem, _, _⟩ | ⟨j, n, k', w', hcall, _, hreturned⟩
  · rw [hcall] at hon
    obtain rfl : (0, w'.memory, 0) = r := Option.some.inj (hon.symm.trans hrun)
    generalize pieces s = ws at htoken ⊢
    cases htoken with
    | none => exact ⟨.none rfl rfl, fun a _ => congrFun hmem a⟩
    | some hnull => exact absurd rfl hnull
  · rw [hcall] at hon
    obtain rfl : (p + j, w'.memory, p + k') = r := Option.some.inj (hon.symm.trans hrun)
    have hinside := hreturned.piece.inside
    obtain ⟨_, hnext⟩ := hreturned.next
    refine ⟨?_, fun a ha => hreturned.frame a (by omega)⟩
    generalize pieces s = ws at htoken ⊢
    cases htoken with
    | none hnull =>
        have hzero : p + j = 0 := hnull
        omega
    | @some w rest _ _ hword hrest _ =>
        -- the string ends at the zero behind the piece, and what is left at the string's own
        have hlen : w.length ≤ n := hword.length_le (by rw [Nat.add_assoc]; exact hreturned.ended)
        have hlast : w'.memory (p + k' + (s.length - k')) = 0 := by
          rw [Nat.add_assoc, Nat.add_sub_cancel' hnext, hreturned.behind _ hnext (Nat.le_refl _)]
          exact (hbytes _ (Nat.le_refl _)).trans (getD_of_length_le (Nat.le_refl _))
        have hleft := hrest.length_le hlast
        exact .some (by show lo ≤ p + j; omega) (by show p + j + w.length ≤ hi; omega) hword
          (by show lo ≤ p + k'; omega) (by show p + k' + rest.length ≤ hi; omega) hrest

/-- The string is all that counts. -/
theorem TokenWithin.congr (h : TokenWithin lo hi (token, m, sp) ws) (hm : ∀ a, lo ≤ a → a ≤ hi → m' a = m a) :
    TokenWithin lo hi (token, m', sp) ws := by
  cases h with
  | none htoken hsp => exact .none htoken hsp
  | some htoken hend hword hsp hleft hrest =>
      refine .some htoken hend ?_ hsp hleft ?_
      · exact hword.congr_within fun b hlo hhi => hm b (Nat.le_trans htoken hlo) (Nat.le_trans hhi hend)
      · exact hrest.congr_within fun b hlo hhi => hm b (Nat.le_trans hsp hlo) (Nat.le_trans hhi hleft)

/-- The next call for the same string, in a memory that still has it. -/
theorem TokenWithin.next (m₁ : Mem) (hlo : 0 < lo) (hhi : hi < addressSpace)
    (h : TokenWithin lo hi (token, m, sp) (w :: ws)) (hm : ∀ a, lo ≤ a → a ≤ hi → m₁ a = m a) :
    ∃ token' m' sp', strtok 0 [0x20] m₁ sp = .some (token', m', sp') ∧ TokenWithin lo hi (token', m', sp') ws ∧
      ∀ a, a < lo ∨ hi < a → m' a = m₁ a := by
  cases h with
  | some _ _ _ hsp hleft hrest =>
      obtain ⟨r, hrun, htoken, hframe⟩ := @strtok_within m₁ sp lo hi 0 sp _ hlo hsp hleft hhi (Or.inr rfl)
        (hrest.congr_within fun a hle hge => hm a (Nat.le_trans hsp hle) (Nat.le_trans hge hleft))
      exact ⟨r.1, r.2.1, r.2.2, hrun, htoken, hframe⟩

theorem TokenWithin.ne_null (hlo : 0 < lo) (h : TokenWithin lo hi (token, m, sp) (w :: ws)) : token ≠ 0 := by
  cases h with
  | some htoken => exact Nat.ne_of_gt (Nat.lt_of_lt_of_le hlo htoken)

end Strtok

/-! ## The list that is built -/

section Nodes

variable {malloc : NodeMalloc own} {m m' : Mem} {lo hi node token i c fuel : Nat} {w : List (BitVec 8)}
  {ws : List (List (BitVec 8))}

theorem argumentAt_congr_below (h : ∀ a, node ≤ a → a < node + sizeofArgument → m' a = m a) :
    argumentAt m' node = argumentAt m node :=
  argumentAt_congr fun _ hj => h _ (Nat.le_add_right _ _) (Nat.add_lt_add_left hj node)

theorem commandArgumentNext_congr
    (h : ∀ a, node + sizeofArgument ≤ a → a < node + sizeofCommandArgument → m' a = m a) :
    commandArgumentNext m' node = commandArgumentNext m node := by
  have hnode : sizeofCommandArgument = sizeofArgument + 4 := rfl
  exact congrArg BitVec.toNat (load32_congr fun j hj => h _ (Nat.le_add_right _ _) (by
    show node + sizeofArgument + j < _
    omega))

/-- **A node that is written** holds the token, cut to 511 characters, and points nowhere. -/
theorem writeNode_spec (h : HoldsString m token w)
    (hapart : node + sizeofCommandArgument ≤ token ∨ token + w.length < node) :
    argumentAt (writeNode m node token) node = w.take (sizeofArgument - 1) ∧
      commandArgumentNext (writeNode m node token) node = 0 ∧
      ∀ a, ¬ InNode node a → writeNode m node token a = m a := by
  have hnode : sizeofCommandArgument = sizeofArgument + 4 := rfl
  have hpos : 0 < sizeofArgument := by decide
  obtain ⟨hstring, hframe⟩ := @strncpy_string m w node token _ hpos h (by omega)
  have hlen : (w.take (sizeofArgument - 1)).length ≤ sizeofArgument - 1 := List.length_take_le ..
  refine ⟨?_, ?_, fun a ha => ?_⟩
  · have hkept : HoldsString (writeNode m node token) node (w.take (sizeofArgument - 1)) :=
      hstring.store32 fun b hlo hhi => by
        show b < node + sizeofArgument ∨ _
        omega
    unfold argumentAt
    exact hkept.stringAt.trans (List.take_of_length_le hlen)
  · show (load32 (store32 _ (node + sizeofArgument) 0) (node + sizeofArgument)).toNat = 0
    rw [load32_store32]
    rfl
  · unfold InNode at ha
    exact (store32_of_outside (by show a < node + sizeofArgument ∨ _; omega)).trans (hframe a (by
      show a < node ∨ node + sizeofArgument ≤ a
      omega))

/-- A node overlaps no string in the program's own memory. -/
theorem NodeMalloc.beside (hown : ∀ a, lo ≤ a → a ≤ hi → own a) (hptr : malloc.ptr i ≠ 0) (hlo : lo ≤ token)
    (hhi : token + w.length ≤ hi) :
    malloc.ptr i + sizeofCommandArgument ≤ token ∨ token + w.length < malloc.ptr i := by
  have hpos : 0 < sizeofCommandArgument := by decide
  by_contra hover
  have hboth : ∀ a, token ≤ a → a ≤ token + w.length → ¬ InNode (malloc.ptr i) a := fun a hle hge hin =>
    malloc.apart i hptr a hin (hown a (Nat.le_trans hlo hle) (Nat.le_trans hge hhi))
  by_cases horder : token ≤ malloc.ptr i
  · exact hboth (malloc.ptr i) horder (by omega) ⟨Nat.le_refl _, by omega⟩
  · exact hboth token (Nat.le_refl _) (Nat.le_add_right _ _) ⟨by omega, by omega⟩

theorem NodeMalloc.outside (hown : ∀ a, lo ≤ a → a ≤ hi → own a) (hptr : malloc.ptr i ≠ 0) {a : Nat}
    (ha : InNode (malloc.ptr i) a) : a < lo ∨ hi < a := by
  by_contra hin
  exact malloc.apart i hptr a ha (hown a (by omega) (by omega))

/-- The node for a token of a string in the program's own memory. -/
theorem TokenWithin.written {sp : Nat} (hown : ∀ a, lo ≤ a → a ≤ hi → own a) (hptr : malloc.ptr i ≠ 0)
    (h : TokenWithin lo hi (token, m, sp) (w :: ws)) :
    argumentAt (writeNode m (malloc.ptr i) token) (malloc.ptr i) = w.take (sizeofArgument - 1) ∧
      commandArgumentNext (writeNode m (malloc.ptr i) token) (malloc.ptr i) = 0 ∧
      ∀ a, ¬ InNode (malloc.ptr i) a → writeNode m (malloc.ptr i) token a = m a := by
  cases h with
  | some htoken hend hword => exact writeNode_spec hword (malloc.beside hown hptr htoken hend)

theorem NodeMalloc.answers_iff : malloc.answers i = true ↔ malloc.ptr i ≠ 0 := decide_eq_true_iff

/-- What the rest of the loop does to memory: it builds a list behind the `c`-th node, writes the tokens of its string,
    and leaves what the program has beside these as it was. -/
structure NodesBuilt (malloc : NodeMalloc own) (lo hi i c : Nat) (ws : List (List (BitVec 8))) (m m' : Mem) : Prop where
  path : Path (commandArgumentNext m') 0 (commandArgumentNext m' (malloc.ptr c)) (malloc.nodes i ws)
  arguments : (malloc.nodes i ws).map (argumentAt m') = allocated malloc.answers i ws
  own : ∀ a, own a → a < lo ∨ hi < a → m' a = m a
  earlier : ∀ j, j < i → malloc.ptr j ≠ 0 → ∀ a, InNode (malloc.ptr j) a →
    (j = c → a < malloc.ptr c + sizeofArgument) → m' a = m a

/-- Nothing is built: there is no piece left, or no memory. -/
theorem NodesBuilt.nil (hnodes : malloc.nodes i ws = []) (harguments : allocated malloc.answers i ws = [])
    (hnext : commandArgumentNext m' (malloc.ptr c) = 0) (hown : ∀ a, own a → m' a = m a)
    (hearlier : ∀ j, j < i → malloc.ptr j ≠ 0 → ∀ a, InNode (malloc.ptr j) a → m' a = m a) :
    NodesBuilt malloc lo hi i c ws m m' where
  path := by
    rw [hnodes, hnext]
    rfl
  arguments := by rw [hnodes, harguments, List.map_nil]
  own := fun a ha _ => hown a ha
  earlier := fun j hj hptr a ha _ => hearlier j hj hptr a ha

/-- One more node: it is written, and the `c`-th one gets a pointer to it. -/
theorem NodesBuilt.cons {m₁ m₂ m₃ : Mem} (hown : ∀ a, lo ≤ a → a ≤ hi → own a) (hc : c < i) (hptr : malloc.ptr c ≠ 0)
    (hanswer : malloc.ptr i ≠ 0)
    (h₁ : ∀ a, (own a ∨ ∃ j, j < i ∧ malloc.ptr j ≠ 0 ∧ InNode (malloc.ptr j) a) → m₁ a = m a)
    (hargument : argumentAt m₂ (malloc.ptr i) = w.take (sizeofArgument - 1))
    (h₂ : ∀ a, ¬ InNode (malloc.ptr i) a → m₂ a = m₁ a)
    (h₃ : ∀ a, a < lo ∨ hi < a →
      m₃ a = store32 m₂ (malloc.ptr c + sizeofArgument) (BitVec.ofNat 32 (malloc.ptr i)) a)
    (h : NodesBuilt malloc lo hi (i + 1) i ws m₃ m') : NodesBuilt malloc lo hi i c (w :: ws) m m' := by
  have hnode : sizeofCommandArgument = sizeofArgument + 4 := rfl
  -- what an earlier node holds apart from the pointer of the `c`-th one
  have hearlier : ∀ j, j < i → malloc.ptr j ≠ 0 → ∀ a, InNode (malloc.ptr j) a →
      (j = c → a < malloc.ptr c + sizeofArgument) → m₃ a = m a := by
    intro j hj hptrj a ha hlink
    have hapart : a < malloc.ptr c + sizeofArgument ∨ malloc.ptr c + sizeofArgument + 4 ≤ a := by
      by_contra hin
      have hother : j ≠ c := fun heq => hin (Or.inl (hlink heq))
      have hinc : InNode (malloc.ptr c) a := ⟨by omega, by omega⟩
      rcases Nat.lt_or_gt_of_ne hother with hlt | hgt
      · exact malloc.fresh c j hlt hptr hptrj a hinc ha
      · exact malloc.fresh j c hgt hptrj hptr a ha hinc
    rw [h₃ a (malloc.outside hown hptrj ha), store32_of_outside hapart,
      h₂ a fun hin => malloc.fresh i j hj hanswer hptrj a hin ha]
    exact h₁ a (Or.inr ⟨j, hj, hptrj, ha⟩)
  have hlink : commandArgumentNext m' (malloc.ptr c) = malloc.ptr i := by
    have hin : ∀ a, malloc.ptr c + sizeofArgument ≤ a → a < malloc.ptr c + sizeofCommandArgument →
        m' a = store32 m₂ (malloc.ptr c + sizeofArgument) (BitVec.ofNat 32 (malloc.ptr i)) a := by
      intro a hle hge
      have hinc : InNode (malloc.ptr c) a := ⟨by omega, hge⟩
      rw [h.earlier c (by omega) hptr a hinc fun heq => absurd heq (Nat.ne_of_lt hc),
        h₃ a (malloc.outside hown hptr hinc)]
    rw [commandArgumentNext_congr hin]
    show (load32 (store32 m₂ (malloc.ptr c + sizeofArgument) _) (malloc.ptr c + sizeofArgument)).toNat = _
    have hspace : addressSpace = 4294967296 := rfl
    have hinside := malloc.inside i hanswer
    rw [load32_store32, BitVec.toNat_ofNat]
    exact Nat.mod_eq_of_lt (by omega)
  have hnodes : malloc.nodes i (w :: ws) = malloc.ptr i :: malloc.nodes (i + 1) ws := if_neg hanswer
  refine ⟨?_, ?_, fun a ha hout => ?_, fun j hj hptrj a ha hlink' => ?_⟩
  · rw [hnodes, hlink]
    exact ⟨rfl, hanswer, h.path⟩
  · have hsame : argumentAt m' (malloc.ptr i) = argumentAt m₂ (malloc.ptr i) := by
      refine argumentAt_congr_below fun a hle hge => ?_
      have hini : InNode (malloc.ptr i) a := ⟨hle, by omega⟩
      rw [h.earlier i (Nat.lt_succ_self i) hanswer a hini fun _ => hge, h₃ a (malloc.outside hown hanswer hini)]
      refine store32_of_outside ?_
      by_contra hin
      exact malloc.fresh i c hc hanswer hptr a hini ⟨by omega, by omega⟩
    rw [hnodes, List.map_cons, h.arguments, hsame, hargument, allocated, if_pos (NodeMalloc.answers_iff.mpr hanswer)]
  · have hapart : ∀ {j}, malloc.ptr j ≠ 0 → ¬ InNode (malloc.ptr j) a := fun hj hin => malloc.apart _ hj a hin ha
    rw [h.own a ha hout, h₃ a hout, store32_of_outside, h₂ a (hapart hanswer)]
    · exact h₁ a (Or.inl ha)
    · by_contra hin
      exact hapart hptr ⟨by omega, by omega⟩
  · rw [h.earlier j (by omega) hptrj a ha fun heq => absurd heq (Nat.ne_of_lt hj)]
    exact hearlier j hj hptrj a ha hlink'

/-- **The loop** from the `i`-th node on, where the `c`-th one is the last of the list. -/
theorem parseNodes_spec (hown : ∀ a, lo ≤ a → a ≤ hi → own a) (hlo : 0 < lo) (hhi : hi < addressSpace)
    {r : Nat × Mem × Nat} (h : TokenWithin lo hi r ws) (hfuel : ws.length < fuel) (hc : c < i)
    (hptr : malloc.ptr c ≠ 0) (hnext : commandArgumentNext r.2.1 (malloc.ptr c) = 0) :
    ∃ m' sp, parseNodes malloc fuel i r.2.1 r.2.2 (malloc.ptr c) r.1 = some (m', sp) ∧
      NodesBuilt malloc lo hi i c ws r.2.1 m' ∧ ((∀ j, j < ws.length → malloc.ptr (i + j) ≠ 0) → sp = 0) := by
  induction ws generalizing i c fuel r with
  | nil =>
      obtain ⟨fuel, rfl⟩ := Nat.exists_eq_succ_of_ne_zero (Nat.ne_of_gt hfuel)
      cases h with
      | none htoken hsp =>
          unfold parseNodes
          rw [if_pos htoken]
          exact ⟨_, _, rfl, .nil rfl rfl hnext (fun _ _ => rfl) fun _ _ _ _ _ => rfl, fun _ => hsp⟩
  | cons w ws ih =>
      obtain ⟨fuel, rfl⟩ := Nat.exists_eq_succ_of_ne_zero (Nat.ne_of_gt (Nat.lt_of_le_of_lt (Nat.zero_le _) hfuel))
      obtain ⟨token, m, sp⟩ := r
      have hkept := fun a => malloc.kept i m a
      have hwithin : TokenWithin lo hi (token, malloc.memory i m, sp) (w :: ws) :=
        h.congr fun a hle hge => hkept a (Or.inl (hown a hle hge))
      generalize hm₁ : malloc.memory i m = m₁ at hkept hwithin
      unfold parseNodes
      simp only [if_neg (h.ne_null hlo), hm₁]
      by_cases hanswer : malloc.ptr i = 0
      · -- there is no memory for the node
        rw [if_pos hanswer]
        refine ⟨m₁, sp, rfl, .nil ?_ ?_ ?_ (fun a ha => hkept a (Or.inl ha)) fun j hj hp a ha =>
          hkept a (Or.inr ⟨j, hj, hp, ha⟩), fun hall => absurd hanswer (hall 0 (Nat.succ_pos _))⟩
        · exact if_pos hanswer
        · exact if_neg (by rw [NodeMalloc.answers_iff]; exact not_not_intro hanswer)
        · rw [← hnext]
          exact commandArgumentNext_congr fun a hle hge => hkept a (Or.inr ⟨c, hc, hptr, by omega, hge⟩)
      rw [if_neg hanswer]
      obtain ⟨hargument, hlast, hframe⟩ := hwithin.written hown hanswer
      generalize writeNode m₁ (malloc.ptr i) token = m₂ at hargument hlast hframe
      -- the string of `strtok` is beside both nodes
      obtain ⟨token', m₃, sp', hrun, htoken', h₃⟩ := hwithin.next (store32 m₂ (malloc.ptr c + sizeofArgument)
          (BitVec.ofNat 32 (malloc.ptr i))) hlo hhi fun a hle hge => by
        have hnode : sizeofCommandArgument = sizeofArgument + 4 := rfl
        rw [store32_of_outside, hframe a fun hin => malloc.apart i hanswer a hin (hown a hle hge)]
        by_contra hin
        exact malloc.apart c hptr a ⟨by omega, by omega⟩ (hown a hle hge)
      have hlast' : commandArgumentNext m₃ (malloc.ptr i) = 0 := by
        rw [← hlast]
        refine commandArgumentNext_congr fun a hle hge => ?_
        have hini : InNode (malloc.ptr i) a := ⟨Nat.le_trans (Nat.le_add_right _ _) hle, hge⟩
        refine (h₃ a (malloc.outside hown hanswer hini)).trans (store32_of_outside ?_)
        have hnode : sizeofCommandArgument = sizeofArgument + 4 := rfl
        by_contra hin
        exact malloc.fresh i c hc hanswer hptr a hini ⟨by omega, by omega⟩
      obtain ⟨m', sp'', hloop, hbuilt, hzero⟩ := @ih (i + 1) i fuel (token', m₃, sp') htoken'
        (Nat.lt_of_succ_lt_succ hfuel) (Nat.lt_succ_self i) hanswer hlast'
      rw [hrun, Option.bind_some]
      refine ⟨m', sp'', hloop, hbuilt.cons hown hc hptr hanswer hkept hargument hframe h₃, fun hall => ?_⟩
      refine hzero fun j hj => ?_
      rw [Nat.add_assoc, Nat.add_comm 1 j]
      exact hall (j + 1) (Nat.succ_lt_succ hj)

end Nodes

/-! ## The command line -/

/-- The list at `root` has the pieces for which there was memory, and of what the program has beside the nodes, nothing
    but the buffer at `scommand` has changed. -/
structure CommandBuilt (malloc : NodeMalloc own) (scommand : Nat) (ws : List (List (BitVec 8))) (root : Nat)
    (m m' : Mem) : Prop where
  path : Path (commandArgumentNext m') 0 root (malloc.nodes 0 ws)
  arguments : (malloc.nodes 0 ws).map (argumentAt m') = allocated malloc.answers 0 ws
  own : ∀ a, own a → a < scommand ∨ scommand + sizeofScommand ≤ a → m' a = m a

section Command

variable {malloc : NodeMalloc own} {m : Mem} {command buf scommand : Nat} {s : List (BitVec 8)}

/-- **`bimbleos_parse_command`**, where no earlier call has left a place for `strtok` behind. -/
theorem parseCommandNodes_spec (hown : ∀ a, scommand ≤ a → a < scommand + sizeofScommand → own a)
    (hnull : scommand ≠ 0) (hspace : scommand + sizeofScommand ≤ addressSpace) {max : Int}
    (hmax : max < (sizeofScommand : Int)) (h : HoldsString m command s)
    (hapart : scommand + sizeofScommand ≤ command ∨ command + s.length < scommand) :
    ∃ root m' sp, parseCommandNodes malloc command max scommand m 0 = some (root, m', sp) ∧
      CommandBuilt malloc scommand (pieces (s.take (sizeofScommand - 1))) root m m' ∧
      ((∀ j, j < (pieces (s.take (sizeofScommand - 1))).length → malloc.ptr j ≠ 0) → sp = 0) := by
  have hpos : 0 < sizeofScommand := by decide
  obtain ⟨hstring, hcopied⟩ := @strncpy_string m s scommand command _ hpos h hapart
  unfold parseCommandNodes
  rw [if_neg (by omega)]
  dsimp only
  generalize strncpy m scommand command sizeofScommand = m₀ at hstring hcopied
  have hlen : (s.take (sizeofScommand - 1)).length ≤ sizeofScommand - 1 := List.length_take_le ..
  generalize s.take (sizeofScommand - 1) = text at hstring hlen
  -- the string of `strtok` lies in the buffer
  have hin : ∀ a, scommand ≤ a → a ≤ scommand + (sizeofScommand - 1) → own a := fun a hle hge => hown a hle (by omega)
  have hout : ∀ a, a < scommand ∨ scommand + sizeofScommand ≤ a → a < scommand ∨ scommand + (sizeofScommand - 1) < a :=
    fun a ha => by omega
  obtain ⟨⟨token, m₁, sp⟩, hrun, htoken, h₁⟩ := @strtok_within m₀ scommand scommand
    (scommand + (sizeofScommand - 1)) scommand 0 text (Nat.pos_of_ne_zero hnull) (Nat.le_refl scommand) (by omega)
    (by omega) (Or.inl ⟨rfl, rfl⟩) hstring
  have hcount := @length_pieces text
  rw [hrun, Option.bind_some]
  dsimp only
  change ∀ a, _ → m₁ a = _ at h₁
  generalize pieces text = ws at htoken hcount ⊢
  cases htoken with
  | none htoken hnone =>
      rw [if_pos htoken]
      exact ⟨0, m₁, sp, rfl, ⟨rfl, rfl, fun a _ hout' => (h₁ a (hout a hout')).trans (hcopied a hout')⟩, fun _ => hnone⟩
  | @some w rest hle hge hword hsp hleft hrest =>
  have htoken : TokenWithin scommand (scommand + (sizeofScommand - 1)) (token, m₁, sp) (w :: pieces rest) :=
    .some hle hge hword hsp hleft hrest
  have hkept : ∀ a, own a → malloc.memory 0 m₁ a = m₁ a := fun a ha => malloc.kept 0 m₁ a (Or.inl ha)
  have hwithin : TokenWithin scommand (scommand + (sizeofScommand - 1)) (token, malloc.memory 0 m₁, sp)
      (w :: pieces rest) := htoken.congr fun a hle hge => hkept a (hin a hle hge)
  generalize malloc.memory 0 m₁ = m₂ at hkept hwithin
  have hsame : ∀ a, own a → a < scommand ∨ scommand + sizeofScommand ≤ a → m₂ a = m a := fun a ha hout' =>
    ((hkept a ha).trans (h₁ a (hout a hout'))).trans (hcopied a hout')
  rw [if_neg (htoken.ne_null (Nat.pos_of_ne_zero hnull))]
  by_cases hanswer : malloc.ptr 0 = 0
  · rw [if_pos hanswer]
    have hnodes : malloc.nodes 0 (w :: pieces rest) = [] := if_pos hanswer
    have harguments : allocated malloc.answers 0 (w :: pieces rest) = [] :=
      if_neg (by rw [NodeMalloc.answers_iff]; exact not_not_intro hanswer)
    refine ⟨0, m₂, sp, rfl, ⟨?_, ?_, hsame⟩, fun hall => absurd hanswer (hall 0 (Nat.succ_pos _))⟩
    · rw [hnodes]
      rfl
    · rw [hnodes, harguments, List.map_nil]
  rw [if_neg hanswer]
  obtain ⟨hargument, hlast, hframe⟩ := hwithin.written hin hanswer
  generalize writeNode m₂ (malloc.ptr 0) token = m₃ at hargument hlast hframe
  obtain ⟨token', m₄, sp', hrun', htoken', h₄⟩ := hwithin.next m₃ (Nat.pos_of_ne_zero hnull) (by omega)
    fun a hle hge => hframe a fun hnode => malloc.apart 0 hanswer a hnode (hin a hle hge)
  have h₄' : ∀ a, InNode (malloc.ptr 0) a → m₄ a = m₃ a := fun a ha => h₄ a (malloc.outside hin hanswer ha)
  have hlast' : commandArgumentNext m₄ (malloc.ptr 0) = 0 :=
    (commandArgumentNext_congr fun a hle hge => h₄' a ⟨by omega, hge⟩).trans hlast
  have hshort : (pieces rest).length < addressSpace := by
    rw [List.length_cons] at hcount
    have hsize : sizeofScommand < addressSpace := by decide
    omega
  obtain ⟨m', sp'', hloop, hbuilt, hzero⟩ :=
    parseNodes_spec (i := 1) (c := 0) hin (Nat.pos_of_ne_zero hnull) (by omega) htoken'
    hshort Nat.zero_lt_one hanswer hlast'
  rw [hrun', Option.bind_some]
  dsimp only at hloop ⊢
  rw [hloop]
  have hnodes : malloc.nodes 0 (w :: pieces rest) = malloc.ptr 0 :: malloc.nodes 1 (pieces rest) := if_neg hanswer
  refine ⟨malloc.ptr 0, m', sp'', rfl, ⟨?_, ?_, fun a ha hout' => ?_⟩, fun hall => hzero fun j hj => ?_⟩
  · rw [hnodes]
    exact ⟨rfl, hanswer, hbuilt.path⟩
  · have hfirst : argumentAt m' (malloc.ptr 0) = argumentAt m₃ (malloc.ptr 0) := by
      refine argumentAt_congr_below fun a hle hge => ?_
      have hsize : sizeofCommandArgument = sizeofArgument + 4 := rfl
      have hnode : InNode (malloc.ptr 0) a := ⟨hle, by omega⟩
      exact (hbuilt.earlier 0 Nat.zero_lt_one hanswer a hnode fun _ => hge).trans (h₄' a hnode)
    rw [hnodes, List.map_cons, hbuilt.arguments, hfirst, hargument, allocated,
      if_pos (NodeMalloc.answers_iff.mpr hanswer)]
  · have hbeside : a < scommand ∨ scommand + (sizeofScommand - 1) < a := hout a hout'
    exact (((hbuilt.own a ha hbeside).trans (h₄ a hbeside)).trans
      (hframe a fun hnode => malloc.apart 0 hanswer a hnode ha)).trans (hsame a ha hout')
  · rw [Nat.add_comm 1 j]
    exact hall (j + 1) (Nat.succ_lt_succ hj)

/-- **`bimbleos_system_run`**: it hands the list of the pieces of the command over, and fails where there is none. -/
theorem bimbleosSystemRun_spec (hown : ∀ a, scommand ≤ a → a < scommand + sizeofScommand → own a)
    (hnull : scommand ≠ 0) (hspace : scommand + sizeofScommand ≤ addressSpace) (h : HoldsString m command s)
    (hbuf : buf + sizeofBuf ≤ command ∨ command + s.length < buf)
    (hbeside : scommand + sizeofScommand ≤ buf ∨ buf + sizeofBuf ≤ scommand) :
    ∃ root m' sp, bimbleosSystemRun malloc command buf scommand m 0
        = some (if root = 0 then (.error (-1), m', sp) else (.ok root, m', sp)) ∧
      CommandBuilt malloc scommand (pieces (s.take (sizeofBuf - 1))) root (strncpy m buf command sizeofBuf) m' ∧
      ((∀ j, j < (pieces (s.take (sizeofBuf - 1))).length → malloc.ptr j ≠ 0) → sp = 0) := by
  have hpos : 0 < sizeofBuf := by decide
  obtain ⟨hstring, _⟩ := @strncpy_string m s buf command _ hpos h hbuf
  have hlen : (s.take (sizeofBuf - 1)).length ≤ sizeofBuf - 1 := List.length_take_le ..
  obtain ⟨root, m', sp, hrun, hbuilt, hzero⟩ := @parseCommandNodes_spec own malloc _ buf scommand _ hown hnull hspace _
    (by decide : ((sizeofBuf : Nat) : Int) < (sizeofScommand : Int)) hstring (by omega)
  have htake : (s.take (sizeofBuf - 1)).take (sizeofScommand - 1) = s.take (sizeofBuf - 1) :=
    List.take_of_length_le (Nat.le_trans hlen (by decide))
  rw [htake] at hbuilt hzero
  refine ⟨root, m', sp, ?_, hbuilt, hzero⟩
  unfold bimbleosSystemRun
  dsimp only
  rw [hrun]
  rfl

/-- The list is empty exactly when the pointer is null. -/
theorem CommandBuilt.root_iff {scommand root : Nat} {ws : List (List (BitVec 8))} {m m' : Mem}
    (h : CommandBuilt malloc scommand ws root m m') : root = 0 ↔ allocated malloc.answers 0 ws = [] := by
  have hpath := h.path
  rw [← h.arguments, List.map_eq_nil_iff]
  generalize malloc.nodes 0 ws = nodes at hpath
  cases nodes with
  | nil => exact iff_of_true hpath rfl
  | cons n nodes =>
      obtain ⟨rfl, hne, _⟩ := hpath
      exact iff_of_false hne (List.cons_ne_nil _ _)

end Command

end BimbleOS.Stdlib
