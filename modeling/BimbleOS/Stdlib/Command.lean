import BimbleOS.Stdlib.Strtok

/-!
# `Stdlib.Command` — command lines in `programs/stdlib/src/bimbleos.c`

`bimbleos_parse_command` copies the command line into a buffer on its stack, cuts it into tokens with
`strtok`, and makes a list of the tokens. The list is a Lean list here; each `malloc` of a node is an answer
of an oracle. What survives a call is only the place that `strtok` keeps. A call that runs out of memory
leaves it inside its own buffer, and the next call takes up from there; as long as no call but the last runs
out of memory, every call works on its own command (`parseRun_outcomes`).
-/

namespace BimbleOS.Stdlib

open Bytes

/-- `sizeof(scommand)`. -/
def sizeofScommand : Nat := 1025

/-- `sizeof(argument)` of a `struct CommandArgument`. -/
def sizeofArgument : Nat := 512

/-- A call of `bimbleos_parse_command`: its arguments, where its buffer `scommand` lies on the stack, what
    memory holds, and which of its calls of `malloc` are answered. -/
structure CommandCall where
  command : List (BitVec 8)
  max : Int
  scommand : Nat
  memory : Mem
  malloc : Nat → Bool
  /-- The command is a C string of less than 1024 characters. -/
  noZero : ∀ c ∈ command, c ≠ 0
  short : command.length < 1024
  /-- The address of an array is not null. -/
  notNull : scommand ≠ 0

/-- `strncpy(node->argument, token, sizeof(node->argument))`: the string that the node holds. -/
def copyArgument (m : Mem) (token : Nat) : List (BitVec 8) := stringAt m token (sizeofArgument - 1)

/-- The loop of `bimbleos_parse_command` from the `i`-th node on: the arguments of the nodes that it adds to
    the list, and `sp`. -/
def parseLoop (malloc : Nat → Bool) : Nat → Nat → Mem → Nat → Nat → Option (List (List (BitVec 8)) × Nat)
  | 0, _, _, _, _ => none
  | fuel + 1, i, m, sp, token =>
      if token = 0 then some ([], sp)
      else if !malloc i then some ([], sp)
      else
        let argument := copyArgument m token
        (strtok 0 [0x20] m sp).bind fun (token, m, sp) =>
          (parseLoop malloc fuel (i + 1) m sp token).map fun (arguments, sp) => (argument :: arguments, sp)

/-- `bimbleos_parse_command`: the arguments in the list that it returns, or `none` for a null pointer; and
    `sp`. -/
def bimbleosParseCommand (call : CommandCall) (sp : Nat) : Option (Option (List (List (BitVec 8))) × Nat) :=
  if (sizeofScommand : Int) ≤ call.max then some (none, sp)
  else
    let m := storeBytes call.memory call.scommand (strncpyBytes call.command sizeofScommand)
    (strtok call.scommand [0x20] m sp).bind fun (token, m, sp) =>
      if token = 0 then some (none, sp)
      else if !call.malloc 0 then some (none, sp)
      else
        let argument := copyArgument m token
        (strtok 0 [0x20] m sp).bind fun (token, m, sp) =>
          (parseLoop call.malloc addressSpace 1 m sp token).map fun (arguments, sp) =>
            (some (argument :: arguments), sp)

/-- The calls of a program, one after the other: what they return, and `sp`. -/
def parseRun : Nat → List CommandCall → Option (List (Option (List (List (BitVec 8)))) × Nat)
  | sp, [] => some ([], sp)
  | sp, call :: calls =>
      (bimbleosParseCommand call sp).bind fun (result, sp) =>
        (parseRun sp calls).map fun (results, sp) => (result :: results, sp)

/-! ## What a call returns -/

/-- The pieces for which there is memory, from the `i`-th node on, each cut to 511 characters. -/
def allocated (malloc : Nat → Bool) : Nat → List (List (BitVec 8)) → List (List (BitVec 8))
  | _, [] => []
  | i, w :: ws => if malloc i then w.take (sizeofArgument - 1) :: allocated malloc (i + 1) ws else []

/-- What a call should return. It is a function of the call alone. -/
def CommandCall.outcome (call : CommandCall) : Option (List (List (BitVec 8))) :=
  if (sizeofScommand : Int) ≤ call.max then none
  else
    match allocated call.malloc 0 (pieces call.command) with
    | [] => none
    | argument :: arguments => some (argument :: arguments)

/-- The call is refused, or there is memory for all its pieces. -/
def CommandCall.AllocatesAll (call : CommandCall) : Prop :=
  (sizeofScommand : Int) ≤ call.max ∨ ∀ i, i < (pieces call.command).length → call.malloc i = true

section Calls

variable {malloc : Nat → Bool} {ws : List (List (BitVec 8))} {i fuel : Nat} {m : Mem} {s : List (BitVec 8)}

/-- The arguments are the first pieces of the command, each cut. -/
theorem allocated_initial :
    ∃ n, n ≤ ws.length ∧ allocated malloc i ws = (ws.take n).map fun w => w.take (sizeofArgument - 1) := by
  induction ws generalizing i with
  | nil => exact ⟨0, Nat.le_refl 0, rfl⟩
  | cons w ws ih =>
      unfold allocated
      split
      · obtain ⟨n, hn, heq⟩ := @ih (i + 1)
        refine ⟨n + 1, Nat.succ_le_succ hn, ?_⟩
        rw [heq, List.take_succ_cons, List.map_cons]
      · exact ⟨0, Nat.zero_le _, rfl⟩

theorem length_pieces : (pieces s).length ≤ s.length + 1 := by
  have hsplit : ∀ t : List (BitVec 8), (t.splitOn 0x20).length ≤ t.length + 1 := by
    intro t
    induction t with
    | nil => exact Nat.le_refl 1
    | cons c t ih =>
        rw [List.splitOn_cons_eq_if_modifyHead]
        split
        · simpa using ih
        · rw [List.length_modifyHead, List.length_cons]
          omega
  exact Nat.le_trans (List.length_filter_le _ _) (hsplit s)

/-- **The loop** over the tokens of a string, from the first of them on. The induction is on the pieces that
    are left; `sp` is null at the end unless memory runs out. -/
theorem parseLoop_spec {r : Nat × Mem × Nat} (h : TokenOf r ws) (hfuel : ws.length < fuel) :
    ∃ sp, parseLoop malloc fuel i r.2.1 r.2.2 r.1 = some (allocated malloc i ws, sp) ∧
      ((∀ j, j < ws.length → malloc (i + j) = true) → sp = 0) := by
  induction ws generalizing i fuel r with
  | nil =>
      obtain ⟨fuel, rfl⟩ := Nat.exists_eq_succ_of_ne_zero (Nat.ne_of_gt hfuel)
      cases h with
      | none htoken hsp =>
          unfold parseLoop
          rw [if_pos htoken]
          exact ⟨r.2.2, rfl, fun _ => hsp⟩
  | cons w ws ih =>
      obtain ⟨fuel, rfl⟩ := Nat.exists_eq_succ_of_ne_zero (Nat.ne_of_gt (Nat.lt_of_le_of_lt (Nat.zero_le _) hfuel))
      generalize hall : w :: ws = all at h
      cases h with
      | none => cases hall
      | @some w rest htoken hsp hword hrest hlen =>
          cases hall
          unfold parseLoop
          rw [if_neg htoken]
          by_cases hmalloc : malloc i = true
          · have hnot : ¬ (!malloc i) = true := by simp [hmalloc]
            have hargument : copyArgument r.2.1 r.1 = w.take (sizeofArgument - 1) := hword.stringAt
            obtain ⟨⟨token, m', place⟩, hnext, htokens⟩ := strtok_next hsp hrest hlen
            obtain ⟨sp, hrun, hzero⟩ := @ih (i + 1) fuel _ htokens (Nat.lt_of_succ_lt_succ hfuel)
            rw [if_neg hnot, hargument, hnext, allocated, if_pos hmalloc]
            refine ⟨sp, ?_, fun hmallocs => hzero fun j hj => ?_⟩
            · exact congrArg (Option.map fun q => (w.take (sizeofArgument - 1) :: q.1, q.2)) hrun
            · rw [Nat.add_assoc, Nat.add_comm 1 j]
              exact hmallocs (j + 1) (Nat.succ_lt_succ hj)
          · rw [if_pos (by simpa using hmalloc), allocated, if_neg hmalloc]
            refine ⟨r.2.2, rfl, fun hmallocs => absurd (hmallocs 0 (Nat.succ_pos _)) hmalloc⟩

/-- **A call that starts afresh** returns what it should. It leaves `sp` null unless memory runs out. -/
theorem bimbleosParseCommand_spec (call : CommandCall) : ∃ sp,
    bimbleosParseCommand call 0 = some (call.outcome, sp) ∧ (call.AllocatesAll → sp = 0) := by
  unfold bimbleosParseCommand CommandCall.outcome CommandCall.AllocatesAll
  by_cases hmax : (sizeofScommand : Int) ≤ call.max
  · rw [if_pos hmax, if_pos hmax]
    exact ⟨0, rfl, fun _ => rfl⟩
  rw [if_neg hmax, if_neg hmax, or_iff_right hmax]
  have hshort := call.short
  have hstring := HoldsString.store (m := call.memory) (a := call.scommand) call.noZero
  have hwhole : call.command.length < sizeofScommand := by unfold sizeofScommand; omega
  rw [← strncpyBytes_short call.noZero hwhole] at hstring
  obtain ⟨⟨first, m, place⟩, hfirst, htokens⟩ := strtok_first call.notNull hstring (by unfold addressSpace; omega)
  have hcount := @length_pieces call.command
  dsimp only
  rw [hfirst, Option.bind_some]
  dsimp only
  generalize pieces call.command = ws at htokens hcount
  cases htokens with
  | none htoken hsp =>
      have hnull : first = 0 := htoken
      rw [if_pos hnull]
      exact ⟨place, rfl, fun _ => hsp⟩
  | @some w rest htoken hsp hword hrest hlen =>
      have hne : ¬ first = 0 := htoken
      rw [if_neg hne]
      by_cases hmalloc : call.malloc 0 = true
      · have hnot : ¬ (!call.malloc 0) = true := by simp [hmalloc]
        have hargument : copyArgument m first = w.take (sizeofArgument - 1) := hword.stringAt
        obtain ⟨⟨token, m', place'⟩, hnext, htokens⟩ := strtok_next hsp hrest hlen
        rw [List.length_cons] at hcount
        obtain ⟨sp, hrun, hzero⟩ := @parseLoop_spec call.malloc (pieces rest) 1 addressSpace _ htokens
          (by unfold addressSpace; omega)
        rw [if_neg hnot, hargument, hnext, allocated, if_pos hmalloc]
        refine ⟨sp, ?_, fun hmallocs => hzero fun j hj => ?_⟩
        · exact congrArg (Option.map fun q => (some (w.take (sizeofArgument - 1) :: q.1), q.2)) hrun
        · rw [Nat.add_comm 1 j]
          exact hmallocs (j + 1) (Nat.succ_lt_succ hj)
      · rw [if_pos (by simpa using hmalloc), allocated, if_neg hmalloc]
        exact ⟨place, rfl, fun hmallocs => absurd (hmallocs 0 (Nat.succ_pos _)) hmalloc⟩

/-- What a call should return is null, or a list of the first pieces of its own command. -/
theorem CommandCall.outcome_pieces (call : CommandCall) : call.outcome = none ∨
    ∃ n, n ≤ (pieces call.command).length ∧
      call.outcome = some (((pieces call.command).take n).map fun w => w.take 511) := by
  obtain ⟨n, hn, heq⟩ := @allocated_initial call.malloc (pieces call.command) 0
  unfold CommandCall.outcome
  split
  · exact Or.inl rfl
  · split
    · exact Or.inl rfl
    · next argument arguments hargs =>
      refine Or.inr ⟨n, hn, ?_⟩
      rw [← hargs, heq]
      rfl

end Calls

/-- **Every call works on its own command** in a run in which only the last call may run out of memory. What
    the calls return depends on nothing but each call itself. -/
theorem parseRun_outcomes (calls : List CommandCall) (h : ∀ call ∈ calls.dropLast, call.AllocatesAll) :
    (∃ sp, parseRun 0 calls = some (calls.map CommandCall.outcome, sp)) ∧
      ∀ call ∈ calls, call.outcome = none ∨ ∃ n, n ≤ (pieces call.command).length ∧
        call.outcome = some (((pieces call.command).take n).map fun w => w.take 511) := by
  refine ⟨?_, fun call _ => call.outcome_pieces⟩
  induction calls with
  | nil => exact ⟨0, rfl⟩
  | cons call calls ih =>
      obtain ⟨sp, hcall, hzero⟩ := bimbleosParseCommand_spec call
      rw [parseRun, hcall, Option.bind_some]
      cases calls with
      | nil => exact ⟨sp, rfl⟩
      | cons call' calls =>
          rw [List.dropLast_cons_cons] at h
          have hsp : sp = 0 := hzero (h call List.mem_cons_self)
          obtain ⟨sp', hrest⟩ := ih fun c hc => h c (List.mem_cons_of_mem _ hc)
          rw [hsp]
          exact ⟨sp', congrArg (Option.map fun q => (call.outcome :: q.1, q.2)) hrest⟩

/-- The command `a`, for which there is no memory. -/
def starvedCall : CommandCall where
  command := [0x61]
  max := 1024
  scommand := 0x3FE000
  memory := fun _ => 0
  malloc := fun _ => false
  noZero := by decide
  short := by decide
  notNull := by decide

/-- The command `bc`, with its buffer at the same place. -/
def nextCall : CommandCall where
  command := [0x62, 0x63]
  max := 1024
  scommand := 0x3FE000
  memory := fun _ => 0
  malloc := fun _ => true
  noZero := by decide
  short := by decide
  notNull := by decide

theorem nextCall_allocates : nextCall.AllocatesAll := Or.inr fun _ _ => rfl

theorem parseRun_outcomes_next :
    (∃ sp, parseRun 0 [nextCall, starvedCall] = some ([nextCall, starvedCall].map CommandCall.outcome, sp)) ∧
      ∀ call ∈ [nextCall, starvedCall], call.outcome = none ∨ ∃ n, n ≤ (pieces call.command).length ∧
        call.outcome = some (((pieces call.command).take n).map fun w => w.take 511) :=
  parseRun_outcomes [nextCall, starvedCall] fun _ hmem =>
    List.mem_singleton.mp hmem ▸ nextCall_allocates

/-- After a call that ran out of memory, the next one starts behind its own first character. -/
theorem parseRun_stale : parseRun 0 [starvedCall, nextCall] = some ([none, some [[0x63]]], 0) := by
  decide +kernel

/-- A call that runs out of memory spoils the next one. -/
theorem parseRun_depends_on_earlier : ¬ ∀ calls : List CommandCall, ∃ results sp,
    parseRun 0 calls = some (results, sp) ∧ ∀ (i : Nat) (result : Option (List (List (BitVec 8))))
      (call : CommandCall), results[i]? = some result → calls[i]? = some call → result = none ∨
        ∃ n, n ≤ (pieces call.command).length ∧
          result = some (((pieces call.command).take n).map fun w => w.take 511) := by
  intro h
  obtain ⟨results, sp, hrun, hall⟩ := h [starvedCall, nextCall]
  have hresults : results = [none, some [[0x63]]] :=
    (Prod.mk.inj (Option.some.inj (hrun.symm.trans parseRun_stale))).1
  have hpieces : pieces nextCall.command = [[0x62, 0x63]] := by decide
  rcases hall 1 (some [[0x63]]) nextCall (by rw [hresults]; rfl) rfl with hnone | ⟨n, hn, hsome⟩
  · cases hnone
  · rw [hpieces] at hn hsome
    have hcases : n = 0 ∨ n = 1 := by
      rw [List.length_singleton] at hn
      omega
    rcases hcases with rfl | rfl
    · exact absurd hsome (by decide)
    · exact absurd hsome (by decide)

end BimbleOS.Stdlib
