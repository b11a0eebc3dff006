import BimbleOS.Lib.Format
import BimbleOS.Stdlib.Itoa
import BimbleOS.Stdlib.Strtok

/-!
# `Stdlib.Printf` — `printf` in `programs/stdlib/src/stdio.c`

`printf` goes through the format with one pointer, which a conversion moves on in the `switch` and once more in the
loop's header. Behind a `%` in the last position the second step goes over the zero that ends the format. So `printf`
stays in its format, and prints what the format stands for, exactly when the format ends in an even number of `%`
(`printf_iff`).
-/

namespace BimbleOS.Stdlib

open Bytes Decimal Format

def percentChar : BitVec 8 := 0x25
def intChar : BitVec 8 := 0x69
def stringChar : BitVec 8 := 0x73

/-- What a program asks the kernel to show: a character by system call 3, or a string by system call 1. -/
inductive ConsoleCall
  | putchar (c : BitVec 8)
  | print (s : List (BitVec 8))
deriving DecidableEq

def ConsoleCall.text : ConsoleCall → List (BitVec 8)
  | putchar c => [c]
  | print s => s

/-- What `printf` works on: memory, with the places where `p` has read the format, the arguments that `ap` has not
    come to, and the calls so far. -/
structure Printing where
  format : Access
  ap : List (BitVec 32)
  calls : List ConsoleCall := []

namespace Printing

/-- Everything that was handed over. -/
def shown (st : Printing) : List (BitVec 8) := st.calls.flatMap ConsoleCall.text

/-- `*p`. -/
def read (p : Nat) (st : Printing) : Printing := { st with format := st.format.touch p }

def putchar (c : BitVec 8) (st : Printing) : Printing := { st with calls := st.calls ++ [.putchar c] }

end Printing

/-- The string at `a`, with `left` bytes to the end of the address space. -/
def stringFrom (m : Mem) : Nat → Nat → List (BitVec 8)
  | 0, _ => []
  | left + 1, a => if m a = 0 then [] else m a :: stringFrom m left (a + 1)

def Printing.print (a : Nat) (st : Printing) : Printing :=
  { st with calls := st.calls ++ [.print (stringFrom st.format.memory (addressSpace - a) a)] }

/-- `va_arg`, for an argument of one word. There is none behind the last one. -/
def vaArg (st : Printing) : Option (BitVec 32 × Printing) :=
  match st.ap with
  | [] => none
  | value :: ap => some (value, { st with ap := ap })

/-- The `switch` of `printf`; `text` is the static buffer of `itoa`. -/
def printfConversion (text : Nat) (c : BitVec 8) (st : Printing) : Option Printing :=
  if c = intChar then
    (vaArg st).map fun (ival, st) =>
      let str := itoa text ival.toInt ⟨st.format.memory, []⟩
      { st with format := { st.format with memory := str.2.memory } }.print str.1
  else if c = stringChar then (vaArg st).map fun (sval, st) => st.print sval.toNat
  else some st

/-- The loop of `printf` from `p` on; `none` if there is an argument too few. -/
def printfLoop (text : Nat) : Nat → Nat → Printing → Option Printing
  | 0, _, _ => none
  | left + 1, p, st =>
      let st := st.read p
      let c := st.format.memory p
      if c = 0 then some st
      else if c ≠ percentChar then printfLoop text left (p + 1) (st.putchar c)
      else
        let st := st.read (p + 1)
        (printfConversion text (st.format.memory (p + 1)) st).bind fun st => printfLoop text left (p + 1 + 1) st

/-- `printf`, and the 0 that it returns. A round takes a byte of memory at least. -/
def printf (text fmt : Nat) (args : List (BitVec 32)) (m : Mem) : Option (Int × Printing) :=
  (printfLoop text addressSpace fmt { format := { memory := m }, ap := args }).map fun st => (0, st)

/-! ## What a format stands for -/

/-- There is a string at `a`. -/
def StringIn (m : Mem) (a : Nat) : Prop := ∃ s, HoldsString m a s ∧ a + s.length < addressSpace

/-- There is an argument for each conversion, and it is of the conversion's type. There may be more arguments. -/
inductive Matching (m : Mem) : List (Directive (BitVec 8)) → List (BitVec 32) → Prop
  | nil {args} : Matching m [] args
  | plain {c ds args} : Matching m ds args → Matching m (.plain c :: ds) args
  | int {ival ds args} : Matching m ds args → Matching m (.conversion intChar :: ds) (ival :: args)
  | string {sval ds args} : StringIn m sval.toNat → Matching m ds args →
      Matching m (.conversion stringChar :: ds) (sval :: args)
  | unknown {c ds args} : c ≠ intChar → c ≠ stringChar → Matching m ds args → Matching m (.conversion c :: ds) args

/-- With these arguments the format stands for this text: each conversion for its argument's, an unknown one for none.
    A string is taken as it is in its turn; the conversions of numbers before it may have written to it, if it is in
    the static buffer of `itoa`. -/
inductive Formatted (text : Nat) : Mem → List (Directive (BitVec 8)) → List (BitVec 32) → List (BitVec 8) → Prop
  | nil {m args} : Formatted text m [] args []
  | plain {m c ds args out} : Formatted text m ds args out → Formatted text m (.plain c :: ds) args (c :: out)
  | int {m ival ds args out} : Formatted text (itoa text ival.toInt ⟨m, []⟩).2.memory ds args out →
      Formatted text m (.conversion intChar :: ds) (ival :: args) (decimalText ival.toInt ++ out)
  | string {m sval s ds args out} : HoldsString m sval.toNat s → sval.toNat + s.length < addressSpace →
      Formatted text m ds args out → Formatted text m (.conversion stringChar :: ds) (sval :: args) (s ++ out)
  | unknown {m c ds args out} : c ≠ intChar → c ≠ stringChar → Formatted text m ds args out →
      Formatted text m (.conversion c :: ds) args out

/-- A call of `printf`: the format is in memory, and beside the static buffer `text` if `printf` is to
    write there; the arguments match. -/
structure PrintfCall (text fmt : Nat) (args : List (BitVec 32)) (m : Mem) (s : List (BitVec 8)) : Prop where
  format : HoldsString m fmt s
  inside : fmt + s.length < addressSpace
  buffer : text + 12 ≤ addressSpace
  apart : .conversion intChar ∈ directives percentChar s → fmt + s.length < text ∨ text + 12 ≤ fmt
  arguments : Matching m (directives percentChar s) args

/-- A call comes to its end, has read the format up to its zero at most, and has handed over what the format stands
    for. -/
def PrintsFormat (text fmt : Nat) (args : List (BitVec 32)) (m : Mem) (s : List (BitVec 8)) : Prop :=
  ∃ st, printf text fmt args m = some (0, st) ∧ st.format.Within fmt (fmt + s.length) ∧
    Formatted text m (directives percentChar s) args st.shown

section Conversions

variable {m m' : Mem} {text a p left : Nat} {c : BitVec 8} {s out : List (BitVec 8)} {args : List (BitVec 32)}
  {ds : List (Directive (BitVec 8))} {st st' : Printing}

theorem stringFrom_eq (h : HoldsString m a s) (hle : s.length ≤ left) : stringFrom m left a = s := by
  induction s generalizing a left with
  | nil =>
      cases left with
      | zero => rfl
      | succ left => exact if_pos h
  | cons c s ih =>
      obtain ⟨hc, hne, hrest⟩ := h
      rw [List.length_cons] at hle
      obtain ⟨left, rfl⟩ := Nat.exists_eq_succ_of_ne_zero (show left ≠ 0 by omega)
      rw [stringFrom, hc, if_neg hne, ih hrest (by omega)]

theorem shown_putchar : (st.putchar c).shown = st.shown ++ [c] := List.flatMap_append

/-- A string is handed over as a whole. -/
theorem shown_print (h : HoldsString st.format.memory a s) (hin : a + s.length < addressSpace) :
    (st.print a).shown = st.shown ++ s := by
  have hread : stringFrom st.format.memory (addressSpace - a) a = s := stringFrom_eq h (by omega)
  unfold Printing.print Printing.shown
  rw [hread, List.flatMap_append]
  exact congrArg _ (List.append_nil s)

/-- One conversion: it prints its piece of the text, and leaves memory alone but for the buffer of `itoa`, to which only
    `%i` writes. -/
theorem printfConversion_spec (htext : text + 12 ≤ addressSpace)
    (h : Formatted text st.format.memory (.conversion c :: ds) st.ap out) :
    ∃ st' piece rest, printfConversion text c st = some st' ∧ st'.shown = st.shown ++ piece ∧ out = piece ++ rest ∧
      Formatted text st'.format.memory ds st'.ap rest ∧ st'.format.touched = st.format.touched ∧
      ∀ a, (c = intChar → a < text ∨ text + 12 ≤ a) → st'.format.memory a = st.format.memory a := by
  obtain ⟨format, ap, calls⟩ := st
  dsimp only at h
  unfold printfConversion
  cases h with
  | @int _ ival _ args rest hrest =>
      obtain ⟨hholds, hend⟩ := @itoa_holds text format.memory ival
      have hin : (itoa text ival.toInt ⟨format.memory, []⟩).1 + (decimalText ival.toInt).length < addressSpace := by
        omega
      refine ⟨_, decimalText ival.toInt, rest, if_pos rfl, ?_, rfl, hrest, rfl, fun a ha => itoa_beside ival (ha rfl)⟩
      exact shown_print hholds hin
  | @string _ sval s _ args rest hs hin hrest =>
      refine ⟨_, s, rest, (if_neg (by decide)).trans (if_pos rfl), ?_, rfl, hrest, rfl, fun _ _ => rfl⟩
      exact shown_print hs hin
  | unknown hint hstring hrest =>
      refine ⟨_, [], out, (if_neg hint).trans (if_neg hstring), ?_, rfl, hrest, rfl, fun _ _ => rfl⟩
      exact (List.append_nil _).symm

end Conversions

/-! ## The loop -/

section Loop

variable {m : Mem} {text p lo hi left : Nat} {c : BitVec 8} {s out : List (BitVec 8)} {st st' : Printing}

theorem printfLoop_plain (hc : st.format.memory p = c) (hne : c ≠ 0) (hplain : c ≠ percentChar) :
    printfLoop text (left + 1) p st = printfLoop text left (p + 1) ((st.read p).putchar c) := by
  subst hc
  exact (if_neg hne).trans (if_pos hplain)

theorem printfLoop_percent (hc : st.format.memory p = percentChar) :
    printfLoop text (left + 1) p st = (printfConversion text (st.format.memory (p + 1)) ((st.read p).read (p + 1))).bind
      fun st => printfLoop text left (p + 1 + 1) st := by
  have hmem : (st.read p).format.memory p = percentChar := hc
  rw [printfLoop]
  dsimp only
  rw [hmem, if_neg (by decide), if_neg (by decide)]
  rfl

/-- **The loop comes to the end of its format**, or to the place behind that if a `%` is left over. On the way it reads
    the format only, and hands over what the format stands for. The induction is on the format, conversion by
    conversion. -/
theorem printfLoop_scan (htext : text + 12 ≤ addressSpace) (hformat : HoldsString st.format.memory p s)
    (hleft : s.length < left)
    (hapart : .conversion intChar ∈ directives percentChar s → p + s.length < text ∨ text + 12 ≤ p)
    (hout : Formatted text st.format.memory (directives percentChar s) st.ap out)
    (hwithin : st.format.Within lo hi) (hlo : lo ≤ p) (hhi : p + s.length = hi) :
    ∃ left' st', printfLoop text left p st
        = printfLoop text (left' + 1) (hi + escapesAtEnd percentChar s % 2) st' ∧
      st'.shown = st.shown ++ out ∧ st'.format.Within lo hi ∧ st'.format.memory hi = 0 := by
  induction s using format_induction percentChar generalizing left p st out with
  | nil =>
      cases hout
      obtain ⟨left, rfl⟩ := Nat.exists_eq_succ_of_ne_zero (Nat.ne_of_gt hleft)
      subst hhi
      exact ⟨left, st, rfl, (List.append_nil _).symm, hwithin, hformat⟩
  | last =>
      cases hout
      obtain ⟨hpercent, -, hend⟩ := hformat
      obtain ⟨left, rfl⟩ := Nat.exists_eq_add_of_lt hleft
      subst hhi
      -- the character behind the `%` is the zero, which is dropped as an unknown conversion
      have hzero : printfConversion text (st.format.memory (p + 1)) ((st.read p).read (p + 1))
          = some ((st.read p).read (p + 1)) := by
        rw [hend]
        rfl
      refine ⟨left, (st.read p).read (p + 1), ?_, (List.append_nil _).symm, ?_, hend⟩
      · rw [show [percentChar].length + left + 1 = left + 1 + 1 by rw [List.length_singleton]; omega,
          printfLoop_percent hpercent, hzero]
        rfl
      · exact (hwithin.touch hlo (by omega)).touch (by omega) (Nat.le_refl _)
  | plain c s hplain ih =>
      obtain ⟨hc, hne, hrest⟩ := hformat
      rw [directives_plain hplain] at hapart hout
      rw [List.length_cons] at hleft hapart hhi
      obtain ⟨left, rfl⟩ := Nat.exists_eq_succ_of_ne_zero (show left ≠ 0 by omega)
      rw [printfLoop_plain hc hne hplain, escapesAtEnd_plain hplain]
      cases hout with
      | @plain _ _ _ _ out hout =>
        obtain ⟨left', st', hrun, hshown, hrest'⟩ := @ih (p + 1) left out ((st.read p).putchar c) hrest (by omega)
          (fun hint => by have hfar := hapart (List.mem_cons_of_mem _ hint); omega) hout
          (hwithin.touch hlo (by omega)) (by omega) (by omega)
        refine ⟨left', st', hrun, ?_, hrest'⟩
        rw [hshown, shown_putchar, List.append_assoc]
        rfl
  | conversion d s ih =>
      obtain ⟨hpercent, -, hd, hne, hrest⟩ := hformat
      rw [directives_conversion] at hapart hout
      rw [List.length_cons, List.length_cons] at hleft hapart hhi
      obtain ⟨left, rfl⟩ := Nat.exists_eq_succ_of_ne_zero (show left ≠ 0 by omega)
      obtain ⟨st₁, piece, rest, hconv, hshown, rfl, hout₁, htouched, hmemory⟩ :=
        @printfConversion_spec text d out _ ((st.read p).read (p + 1)) htext hout
      rw [printfLoop_percent hpercent, hd, hconv, escapesAtEnd_conversion]
      -- a `%i` writes beside the format
      have hkept : HoldsString st₁.format.memory (p + 1 + 1) s := by
        apply hrest.congr_within
        intro b hlo hhi
        apply hmemory
        rintro rfl
        have hfar := hapart List.mem_cons_self
        omega
      have hwithin₁ : st₁.format.Within lo hi := by
        intro b hb
        rw [htouched] at hb
        exact ((hwithin.touch hlo (by omega)).touch (show lo ≤ p + 1 by omega) (by omega)) b hb
      obtain ⟨left', st', hrun, hshown', hrest'⟩ := @ih (p + 1 + 1) left rest st₁ hkept (by omega)
        (fun hint => by have hfar := hapart (List.mem_cons_of_mem _ hint); omega) hout₁ hwithin₁ (by omega) (by omega)
      refine ⟨left', st', hrun, ?_, hrest'⟩
      rw [hshown', hshown, List.append_assoc]
      rfl

/-- At a zero the loop ends. -/
theorem printfLoop_zero (hzero : st.format.memory p = 0) : printfLoop text (left + 1) p st = some (st.read p) :=
  if_pos hzero

theorem printfConversion_touched (hrun : printfConversion text c st = some st') :
    st'.format.touched = st.format.touched := by
  unfold printfConversion vaArg at hrun
  obtain ⟨format, ap, calls⟩ := st
  split at hrun
  · cases ap with
    | nil => cases hrun
    | cons ival ap => cases hrun; rfl
  · split at hrun
    · cases ap with
      | nil => cases hrun
      | cons sval ap => cases hrun; rfl
    · cases hrun
      rfl

/-- What has been read stays read, with the place where the loop is. -/
theorem printfLoop_touched (hrun : printfLoop text left p st = some st') :
    ∀ a ∈ (st.read p).format.touched, a ∈ st'.format.touched := by
  induction left generalizing p st with
  | zero => cases hrun
  | succ left ih =>
      intro a ha
      rw [printfLoop] at hrun
      split at hrun
      · cases hrun
        exact ha
      split at hrun
      · exact ih hrun a (List.mem_append_left _ ha)
      · obtain ⟨st₁, hconv, hrun⟩ := Option.bind_eq_some_iff.mp hrun
        apply ih hrun
        apply List.mem_append_left
        rw [printfConversion_touched hconv]
        exact List.mem_append_left _ ha

end Loop

/-! ## Matching arguments -/

section Arguments

variable {m m' : Mem} {text a : Nat} {args : List (BitVec 32)} {ds : List (Directive (BitVec 8))}

/-- A conversion of a number leaves strings where there are strings. -/
theorem StringIn.itoa (h : StringIn m a) (htext : text + 12 ≤ addressSpace) (v : BitVec 32) :
    StringIn (itoa text v.toInt ⟨m, []⟩).2.memory a := by
  obtain ⟨s, hs, hin⟩ := h
  by_cases hbehind : text + 12 ≤ a
  · exact ⟨s, hs.congr fun b hb => itoa_beside v (by omega), hin⟩
  · obtain ⟨s', hs', hin'⟩ := exists_holdsString (show a ≤ text + 11 by omega) (@itoa_ends text m v)
    exact ⟨s', hs', by omega⟩

/-- With matching arguments a format stands for some text, also if conversions have come before it. -/
theorem Matching.formatted (h : Matching m ds args) (htext : text + 12 ≤ addressSpace)
    (hstrings : ∀ a, StringIn m a → StringIn m' a) : ∃ out, Formatted text m' ds args out := by
  induction h generalizing m' with
  | nil => exact ⟨[], .nil⟩
  | @plain c _ _ _ ih =>
      obtain ⟨out, hout⟩ := ih hstrings
      exact ⟨c :: out, .plain hout⟩
  | @int ival _ _ _ ih =>
      obtain ⟨out, hout⟩ := ih fun a ha => (hstrings a ha).itoa htext ival
      exact ⟨decimalText ival.toInt ++ out, .int hout⟩
  | @string sval _ _ hstring _ ih =>
      obtain ⟨s, hs, hin⟩ := hstrings _ hstring
      obtain ⟨out, hout⟩ := ih hstrings
      exact ⟨s ++ out, .string hs hin hout⟩
  | unknown hint hstring _ ih =>
      obtain ⟨out, hout⟩ := ih hstrings
      exact ⟨out, .unknown hint hstring hout⟩

/-- There is one such text. -/
theorem Formatted.unique {out out' : List (BitVec 8)} (h : Formatted text m ds args out)
    (h' : Formatted text m ds args out') : out = out' := by
  induction h generalizing out' with
  | nil =>
      cases h'
      rfl
  | plain _ ih =>
      cases h' with
      | plain hrest => rw [ih hrest]
  | int _ ih =>
      cases h' with
      | int hrest => rw [ih hrest]
      | unknown hint => exact absurd rfl hint
  | string hs _ _ ih =>
      cases h' with
      | string hs' _ hrest => rw [ih hrest, hs.unique hs']
      | unknown _ hstring => exact absurd rfl hstring
  | unknown hint hstring _ ih =>
      cases h' with
      | int => exact absurd rfl hint
      | string => exact absurd rfl hstring
      | unknown _ _ hrest => exact ih hrest

end Arguments

section Printf

variable {m : Mem} {text fmt : Nat} {s : List (BitVec 8)} {args : List (BitVec 32)}

/-- The whole call, up to the end of its format. -/
theorem PrintfCall.scan (h : PrintfCall text fmt args m s) :
    ∃ left st, printf text fmt args m
        = (printfLoop text (left + 1) (fmt + s.length + escapesAtEnd percentChar s % 2) st).map (fun st => (0, st)) ∧
      Formatted text m (directives percentChar s) args st.shown ∧ st.format.Within fmt (fmt + s.length) ∧
      st.format.memory (fmt + s.length) = 0 := by
  obtain ⟨out, hout⟩ := h.arguments.formatted h.buffer fun _ ha => ha
  have hinside := h.inside
  have hempty : Access.Within { memory := m } fmt (fmt + s.length) := fun _ ha => absurd ha List.not_mem_nil
  obtain ⟨left, st, hrun, hshown, hwithin, hend⟩ := @printfLoop_scan text fmt fmt (fmt + s.length) addressSpace s out
    { format := { memory := m }, ap := args } h.buffer h.format (by omega) h.apart hout hempty (Nat.le_refl _) rfl
  have hall : st.shown = out := hshown
  exact ⟨left, st, congrArg _ hrun, hall ▸ hout, hwithin, hend⟩

/-- With a `%` left over the loop goes on behind the format. -/
theorem PrintfCall.overruns (h : PrintfCall text fmt args m s) (hodd : escapesAtEnd percentChar s % 2 ≠ 0) :
    ¬ PrintsFormat text fmt args m s := by
  rintro ⟨st', hprintf, hinside, -⟩
  obtain ⟨left, st, hrun, -⟩ := h.scan
  have hone : escapesAtEnd percentChar s % 2 = 1 := by omega
  rw [hone] at hrun
  rw [hrun] at hprintf
  obtain ⟨st'', hloop, hst⟩ := Option.map_eq_some_iff.mp hprintf
  obtain rfl : st'' = st' := congrArg Prod.snd hst
  have hread := printfLoop_touched hloop _ (List.mem_append_right _ (List.mem_singleton_self _))
  have hbehind := (hinside _ hread).2
  omega

end Printf

/-- **`printf` stays in its format**, ends and prints what the format stands for, exactly when the number of `%` at the
    end of the format is even. -/
theorem printf_iff {m : Mem} {text fmt : Nat} {s : List (BitVec 8)} {args : List (BitVec 32)}
    (h : PrintfCall text fmt args m s) : PrintsFormat text fmt args m s ↔ escapesAtEnd percentChar s % 2 = 0 := by
  constructor
  · intro hprints
    by_contra hodd
    exact h.overruns hodd hprints
  · intro heven
    obtain ⟨left, st, hrun, hout, hwithin, hend⟩ := h.scan
    rw [heven, Nat.add_zero (fmt + s.length), printfLoop_zero hend] at hrun
    exact ⟨st.read (fmt + s.length), hrun, hwithin.touch (Nat.le_add_right _ _) (Nat.le_refl _), hout⟩

/-- `"%i%s"` at `0x400000`, and `"ok"` behind it. -/
def numberMemory : Mem := fun a => [0x25, 0x69, 0x25, 0x73, 0, 0x6F, 0x6B, 0].getD (a - 0x400000) 0

theorem numberMemory_called : PrintfCall 0x401000 0x400000 [5, 0x400005] numberMemory [0x25, 0x69, 0x25, 0x73] where
  format := ⟨rfl, by decide, rfl, by decide, rfl, by decide, rfl, by decide, rfl⟩
  inside := by decide
  buffer := by decide
  apart := fun _ => by decide
  arguments := by
    have haddress : (0x400005 : BitVec 32).toNat = 0x400005 := by decide
    have hstring : StringIn numberMemory 0x400005 :=
      ⟨[0x6F, 0x6B], ⟨rfl, by decide, rfl, by decide, rfl⟩, by decide⟩
    exact .int (.string (haddress.symm ▸ hstring) .nil)

theorem printf_iff_number :
    PrintsFormat 0x401000 0x400000 [5, 0x400005] numberMemory [0x25, 0x69, 0x25, 0x73] ↔
      escapesAtEnd percentChar [0x25, 0x69, 0x25, 0x73] % 2 = 0 :=
  printf_iff numberMemory_called

/-- `"%"` at `0x400000`, and `"A"` behind it. -/
def percentMemory : Mem := fun a => [0x25, 0, 0x41, 0].getD (a - 0x400000) 0

theorem printf_overruns : ¬ ∀ (text fmt : Nat) (args : List (BitVec 32)) (m : Mem) (s : List (BitVec 8)),
    PrintfCall text fmt args m s → PrintsFormat text fmt args m s := by
  intro h
  have hcalled : PrintfCall 0x401000 0x400000 [] percentMemory [percentChar] := {
    format := ⟨rfl, by decide, rfl⟩
    inside := by decide
    buffer := by decide
    apart := fun _ => by decide
    arguments := .nil }
  exact hcalled.overruns (by decide) (h _ _ _ _ _ hcalled)

/-- It goes on to print the `"A"`. -/
example : (printfLoop 0x401000 4 0x400000 { format := { memory := percentMemory }, ap := [] }).map Printing.shown
    = some [0x41] := by decide

end BimbleOS.Stdlib
