import BimbleOS.Lib.X86

/-!
# `Lib.Paged` — code that runs with a page directory loaded

The machine of `Lib.X86` runs over one flat memory. What it runs over is what the loaded page directory shows: each page
is some frame of memory. Code that writes to pages of its own only, which the directory maps to themselves and to
nothing else, runs over what the directory shows and writes to memory itself (`Cpu.under`).
-/

namespace X86

open Bytes

/-- A page directory: the frame of each page that is present. -/
abbrev PageFrames := Nat → Option Nat

/-- What a page directory shows of memory. -/
def PageFrames.see (d : PageFrames) (m : Mem) : Mem := fun a =>
  match d (a / 4096) with
  | some frame => m (frame * 4096 + a % 4096)
  | none => 0

/-- The pages `own` are mapped to themselves, and no other page is mapped to one of them. -/
def PageFrames.Owns (d : PageFrames) (own : List Nat) : Prop :=
  (∀ page ∈ own, d page = some page) ∧ ∀ page < 1048576, ∀ frame ∈ own, d page = some frame → page = frame

instance (d : PageFrames) (own : List Nat) : Decidable (d.Owns own) :=
  inferInstanceAs (Decidable (_ ∧ _))

/-- `n` bytes from `a` on are on pages that are present. -/
def PageFrames.Present (d : PageFrames) (a n : Nat) : Prop := ∀ i < n, (d ((a + i) / 4096)).isSome

instance (d : PageFrames) (a n : Nat) : Decidable (d.Present a n) := Nat.decidableBallLT n _

/-- `n` bytes from `a` on are where they seem to be. -/
def PageFrames.Self (d : PageFrames) (a n : Nat) : Prop := ∀ i < n, d ((a + i) / 4096) = some ((a + i) / 4096)

/-- Code at work with a page directory loaded, which writes to the pages `own`. Where the directory does not leave these
    to the code, what runs is something else. -/
def Cpu.under (own : List Nat) (d : PageFrames) (run : Cpu → Option Cpu) (k : Cpu) : Option Cpu :=
  if d.Owns own then
    (run { k with mem := d.see k.mem }).map fun c =>
      { c with mem := fun a => if a / 4096 ∈ own then c.mem a else k.mem a }
  else none

section Under

variable {own : List Nat} {d : PageFrames} {m : Mem} {a e : Nat} {ws : List (BitVec 32)} {k c : Cpu}
  {run : Cpu → Option Cpu}

/-- A page that is mapped to itself is seen as it is. -/
theorem PageFrames.see_of_self (h : d (a / 4096) = some (a / 4096)) : d.see m a = m a := by
  unfold PageFrames.see
  rw [h]
  show m (a / 4096 * 4096 + a % 4096) = m a
  rw [Nat.div_add_mod']

theorem PageFrames.Self.present {n : Nat} (h : d.Self a n) : d.Present a n := fun i hi => by
  rw [h i hi]
  rfl

theorem PageFrames.Owns.see_eq (h : d.Owns own) (ha : a / 4096 ∈ own) : d.see m a = m a :=
  PageFrames.see_of_self (h.1 _ ha)

theorem Cpu.under_eq_some : k.under own d run = some c ↔ d.Owns own ∧
    ∃ c₁, run { k with mem := d.see k.mem } = some c₁ ∧
      { c₁ with mem := fun a => if a / 4096 ∈ own then c₁.mem a else k.mem a } = c := by
  unfold Cpu.under
  split
  · rename_i howns
    rw [Option.map_eq_some_iff]
    exact ⟨fun h => ⟨howns, h⟩, fun h => h.2⟩
  · rename_i howns
    exact ⟨fun h => (Option.some_ne_none _ h.symm).elim, fun h => absurd h.1 howns⟩

/-- A stack on pages of one's own is one in memory. -/
theorem Stack.under (h : Stack e (d.see m) ws c) (howns : d.Owns own)
    (hown : ∀ b, (c.reg .esp).toNat ≤ b → b < e → b / 4096 ∈ own) :
    Stack e m ws { c with mem := fun b => if b / 4096 ∈ own then c.mem b else m b } where
  esp := h.esp
  word := fun i hi => by
    rw [← h.word i hi]
    refine load32_congr fun j hj => if_pos (hown _ ?_ ?_)
    · show (c.reg .esp).toNat ≤ (c.reg .esp).toNat + 4 * i + j
      omega
    · show (c.reg .esp).toNat + 4 * i + j < e
      have hbase := h.esp
      omega
  above := fun b hb => by
    show (if b / 4096 ∈ own then c.mem b else m b) = m b
    split
    · rename_i hmem
      rw [h.above b hb, howns.see_eq hmem]
    · rfl

end Under

end X86
