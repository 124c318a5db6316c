import Mathlib.Algebra.GroupWithZero.Nat
import AsconDtls.Lib.InPlace
import AsconDtls.Lib.LittleEndian

/-!
# A few Thumb instructions

Enough of the instruction set for code that moves words around in a loop: four registers, the carry
flag and a byte-addressed memory.  On a `strict` core a word has to lie at a multiple of four.  The
program counter counts instructions.

* `Reaches`: what the code comes to, `reaches_loop` the rule for loops with a counter.
* `Faults`, `faults_not_reaches`: code that has stopped at a bad address does not go on.
-/

namespace Thumb

open LittleEndian
open InPlace (Mem load store length_load)

abbrev Word := BitVec 32

inductive Reg
  | r0
  | r1
  | r2
  | r3
deriving DecidableEq

inductive Instr
  /-- `ldr rd, =v` -/
  | ldrEq (rd : Reg) (v : Word)
  /-- `ldr rd, [rn]` -/
  | ldr (rd rn : Reg)
  /-- `str rd, [rn]` -/
  | str (rd rn : Reg)
  /-- `movs rd, #imm` -/
  | movs (rd : Reg) (imm : Word)
  /-- `adds rd, rd, #imm` -/
  | adds (rd : Reg) (imm : Word)
  | cmp (rn rm : Reg)
  | b (target : Nat)
  | bhs (target : Nat)

structure State where
  pc : Nat
  regs : Reg → Word
  carry : Bool
  mem : Mem Byte

/-- `rd := v`, and on to the next instruction. -/
def State.set (s : State) (rd : Reg) (v : Word) : State :=
  { s with pc := s.pc + 1, regs := Function.update s.regs rd v }

/-- Whether a core takes a word at `a`. -/
def takes (strict : Bool) (a : Nat) : Bool := !strict || decide (a % 4 = 0)

/-- None is a fault. -/
def exec (strict : Bool) (s : State) : Instr → Option State
  | .ldrEq rd v => some (s.set rd v)
  | .ldr rd rn =>
    let a := (s.regs rn).toNat
    if takes strict a then some (s.set rd (loadLE 32 (load s.mem a 4))) else none
  | .str rd rn =>
    let a := (s.regs rn).toNat
    if takes strict a then
      some { s with pc := s.pc + 1, mem := store s.mem a (bytesAt (s.regs rd) 0 4) }
    else none
  | .movs rd imm => some (s.set rd imm)
  | .adds rd imm =>
    let sum := (s.regs rd).toNat + imm.toNat
    some { s.set rd (s.regs rd + imm) with carry := decide (2 ^ 32 ≤ sum) }
  | .cmp rn rm =>
    some { s with pc := s.pc + 1, carry := decide ((s.regs rm).toNat ≤ (s.regs rn).toNat) }
  | .b target => some { s with pc := target }
  | .bhs target => some { s with pc := if s.carry then target else s.pc + 1 }

/-- One instruction of `code`, which ends where it is left for other code. -/
def step (strict : Bool) (code : List Instr) (s : State) : Option State :=
  code[s.pc]?.bind (exec strict s)

def run (strict : Bool) (code : List Instr) : Nat → State → Option State
  | 0, s => some s
  | n + 1, s => (step strict code s).bind (run strict code n)

def Reaches (strict : Bool) (code : List Instr) (s t : State) : Prop :=
  ∃ n, run strict code n s = some t

/-- The code comes to an instruction that faults. -/
def Faults (strict : Bool) (code : List Instr) (s : State) : Prop :=
  ∃ t, Reaches strict code s t ∧ t.pc < code.length ∧ step strict code t = none

variable {strict : Bool} {code : List Instr} {s t u : State}

theorem run_add (m n : Nat) (s : State) : run strict code (m + n) s = (run strict code m s).bind (run strict code n) := by
  induction m generalizing s with
  | zero => rw [Nat.zero_add, run, Option.bind_some]
  | succ m ih =>
    rw [Nat.add_right_comm, run, run, Option.bind_assoc]
    exact congrArg (Option.bind (step strict code s)) (funext ih)

theorem Reaches.refl (strict : Bool) (code : List Instr) (s : State) : Reaches strict code s s := ⟨0, rfl⟩

theorem Reaches.trans (h : Reaches strict code s t) (g : Reaches strict code t u) : Reaches strict code s u := by
  obtain ⟨m, hm⟩ := h
  obtain ⟨n, hn⟩ := g
  exact ⟨m + n, by rw [run_add, hm, Option.bind_some, hn]⟩

/-- **Loops**: what `n` rounds keep holds after them. -/
theorem reaches_loop {Inv : Nat → State → Prop} {n : Nat}
    (hround : ∀ k s, k < n → Inv k s → ∃ t, Reaches strict code s t ∧ Inv (k + 1) t)
    (h : Inv 0 s) : ∃ t, Reaches strict code s t ∧ Inv n t := by
  induction n with
  | zero => exact ⟨s, Reaches.refl strict code s, h⟩
  | succ n ih =>
    obtain ⟨t, hst, ht⟩ := ih fun k s hk => hround k s (by omega)
    obtain ⟨u, htu, hu⟩ := hround n t (Nat.lt_succ_self n) ht
    exact ⟨u, hst.trans htu, hu⟩

/-- From a state that cannot go on nothing else is reached. -/
theorem run_stuck (h : step strict code s = none) {n : Nat} (hn : run strict code n s = some t) : t = s := by
  cases n with
  | zero => exact (Option.some.inj hn).symm
  | succ n =>
    rw [run, h] at hn
    cases hn

/-- Of two states that are reached one comes after the other. -/
theorem reaches_total (h : Reaches strict code s t) (g : Reaches strict code s u) :
    Reaches strict code t u ∨ Reaches strict code u t := by
  obtain ⟨m, hm⟩ := h
  obtain ⟨n, hn⟩ := g
  rcases Nat.le_total m n with hle | hle
  · obtain ⟨k, rfl⟩ := Nat.exists_eq_add_of_le hle
    rw [run_add, hm, Option.bind_some] at hn
    exact .inl ⟨k, hn⟩
  · obtain ⟨k, rfl⟩ := Nat.exists_eq_add_of_le hle
    rw [run_add, hn, Option.bind_some] at hm
    exact .inr ⟨k, hm⟩

theorem step_left (h : code.length ≤ s.pc) : step strict code s = none := by
  rw [step, List.getElem?_eq_none h, Option.bind_none]

/-- The code is left in one state. -/
theorem reaches_left_eq (h : Reaches strict code s t) (g : Reaches strict code s u)
    (ht : code.length ≤ t.pc) (hu : code.length ≤ u.pc) : t = u := by
  rcases reaches_total h g with ⟨n, hn⟩ | ⟨n, hn⟩
  · exact (run_stuck (step_left ht) hn).symm
  · exact run_stuck (step_left hu) hn

/-- Code that faults does not reach its end. -/
theorem faults_not_reaches (h : Faults strict code s) (g : Reaches strict code s t) : t.pc < code.length := by
  obtain ⟨u, hu, hpc, hstuck⟩ := h
  by_contra hend
  rcases reaches_total g hu with ⟨n, hn⟩ | ⟨n, hn⟩
  · obtain rfl := run_stuck (step_left (Nat.le_of_not_lt hend)) hn
    exact hend hpc
  · obtain rfl := run_stuck hstuck hn
    exact hend hpc

/-- A word that has been loaded is stored as the bytes it was loaded from. -/
theorem bytesAt_loadLE_word (m : Mem Byte) (a : Nat) :
    bytesAt (loadLE 32 (load m a 4)) 0 4 = load m a 4 :=
  bytesAt_loadLE (load m a 4) rfl

end Thumb
