import Mathlib.Data.Fintype.EquivFin
import Mathlib.Data.Fintype.Prod
import AsconDtls.Lib.Rotate
import AsconDtls.Permutation.Agree

/-!
# Ascon-p is a bijection

A round is the constant addition, then the same map on the five bits of each
column (`sbox`), then on each word the XOR with two of its rotations.  The first
is undone by itself, the second is injective on 32 values, the third is
`Rotate.diffuse_injective`.  So a round is injective, and so are eight and twelve
of them; the states are finitely many, so both are bijections.
-/

namespace AsconDtls

open LittleEndian
open Rotate (diffuse diffuse_injective)

theorem rotrFixed64_eq_rotateRight (x : BitVec 64) {r : Nat} (hr : r < 64) :
    rotrFixed64 x r = x.rotateRight r := by
  apply BitVec.eq_of_getLsbD_eq
  intro j hj
  rw [getLsbD_rotrFixed64 x hr hj, Rotate.getLsbD_rotateRight_mod x r hj]
  by_cases h : r + j < 64
  · rw [if_pos h, Nat.mod_eq_of_lt h]
  · rw [if_neg h, Nat.mod_eq_sub_mod (by omega), Nat.mod_eq_of_lt (by omega)]

namespace Words

/-! ### The three layers -/

def addConstant (x : Words) (c : Byte) : Words := { x with x2 := x.x2 ^^^ c.setWidth 64 }

def substitute (x : Words) : Words :=
  let x0 := x.x0 ^^^ x.x4
  let x4 := x.x4 ^^^ x.x3
  let x2 := x.x2 ^^^ x.x1
  let t0 := x0 ^^^ (~~~x.x1 &&& x2)
  let t2 := x2 ^^^ (~~~x.x3 &&& x4)
  let t4 := x4 ^^^ (~~~x0 &&& x.x1)
  { x0 := t0 ^^^ t4
    x1 := x.x1 ^^^ (~~~x2 &&& x.x3) ^^^ t0
    x2 := ~~~t2
    x3 := x.x3 ^^^ (~~~x4 &&& x0) ^^^ t2
    x4 := t4 }

def diffusion (x : Words) : Words :=
  { x0 := diffuse 19 28 x.x0
    x1 := diffuse 61 39 x.x1
    x2 := diffuse 1 6 x.x2
    x3 := diffuse 10 17 x.x3
    x4 := diffuse 7 41 x.x4 }

theorem round_eq (x : Words) (c : Byte) :
    x.round c = (x.addConstant c).substitute.diffusion := by
  simp (disch := decide) only [round, addConstant, substitute, diffusion, diffuse,
    rotrFixed64_eq_rotateRight]

theorem addConstant_injective (c : Byte) : Function.Injective (addConstant · c) := by
  intro x y h
  simp only [addConstant, mk.injEq] at h
  obtain ⟨h0, h1, h2, h3, h4⟩ := h
  exact Words.ext h0 h1 ((BitVec.xor_left_inj _).mp h2) h3 h4

/-- The substitution on the five bits of a column. -/
def sbox : Bool × Bool × Bool × Bool × Bool → Bool × Bool × Bool × Bool × Bool
  | (x0, x1, x2, x3, x4) =>
    let x0 := x0 ^^ x4
    let x4 := x4 ^^ x3
    let x2 := x2 ^^ x1
    let t0 := x0 ^^ (!x1 && x2)
    let t2 := x2 ^^ (!x3 && x4)
    let t4 := x4 ^^ (!x0 && x1)
    (t0 ^^ t4, x1 ^^ (!x2 && x3) ^^ t0, !t2, x3 ^^ (!x4 && x0) ^^ t2, t4)

theorem sbox_injective : Function.Injective sbox := by decide +kernel

/-- Bit `j` of each word. -/
def column (x : Words) (j : Nat) : Bool × Bool × Bool × Bool × Bool :=
  (x.x0.getLsbD j, x.x1.getLsbD j, x.x2.getLsbD j, x.x3.getLsbD j, x.x4.getLsbD j)

theorem ext_column {x y : Words} (h : ∀ j, j < 64 → x.column j = y.column j) : x = y := by
  simp only [column, Prod.mk.injEq] at h
  apply Words.ext
  · exact BitVec.eq_of_getLsbD_eq fun j hj => (h j hj).1
  · exact BitVec.eq_of_getLsbD_eq fun j hj => (h j hj).2.1
  · exact BitVec.eq_of_getLsbD_eq fun j hj => (h j hj).2.2.1
  · exact BitVec.eq_of_getLsbD_eq fun j hj => (h j hj).2.2.2.1
  · exact BitVec.eq_of_getLsbD_eq fun j hj => (h j hj).2.2.2.2

theorem column_substitute (x : Words) {j : Nat} (hj : j < 64) :
    x.substitute.column j = sbox (x.column j) := by
  simp only [column, substitute, sbox, BitVec.getLsbD_xor, BitVec.getLsbD_and,
    BitVec.getLsbD_not, decide_eq_true hj, Bool.true_and]

theorem substitute_injective : Function.Injective substitute := by
  intro x y h
  apply ext_column
  intro j hj
  apply sbox_injective
  rw [← column_substitute x hj, ← column_substitute y hj, h]

theorem diffusion_injective : Function.Injective diffusion := by
  intro x y h
  simp only [diffusion, mk.injEq] at h
  obtain ⟨h0, h1, h2, h3, h4⟩ := h
  exact Words.ext (diffuse_injective 6 _ _ h0) (diffuse_injective 6 _ _ h1)
    (diffuse_injective 6 _ _ h2) (diffuse_injective 6 _ _ h3) (diffuse_injective 6 _ _ h4)

theorem round_injective (c : Byte) : Function.Injective (round · c) := by
  intro x y h
  simp only [round_eq] at h
  exact addConstant_injective c (substitute_injective (diffusion_injective h))

end Words

/-! ### Rounds -/

theorem roundBody_injective (c : Byte) : Function.Injective (roundBody rotrFixed64 · c) := by
  intro a b h
  apply AsconState.words_injective
  apply Words.round_injective c
  simp only
  rw [← words_roundBody, ← words_roundBody]
  exact congrArg AsconState.words h

theorem roundsFrom_injective {round : AsconState → Nat → AsconState}
    (h : ∀ i, Function.Injective (round · i)) (i : Nat) :
    Function.Injective (roundsFrom round · i) := by
  induction hn : MAX_ROUNDS - i generalizing i with
  | zero =>
      intro a b hab
      simpa only [roundsFrom_of_ge round _ (show MAX_ROUNDS ≤ i by omega)] using hab
  | succ n ih =>
      intro a b hab
      simp only [roundsFrom_of_lt round _ (show i < MAX_ROUNDS by omega)] at hab
      exact h i (ih (i + 1) (by omega) hab)

/-- **Different states stay different.** -/
theorem asconP_injective (r : Rounds) : Function.Injective (asconP · r) := by
  intro a b h
  simp only [← roundsFrom_eq_asconP] at h
  exact roundsFrom_injective (fun i => roundBody_injective (roundConstant i)) _ h

instance : Finite AsconState :=
  Finite.of_injective (fun a => a.mem.toFin) fun _ _ h =>
    AsconState.ext_mem (BitVec.eq_of_toFin_eq h)

theorem asconP_bijective (r : Rounds) : Function.Bijective (asconP · r) :=
  Finite.injective_iff_bijective.mp (asconP_injective r)

end AsconDtls
