import Mathlib.Algebra.GroupWithZero.Nat
import Mathlib.Logic.Function.Basic
import Mathlib.Tactic.Common

/-!
# XOR of a word with two of its rotations

On words whose width is a power of two, `x ↦ x ^ (x >>> r) ^ (x >>> s)` with
rotations is injective (`diffuse_injective`).  The map applied twice rotates by
twice the amounts, since the mixed terms cancel (`diffuse_diffuse`); after as many
doublings as the width has bits, both rotations are the identity and so is the
map.
-/

namespace Rotate

theorem getLsbD_rotateRight_mod {w : Nat} (x : BitVec w) (r : Nat) {j : Nat} (hj : j < w) :
    (x.rotateRight r).getLsbD j = x.getLsbD ((r + j) % w) := by
  have hr : r % w < w := Nat.mod_lt _ (by omega)
  have hmod : (r + j) % w = (r % w + j) % w := (Nat.mod_add_mod ..).symm
  rw [BitVec.getLsbD_rotateRight, hmod]
  by_cases h : j < w - r % w
  · rw [decide_eq_true h, cond_true, Nat.mod_eq_of_lt (show r % w + j < w by omega)]
  · rw [decide_eq_false h, cond_false, decide_eq_true hj, Bool.true_and,
      Nat.mod_eq_sub_mod (show w ≤ r % w + j by omega),
      Nat.mod_eq_of_lt (show r % w + j - w < w by omega)]
    congr 1
    omega

theorem rotateRight_rotateRight {w : Nat} (x : BitVec w) (r s : Nat) :
    (x.rotateRight r).rotateRight s = x.rotateRight (r + s) := by
  apply BitVec.eq_of_getLsbD_eq
  intro j hj
  rw [getLsbD_rotateRight_mod _ _ hj, getLsbD_rotateRight_mod _ _ (Nat.mod_lt _ (by omega)),
    getLsbD_rotateRight_mod _ _ hj, Nat.add_mod_mod, Nat.add_assoc]

theorem rotateRight_xor {w : Nat} (x y : BitVec w) (r : Nat) :
    (x ^^^ y).rotateRight r = x.rotateRight r ^^^ y.rotateRight r := by
  apply BitVec.eq_of_getLsbD_eq
  intro j hj
  simp only [BitVec.getLsbD_xor, getLsbD_rotateRight_mod _ _ hj]

theorem rotateRight_mul_width {w : Nat} (x : BitVec w) (r : Nat) : x.rotateRight (w * r) = x := by
  apply BitVec.eq_of_getLsbD_eq
  intro j hj
  rw [getLsbD_rotateRight_mod _ _ hj, Nat.mul_add_mod, Nat.mod_eq_of_lt hj]

def diffuse {w : Nat} (r s : Nat) (x : BitVec w) : BitVec w :=
  x ^^^ x.rotateRight r ^^^ x.rotateRight s

/-- **Twice the map is the map with twice the amounts.** -/
theorem diffuse_diffuse {w : Nat} (r s : Nat) (x : BitVec w) :
    diffuse r s (diffuse r s x) = diffuse (2 * r) (2 * s) x := by
  have hcancel : ∀ a b c d e f : BitVec w,
      a ^^^ b ^^^ c ^^^ (b ^^^ d ^^^ e) ^^^ (c ^^^ e ^^^ f) = a ^^^ d ^^^ f := by
    intro a b c d e f
    calc a ^^^ b ^^^ c ^^^ (b ^^^ d ^^^ e) ^^^ (c ^^^ e ^^^ f)
        = a ^^^ d ^^^ f ^^^ (b ^^^ b) ^^^ (c ^^^ c) ^^^ (e ^^^ e) := by ac_rfl
      _ = a ^^^ d ^^^ f := by simp only [BitVec.xor_self, BitVec.xor_zero]
  simp only [diffuse, rotateRight_xor, rotateRight_rotateRight]
  rw [Nat.add_comm s r, ← Nat.two_mul, ← Nat.two_mul, hcancel]

/-- Downwards from the doubling that is the identity. -/
theorem diffuse_injective_of_le {n k : Nat} (hk : k ≤ n) (r s : Nat) :
    Function.Injective (diffuse (w := 2 ^ n) (2 ^ k * r) (2 ^ k * s)) := by
  induction h : n - k generalizing k with
  | zero =>
      have hkn : k = n := by omega
      subst hkn
      intro x y hxy
      simpa only [diffuse, rotateRight_mul_width, BitVec.xor_self, BitVec.zero_xor] using hxy
  | succ m ih =>
      have hnext := ih (k := k + 1) (by omega) (by omega)
      intro x y hxy
      apply hnext
      have htwice := congrArg (diffuse (2 ^ k * r) (2 ^ k * s)) hxy
      rw [diffuse_diffuse, diffuse_diffuse] at htwice
      rwa [Nat.pow_succ', Nat.mul_assoc, Nat.mul_assoc]

/-- **A word of width `2 ^ n` is determined by its XOR with two of its rotations.** -/
theorem diffuse_injective (n r s : Nat) : Function.Injective (diffuse (w := 2 ^ n) r s) := by
  have h := diffuse_injective_of_le (Nat.zero_le n) r s
  rwa [Nat.pow_zero, Nat.one_mul, Nat.one_mul] at h

end Rotate
