import Mathlib.Algebra.GroupWithZero.Nat
import Mathlib.Data.List.Induction

/-!
# Numbers in bytes

`packBig k n` is `n` in `k` bytes, the most significant first, and `unpackBig` reads a list of
bytes as a number; `packLittle` and `unpackLittle` are the same from the other end.  What fits of
a number comes back (`unpackBig_packBig_mod`, `unpackBig_packBig`, `unpackLittle_packLittle`), and
so do bytes (`packBig_unpackBig`).
-/

namespace Pack

def packBig : Nat → Nat → List (BitVec 8)
  | 0, _ => []
  | k + 1, n => packBig k (n / 256) ++ [BitVec.ofNat 8 n]

def unpackBig (l : List (BitVec 8)) : Nat := l.foldl (fun n b => n * 256 + b.toNat) 0

def packLittle (k n : Nat) : List (BitVec 8) := (packBig k n).reverse

def unpackLittle (l : List (BitVec 8)) : Nat := unpackBig l.reverse

@[simp] theorem length_packBig (k n : Nat) : (packBig k n).length = k := by
  induction k generalizing n with
  | zero => rfl
  | succ k ih => rw [packBig, List.length_append, ih, List.length_singleton]

@[simp] theorem length_packLittle (k n : Nat) : (packLittle k n).length = k := by
  rw [packLittle, List.length_reverse, length_packBig]

theorem unpackBig_concat (l : List (BitVec 8)) (b : BitVec 8) :
    unpackBig (l ++ [b]) = unpackBig l * 256 + b.toNat := by
  rw [unpackBig, List.foldl_append]
  rfl

theorem unpackBig_packBig_mod (k n : Nat) : unpackBig (packBig k n) = n % 256 ^ k := by
  induction k generalizing n with
  | zero => rw [Nat.pow_zero, Nat.mod_one]; rfl
  | succ k ih =>
      have hpow : 256 ^ (k + 1) = 256 * 256 ^ k := Nat.pow_succ'
      rw [packBig, unpackBig_concat, ih, BitVec.toNat_ofNat, hpow, Nat.mod_mul]
      omega

theorem unpackBig_packBig {k n : Nat} (h : n < 256 ^ k) : unpackBig (packBig k n) = n := by
  rw [unpackBig_packBig_mod, Nat.mod_eq_of_lt h]

theorem packBig_unpackBig (l : List (BitVec 8)) : packBig l.length (unpackBig l) = l := by
  induction l using List.reverseRecOn with
  | nil => rfl
  | append_singleton l b ih =>
      have hdiv : (unpackBig l * 256 + b.toNat) / 256 = unpackBig l := by
        have := b.isLt
        omega
      have hmod : BitVec.ofNat 8 (unpackBig l * 256 + b.toNat) = b := by
        apply BitVec.eq_of_toNat_eq
        have := b.isLt
        rw [BitVec.toNat_ofNat]
        omega
      rw [List.length_append, List.length_singleton, packBig, unpackBig_concat, hdiv, hmod, ih]

theorem unpackLittle_packLittle {k n : Nat} (h : n < 256 ^ k) :
    unpackLittle (packLittle k n) = n := by
  rw [unpackLittle, packLittle, List.reverse_reverse, unpackBig_packBig h]

end Pack
