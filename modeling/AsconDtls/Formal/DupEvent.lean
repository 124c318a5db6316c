import AsconDtls.Formal.MaskPrfFcf
import Mathlib.Data.Fintype.CardEmbedding
import Mathlib.SetTheory.Cardinal.Finite

/-!
# What `count_coll` counts

`count_coll q U` counts the sequences of `q` strings with a repetition
(`card_repeating`): the others are the injective ones, and those are `falling U q`.
With that the probability of `DupEvent` is a count over all sequences, and the four
facts that `mask_prf_fcf.v` takes as axioms are proved (`count_coll_exact`).
-/

namespace AsconDtls.Formal

open FinDist

/-! ### Counting -/

theorem hasDups_iff {c : Nat} (ls : List (BitVec c)) : hasDups ls = true ↔ ¬ ls.Nodup := by
  induction ls with
  | nil => simp [hasDups]
  | cons d ls ih =>
    rw [hasDups, List.nodup_cons]
    by_cases hd : d ∈ ls
    · simp [hd]
    · rw [if_neg hd, ih]
      simp [hd]

theorem natCard_bitVec (c : Nat) : Nat.card (BitVec c) = 2 ^ c := by
  rw [Nat.card_eq_fintype_card]
  have h := card_bitVec c
  exact_mod_cast h

/-- The sequences without a repetition. -/
theorem card_injective (c q : Nat) :
    Nat.card {v : Fin q → BitVec c // Function.Injective v} = falling (2 ^ c) q := by
  rw [Nat.card_congr (Equiv.subtypeInjectiveEquivEmbedding (Fin q) (BitVec c)),
    Nat.card_eq_fintype_card, Fintype.card_embedding_eq, Fintype.card_fin,
    ← Nat.card_eq_fintype_card, natCard_bitVec, falling_eq_descFactorial]

theorem countColl_eq_sub (q U : Nat) : countColl q U = U ^ q - falling U q := by
  rw [← countColl_add_falling q U, Nat.add_sub_cancel]

/-- **The sequences with a repetition.** -/
theorem card_repeating (c q : Nat) :
    Nat.card {v : Fin q → BitVec c // hasDups (List.ofFn v) = true} = countColl q (2 ^ c) := by
  classical
  have hiff : ∀ v : Fin q → BitVec c, hasDups (List.ofFn v) = true ↔ ¬ Function.Injective v := by
    intro v
    rw [hasDups_iff, List.nodup_ofFn]
  have hall : Fintype.card (Fin q → BitVec c) = (2 ^ c) ^ q := by
    rw [Fintype.card_fun, Fintype.card_fin, ← Nat.card_eq_fintype_card, natCard_bitVec]
  have hnodup := card_injective c q
  rw [Nat.card_eq_fintype_card] at hnodup
  rw [Nat.card_congr (Equiv.subtypeEquivRight hiff), Nat.card_eq_fintype_card,
    Fintype.card_subtype_compl, hall, hnodup, countColl_eq_sub]

theorem falling_le_pow (U q : Nat) : falling U q ≤ U ^ q := by
  have h := countColl_add_falling q U
  omega

/-- `count_coll_ub`. -/
theorem count_coll_ub (q U : Nat) : 2 * countColl q U ≤ q * (q - 1) * U ^ (q - 1) := by
  induction q with
  | zero => simp [countColl]
  | succ q ih =>
    cases q with
    | zero => simp [countColl]
    | succ q =>
      have hih : 2 * countColl (q + 1) U * U ≤ (q + 1) * q * U ^ q * U :=
        Nat.mul_le_mul_right U ih
      have hfall : falling U (q + 1) * (q + 1) ≤ U ^ (q + 1) * (q + 1) :=
        Nat.mul_le_mul_right (q + 1) (falling_le_pow U (q + 1))
      calc 2 * countColl (q + 2) U
          = 2 * countColl (q + 1) U * U + 2 * (falling U (q + 1) * (q + 1)) := by
            rw [countColl_rec]
            ring
        _ ≤ (q + 1) * q * U ^ q * U + 2 * (U ^ (q + 1) * (q + 1)) := by omega
        _ = (q + 2) * (q + 1) * U ^ (q + 1) := by ring

/-! ### The probability -/

/-- `ratSubtract` of FCF: 0 where the difference would be negative. -/
def ratSubtract (x y : ℚ) : ℚ := max (x - y) 0

/-- The part of the sequences with a repetition. -/
def collFraction (c q : Nat) : ℚ := countColl q (2 ^ c) / ((2 : ℚ) ^ c) ^ q

theorem one_sub_collFraction (c q : Nat) :
    1 - collFraction c q = falling (2 ^ c) q / ((2 : ℚ) ^ c) ^ q := by
  have hcount : (countColl q (2 ^ c) : ℚ) + falling (2 ^ c) q = ((2 : ℚ) ^ c) ^ q := by
    exact_mod_cast countColl_add_falling q (2 ^ c)
  have hpos : ((2 : ℚ) ^ c) ^ q ≠ 0 := by positivity
  rw [collFraction, eq_div_iff hpos, sub_mul, div_mul_cancel₀ _ hpos, one_mul, ← hcount,
    add_sub_cancel_left]

/-- Nothing is cut off. -/
theorem ratSubtract_collFraction (c q : Nat) :
    ratSubtract 1 (collFraction c q) = falling (2 ^ c) q / ((2 : ℚ) ^ c) ^ q := by
  rw [ratSubtract, one_sub_collFraction]
  exact max_eq_left (by positivity)

/-- `dup_step_arith_helper`. -/
theorem collFraction_succ (c q : Nat) :
    collFraction c q + q / (2 : ℚ) ^ c * ratSubtract 1 (collFraction c q) =
      collFraction c (q + 1) := by
  have hU : ((2 : ℚ) ^ c) ≠ 0 := by positivity
  have hrec : (countColl (q + 1) (2 ^ c) : ℚ) =
      countColl q (2 ^ c) * 2 ^ c + falling (2 ^ c) q * q := by
    exact_mod_cast countColl_rec q (2 ^ c)
  rw [ratSubtract_collFraction, collFraction, collFraction, hrec]
  generalize (2 : ℚ) ^ c = U at hU ⊢
  rw [pow_succ]
  field_simp

/-- `bound_tight_helper`. -/
theorem collFraction_le (c q : Nat) :
    collFraction c q ≤
      ((q * (q - 1) * (2 ^ c) ^ (q - 1) : Nat) : ℚ) / (2 * ((2 : ℚ) ^ c) ^ q) := by
  have hpos : 0 < ((2 : ℚ) ^ c) ^ q := by positivity
  have hub : (2 : ℚ) * countColl q (2 ^ c) ≤ ((q * (q - 1) * (2 ^ c) ^ (q - 1) : Nat) : ℚ) := by
    exact_mod_cast count_coll_ub q (2 ^ c)
  rw [collFraction, div_le_div_iff₀ hpos (by positivity)]
  calc (countColl q (2 ^ c) : ℚ) * (2 * (2 ^ c) ^ q)
      = 2 * countColl q (2 ^ c) * (2 ^ c) ^ q := by ring
    _ ≤ _ := mul_le_mul_of_nonneg_right hub (le_of_lt hpos)

/-- **`count_coll` counts collisions exactly.**  It is the number of sequences with a
repetition, and what is left of all sequences without the injective ones; over all
sequences it is the probability of `DupEvent`, which starts, grows and is bounded as
the axioms of `mask_prf_fcf.v` say. -/
theorem count_coll_exact (c q : Nat) :
    let p := fun q => (dupEvent c q).prob true
    Nat.card {v : Fin q → BitVec c // hasDups (List.ofFn v) = true} = countColl q (2 ^ c) ∧
    countColl q (2 ^ c) = (2 ^ c) ^ q - falling (2 ^ c) q ∧
    p q = countColl q (2 ^ c) / ((2 : ℚ) ^ c) ^ q ∧
    p 0 = countColl 0 (2 ^ c) / ((2 : ℚ) ^ c) ^ 0 ∧
    collFraction c q + q / (2 : ℚ) ^ c * ratSubtract 1 (collFraction c q) =
      collFraction c (q + 1) ∧
    p (q + 1) = p q + q / (2 : ℚ) ^ c * ratSubtract 1 (p q) ∧
    p q ≤ ((q * (q - 1) * (2 ^ c) ^ (q - 1) : Nat) : ℚ) / (2 * ((2 : ℚ) ^ c) ^ q) := by
  have hp : ∀ q, (dupEvent c q).prob true = collFraction c q := fun q => dup_event_exact q
  refine ⟨card_repeating c q, countColl_eq_sub q _, dup_event_exact q, dup_event_exact 0,
    collFraction_succ c q, ?_, ?_⟩
  · simp only [hp]
    exact (collFraction_succ c q).symm
  · simp only [hp]
    exact collFraction_le c q

end AsconDtls.Formal
