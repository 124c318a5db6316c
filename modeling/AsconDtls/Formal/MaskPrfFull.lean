import AsconDtls.Formal.DupEvent

/-!
# The composition in `mask_prf.v`

`mask_prf_full` bounds three advantages from two premises, and its comments say that the
birthday and the key-prediction lemmas discharge them.  `falling` and `count_coll` are
those of `mask_prf_fcf.v`; `delta_P`, an axiom there, is any number here.

The premises scale probabilities, the lemmas bound counts: `birthday_scaled_le` has
`U ^ q` on the right as well and `key_prediction` has `2 ^ k`.  `composes_iff` says
when the counts meet the premises; `composed_probability` is the bound for the
probabilities.
-/

namespace AsconDtls.Formal

/-! ### `mask_prf_key.v` -/

def exp2 (k : Nat) : Nat := 2 ^ k

def rParam : Nat := 128

/-- `adv_fixed_capacity_nat`. -/
def advFixedCapacityNat (k : Nat) (guesses : List (BitVec k)) : Nat := guesses.length

/-- `key_prediction`. -/
theorem key_prediction {q k : Nat} {A : List (BitVec k)} (hq : A.length ≤ q) :
    exp2 k * advFixedCapacityNat k A ≤ exp2 k * q :=
  Nat.mul_le_mul_left (exp2 k) hq

/-! ### `mask_prf.v` -/

/-- The premise `Hbirthday`. -/
def Hbirthday (q c advBirth : Nat) : Prop :=
  2 * exp2 c ^ q * advBirth ≤ q * (q - 1) * exp2 c ^ (q - 1)

/-- The premise `Hkey`. -/
def Hkey (q k advKey : Nat) : Prop := exp2 k ^ 1 * advKey ≤ q

/-- The conclusion of `mask_prf_full`. -/
def FullBound (q c k advBirth advKey deltaP : Nat) : Prop :=
  2 * exp2 c ^ q * exp2 k ^ 1 * (advBirth + advKey + deltaP) ≤
    q * (q - 1) * exp2 c ^ (q - 1) * exp2 k ^ 1 + 2 * exp2 c ^ q * q +
      2 * exp2 c ^ q * exp2 k ^ 1 * deltaP

/-- `mask_prf_full`, which makes no use of `k ≤ r_param`. -/
theorem mask_prf_full {q c k advBirth advKey : Nat} (hbirthday : Hbirthday q c advBirth)
    (hkey : Hkey q k advKey) (deltaP : Nat) : FullBound q c k advBirth advKey deltaP := by
  have hbirth : 2 * exp2 c ^ q * exp2 k ^ 1 * advBirth ≤
      q * (q - 1) * exp2 c ^ (q - 1) * exp2 k ^ 1 := by
    rw [Nat.mul_right_comm]
    exact Nat.mul_le_mul_right (exp2 k ^ 1) hbirthday
  have hguess : 2 * exp2 c ^ q * exp2 k ^ 1 * advKey ≤ 2 * exp2 c ^ q * q := by
    rw [Nat.mul_assoc]
    exact Nat.mul_le_mul_left (2 * exp2 c ^ q) hkey
  rw [FullBound, Nat.mul_add, Nat.mul_add]
  exact Nat.add_le_add_right (Nat.add_le_add hbirth hguess) _

/-- `birthday_scaled_le`, and `mask_prf_full_composed`. -/
theorem birthday_scaled_le (q c : Nat) :
    2 * exp2 c ^ q * countColl q (exp2 c) ≤
      q * (q - 1) * exp2 c ^ (q - 1) * exp2 c ^ q := by
  rw [Nat.mul_right_comm]
  exact Nat.mul_le_mul_right (exp2 c ^ q) (count_coll_ub q (exp2 c))

/-! ### The premises for the counts -/

/-- There are at least the sequences that repeat their first string. -/
theorem pow_le_countColl {q : Nat} (U : Nat) (hq : 2 ≤ q) : U ^ (q - 1) ≤ countColl q U := by
  induction q, hq using Nat.le_induction with
  | base => simp [countColl, falling]
  | succ q hq ih =>
      have hstep : U ^ (q - 1) * U ≤ countColl q U * U := Nat.mul_le_mul_right U ih
      have hpow : U ^ (q + 1 - 1) = U ^ (q - 1) * U := by
        rw [← pow_succ]
        congr 1
        omega
      rw [countColl_rec, hpow]
      omega

theorem mul_pred_lt_two_pow (q : Nat) : q * (q - 1) < 2 ^ (q + 1) := by
  have hlin : ∀ n : Nat, 2 * n < 2 ^ (n + 1) := by
    intro n
    have h := Nat.lt_two_pow_self (n := n)
    rw [pow_succ]
    omega
  induction q with
  | zero => decide
  | succ q ih =>
      have hstep : (q + 1) * (q + 1 - 1) = q * (q - 1) + 2 * q := by
        cases q with
        | zero => rfl
        | succ q =>
            simp only [Nat.add_sub_cancel]
            ring
      have hl := hlin q
      rw [hstep, pow_succ]
      omega

/-- **The birthday premise for the count**: only one query, or only one capacity value. -/
theorem hbirthday_iff (q c : Nat) : Hbirthday q c (countColl q (exp2 c)) ↔ q ≤ 1 ∨ c = 0 := by
  have hpos : 0 < exp2 c := Nat.two_pow_pos c
  refine ⟨?_, ?_⟩
  · intro h
    by_contra hnot
    have hq : 2 ≤ q := by omega
    have hc : 1 ≤ c := by omega
    have hU : 2 ≤ exp2 c := by
      have hle := Nat.pow_le_pow_right (show 0 < 2 by decide) hc
      exact hle
    have hcount := pow_le_countColl (exp2 c) hq
    have hlt : q * (q - 1) < 2 * exp2 c ^ q := by
      have hpow := Nat.pow_le_pow_left hU q
      have hsmall := mul_pred_lt_two_pow q
      rw [pow_succ] at hsmall
      omega
    have hstrict : q * (q - 1) * exp2 c ^ (q - 1) < 2 * exp2 c ^ q * exp2 c ^ (q - 1) :=
      Nat.mul_lt_mul_of_pos_right hlt (Nat.pow_pos hpos)
    have hlarge : 2 * exp2 c ^ q * exp2 c ^ (q - 1) ≤ 2 * exp2 c ^ q * countColl q (exp2 c) :=
      Nat.mul_le_mul_left (2 * exp2 c ^ q) hcount
    rw [Hbirthday] at h
    omega
  · rintro (hq | rfl)
    · have hnone : countColl q (exp2 c) = 0 := by
        rcases q with _ | _ | q
        · rfl
        · rfl
        · omega
      rw [Hbirthday, hnone, Nat.mul_zero]
      exact Nat.zero_le _
    · have hub := count_coll_ub q 1
      rw [one_pow, Nat.mul_one] at hub
      simpa [Hbirthday, exp2] using hub

/-- **The key premise for the guesses.** -/
theorem hkey_iff (q k : Nat) (A : List (BitVec k)) :
    Hkey q k (advFixedCapacityNat k A) ↔ A.length ≤ q / 2 ^ k := by
  rw [Hkey, advFixedCapacityNat, exp2, pow_one, Nat.le_div_iff_mul_le (Nat.two_pow_pos k),
    Nat.mul_comm]

/-- The two counts meet the premises, and with them the bound. -/
def Composes (q c k : Nat) (A : List (BitVec k)) : Prop :=
  Hbirthday q c (countColl q (exp2 c)) ∧ Hkey q k (advFixedCapacityNat k A) ∧
    ∀ deltaP, FullBound q c k (countColl q (exp2 c)) (advFixedCapacityNat k A) deltaP

/-- **When the composition goes through**: one query at most or `c = 0`, and at most
`q / 2 ^ k` guesses. -/
theorem composes_iff (q c k : Nat) (A : List (BitVec k)) :
    Composes q c k A ↔ (q ≤ 1 ∨ c = 0) ∧ A.length ≤ q / 2 ^ k := by
  rw [← hbirthday_iff, ← hkey_iff]
  refine ⟨?_, ?_⟩
  · rintro ⟨hbirth, hguess, -⟩
    exact ⟨hbirth, hguess⟩
  · rintro ⟨hbirth, hguess⟩
    exact ⟨hbirth, hguess, mask_prf_full hbirth hguess⟩

/-- Two queries and one guess at the parameters of Ascon: `2 ^ 192` pairs repeat their first
string, where the premise has room for no pair, and the guess would have to count for
`2 ^ 128` queries. -/
theorem not_composes :
    ¬ ∀ (q c k : Nat) (A : List (BitVec k)), k ≤ rParam → A.length ≤ q → Composes q c k A := by
  intro h
  obtain ⟨hbirth, -, -⟩ := h 2 192 128 [0#128] (by decide) (by decide)
  rw [hbirthday_iff] at hbirth
  omega

/-! ### The bound for probabilities -/

/-- With the collision probability and the probability of a right guess in place of the counts
the three terms add up as the comments say. -/
theorem composed_probability {q c k : Nat} {A : List (BitVec k)} (hq : A.length ≤ q) (deltaP : ℚ) :
    collFraction c q + (advFixedCapacityNat k A : ℚ) / 2 ^ k + deltaP ≤
      ((q * (q - 1) * (2 ^ c) ^ (q - 1) : Nat) : ℚ) / (2 * ((2 : ℚ) ^ c) ^ q) + q / 2 ^ k +
        deltaP := by
  have hguess : (advFixedCapacityNat k A : ℚ) / 2 ^ k ≤ q / 2 ^ k := by
    apply div_le_div_of_nonneg_right _ (by positivity)
    exact_mod_cast hq
  have hbirth := collFraction_le c q
  linarith

end AsconDtls.Formal
