import AsconDtls.Lib.FinDist
import Mathlib.Data.Nat.Factorial.BigOperators

/-!
# The mask oracle of `mask_prf_fcf.v`

`realMask` answers a list of `c`-bit queries with `k`-bit blocks and remembers
what it has answered; `idealMask` draws a fresh block for every query.  The two
have the same distribution on queries without a repetition
(`realMask_nodup_eq`), and `q` uniform queries repeat with probability
`count_coll q U / U ^ q`, `U = 2 ^ c` (`dup_event_exact`).  No axiom of the Coq
file is used: the base case, the step and the scaling are proved here.
-/

namespace AsconDtls.Formal

open FinDist

section Code

variable {c k : Nat}

/-- `in_keys`. -/
def inKeys (d : BitVec c) : List (BitVec c × BitVec k) → Bool
  | [] => false
  | (d0, _) :: f => if d = d0 then true else inKeys d f

/-- `lookup`. -/
def lookup (d : BitVec c) : List (BitVec c × BitVec k) → Option (BitVec k)
  | [] => none
  | (d0, r) :: f => if d = d0 then some r else lookup d f

/-- `realMask`. -/
def realMask : List (BitVec c × BitVec k) → List (BitVec c) → FinDist (List (BitVec k))
  | _, [] => pure []
  | f, d :: rest =>
    match lookup d f with
    | some r => do
      let rs ← realMask f rest
      pure (r :: rs)
    | none => do
      let r ← rnd (BitVec k)
      let rs ← realMask ((d, r) :: f) rest
      pure (r :: rs)

/-- `IdealMask`. -/
def idealMask : List (BitVec c) → FinDist (List (BitVec k))
  | [] => pure []
  | _ :: rest => do
    let r ← rnd (BitVec k)
    let rs ← idealMask rest
    pure (r :: rs)

/-- `repeatRnd`. -/
def repeatRnd (c : Nat) : Nat → FinDist (List (BitVec c))
  | 0 => pure []
  | q + 1 => do
    let d ← rnd (BitVec c)
    let ls ← repeatRnd c q
    pure (d :: ls)

/-- `hasDups` of FCF. -/
def hasDups : List (BitVec c) → Bool
  | [] => false
  | d :: ls => if d ∈ ls then true else hasDups ls

/-- `DupEvent`. -/
def dupEvent (c q : Nat) : FinDist Bool := do
  let ls ← repeatRnd c q
  pure (hasDups ls)

/-- `falling`. -/
def falling (U : Nat) : Nat → Nat
  | 0 => 1
  | q + 1 => U * falling (U - 1) q

/-- `count_coll`. -/
def countColl : Nat → Nat → Nat
  | 0, _ => 0
  | 1, _ => 0
  | q + 2, U => countColl (q + 1) U * U + falling U (q + 1) * (q + 1)

end Code

/-! ### The two oracles on queries without a repetition -/

section Oracles

variable {c k : Nat}

theorem lookup_none {d : BitVec c} {f : List (BitVec c × BitVec k)} (h : inKeys d f = false) :
    lookup d f = none := by
  induction f with
  | nil => rfl
  | cons p f ih =>
    rw [inKeys] at h
    by_cases hd : d = p.1
    · simp [hd] at h
    · rw [if_neg hd] at h
      rw [lookup, if_neg hd, ih h]

theorem nodup_of_hasDups {ls : List (BitVec c)} (h : hasDups ls = false) : ls.Nodup := by
  induction ls with
  | nil => exact List.nodup_nil
  | cons d ls ih =>
    rw [hasDups] at h
    by_cases hd : d ∈ ls
    · simp [hd] at h
    · rw [if_neg hd] at h
      exact List.nodup_cons.2 ⟨hd, ih h⟩

/-- The memo table is of no use to queries that are new to it and differ. -/
theorem realMask_nodup_eq {ls : List (BitVec c)} {f : List (BitVec c × BitVec k)}
    (hdis : ∀ d ∈ ls, inKeys d f = false) (hls : ls.Nodup) (g : List (BitVec k) → ℚ) :
    (realMask f ls).E g = (idealMask ls).E g := by
  induction ls generalizing f g with
  | nil => rfl
  | cons d ls ih =>
    obtain ⟨hd, hls⟩ := List.nodup_cons.1 hls
    have hnone : lookup d f = none := lookup_none (hdis d (by simp))
    have htail : ∀ r, ∀ d' ∈ ls, inKeys d' ((d, r) :: f) = false := by
      intro r d' hd'
      have hne : d' ≠ d := fun h => hd (h ▸ hd')
      rw [inKeys, if_neg hne]
      exact hdis d' (List.mem_cons_of_mem d hd')
    simp only [realMask, hnone, idealMask, E_bind, E_pure]
    congr 1
    funext r
    exact ih (htail r) hls _

end Oracles

/-! ### The probability of a repetition -/

section Collisions

variable {c : Nat}

theorem length_of_supp_repeatRnd {q : Nat} {ls : List (BitVec c)} (h : (repeatRnd c q).Supp ls) :
    ls.length = q := by
  induction q generalizing ls with
  | zero =>
    rw [repeatRnd, supp_pure] at h
    rw [h, List.length_nil]
  | succ q ih =>
    obtain ⟨d, -, hd⟩ := supp_bind.1 h
    obtain ⟨ls', hls', hcons⟩ := supp_bind.1 hd
    rw [supp_pure.1 hcons, List.length_cons, ih hls']

theorem falling_eq_descFactorial (U q : Nat) : falling U q = U.descFactorial q := by
  induction q generalizing U with
  | zero => rfl
  | succ q ih =>
    cases U with
    | zero => simp [falling]
    | succ U => rw [falling, ih, Nat.succ_descFactorial_succ, Nat.add_sub_cancel]

theorem falling_succ (U q : Nat) : falling U (q + 1) = falling U q * (U - q) := by
  rw [falling_eq_descFactorial, falling_eq_descFactorial, Nat.descFactorial_succ, mul_comm]

theorem falling_eq_zero {U q : Nat} (h : U < q) : falling U q = 0 := by
  rw [falling_eq_descFactorial, Nat.descFactorial_eq_zero_iff_lt.2 h]

theorem countColl_rec (q U : Nat) :
    countColl (q + 1) U = countColl q U * U + falling U q * q := by
  cases q with
  | zero => simp [countColl]
  | succ q => rfl

/-- The lists with a repetition and the lists without one are all the lists. -/
theorem countColl_add_falling (q U : Nat) : countColl q U + falling U q = U ^ q := by
  induction q with
  | zero => rfl
  | succ q ih =>
    have hsplit : falling U q * q + falling U q * (U - q) = falling U q * U := by
      rcases Nat.lt_or_ge U q with hq | hq
      · simp [falling_eq_zero hq]
      · rw [← mul_add, Nat.add_sub_cancel' hq]
    calc countColl (q + 1) U + falling U (q + 1)
        = countColl q U * U + (falling U q * q + falling U q * (U - q)) := by
          rw [countColl_rec, falling_succ, add_assoc]
      _ = U ^ (q + 1) := by rw [hsplit, ← add_mul, ih, pow_succ]

/-- A fresh sample avoids the values of a list without a repetition. -/
theorem E_notMem {ls : List (BitVec c)} (hls : ls.Nodup) :
    ((rnd (BitVec c)).E fun d => if d ∈ ls then 0 else 1) =
      ((2 : ℚ) ^ c - ls.length) / 2 ^ c := by
  have hcard : (ls.toFinsetᶜ.card : ℚ) = (2 : ℚ) ^ c - ls.length := by
    rw [Finset.card_compl, List.toFinset_card_of_nodup hls, Nat.cast_sub, card_bitVec]
    rw [← List.toFinset_card_of_nodup hls]
    exact Finset.card_le_univ _
  have hsum : (∑ d : BitVec c, if d ∈ ls then (0 : ℚ) else 1) = ls.toFinsetᶜ.card := by
    have hind : ∀ d, (if d ∈ ls then (0 : ℚ) else 1) = if d ∈ ls.toFinsetᶜ then 1 else 0 := by
      intro d
      simp
    simp only [hind]
    rw [Finset.sum_boole, Finset.filter_mem_eq_inter, Finset.univ_inter]
  rw [E_rnd, hsum, hcard, card_bitVec]

/-- The indicator of a list without a repetition. -/
def nodupInd (ls : List (BitVec c)) : ℚ := if hasDups ls = true then 0 else 1

theorem nodupInd_cons (d : BitVec c) (ls : List (BitVec c)) :
    nodupInd (d :: ls) = nodupInd ls * if d ∈ ls then 0 else 1 := by
  by_cases hd : d ∈ ls
  · simp [nodupInd, hasDups, hd]
  · simp [nodupInd, hasDups, hd]

/-- One more query avoids the earlier ones: the step of the count. -/
theorem E_nodupInd_succ (q : Nat) :
    (repeatRnd c (q + 1)).E nodupInd =
      (repeatRnd c q).E nodupInd * (((2 : ℚ) ^ c - q) / 2 ^ c) := by
  have hprog : (repeatRnd c (q + 1)).E nodupInd =
      (rnd (BitVec c)).E fun d => (repeatRnd c q).E fun ls => nodupInd (d :: ls) := by
    simp only [repeatRnd, E_bind, E_pure]
  rw [hprog, E_comm, ← E_mul_right]
  apply E_congr
  intro ls hls
  simp only [nodupInd_cons, E_mul_left]
  cases hdup : hasDups ls with
  | true => simp [nodupInd, hdup]
  | false => rw [E_notMem (nodup_of_hasDups hdup), length_of_supp_repeatRnd hls]

theorem E_nodupInd (q : Nat) :
    (repeatRnd c q).E nodupInd = falling (2 ^ c) q / ((2 : ℚ) ^ c) ^ q := by
  induction q with
  | zero => simp [repeatRnd, nodupInd, hasDups, falling]
  | succ q ih =>
    have hstep : (falling (2 ^ c) (q + 1) : ℚ) = falling (2 ^ c) q * ((2 : ℚ) ^ c - q) := by
      rcases Nat.lt_or_ge (2 ^ c) q with hq | hq
      · simp [falling_succ, falling_eq_zero hq]
      · rw [falling_succ, Nat.cast_mul, Nat.cast_sub hq]
        norm_num
    rw [E_nodupInd_succ, ih, hstep, div_mul_div_comm, pow_succ]

theorem prob_dupEvent (q : Nat) :
    (dupEvent c q).prob true = (repeatRnd c q).E fun ls => if hasDups ls = true then 1 else 0 := by
  rw [dupEvent, prob_bind]
  congr 1
  funext ls
  exact prob_pure _ _

/-- `dup_event_exact`: the probability of a repetition counts the lists with one. -/
theorem dup_event_exact (q : Nat) :
    (dupEvent c q).prob true = countColl q (2 ^ c) / ((2 : ℚ) ^ c) ^ q := by
  have hcompl : (dupEvent c q).prob true = 1 - (repeatRnd c q).E nodupInd := by
    rw [prob_dupEvent, eq_sub_iff_add_eq, ← E_add]
    refine (E_congr ?_).trans ((repeatRnd c q).E_const 1)
    intro ls _
    cases hdup : hasDups ls with
    | true => simp [nodupInd, hdup]
    | false => simp [nodupInd, hdup]
  have hcount : (countColl q (2 ^ c) : ℚ) + falling (2 ^ c) q = ((2 : ℚ) ^ c) ^ q := by
    exact_mod_cast countColl_add_falling q (2 ^ c)
  have hpos : ((2 : ℚ) ^ c) ^ q ≠ 0 := by positivity
  rw [hcompl, E_nodupInd, eq_div_iff hpos, sub_mul, div_mul_cancel₀ _ hpos, one_mul, ← hcount,
    add_sub_cancel_right]

end Collisions

/-! ### The reduction -/

section Reduction

variable {c k : Nat}

/-- `averaging_dist`: the two games differ by at most the probability of a repetition. -/
theorem averaging_dist (q : Nat) (A : List (BitVec k) → FinDist Bool) :
    |(do let ls ← repeatRnd c q; let r ← realMask [] ls; A r).prob true -
      (do let ls ← repeatRnd c q; let r ← idealMask ls; A r).prob true| ≤
        (dupEvent c q).prob true := by
  rw [prob_dupEvent, prob_bind, prob_bind]
  apply abs_E_sub_le_bad
  · exact fun ls => prob_mem _ true
  · exact fun ls => prob_mem _ true
  · intro ls hls
    rw [prob_bind, prob_bind]
    exact realMask_nodup_eq (fun _ _ => rfl) (nodup_of_hasDups hls) _

/-- **`hreducible`**, with none of the axioms it rests on. -/
theorem hreducible (c k q : Nat) (A : List (BitVec k) → FinDist Bool) :
    ((2 : ℚ) ^ c) ^ q *
      |(do let ls ← repeatRnd c q; let r ← realMask [] ls; A r).prob true -
        (do let ls ← repeatRnd c q; let r ← idealMask ls; A r).prob true| ≤
      countColl q (2 ^ c) := by
  have hpos : 0 < ((2 : ℚ) ^ c) ^ q := by positivity
  have hdup := averaging_dist (c := c) q A
  rw [dup_event_exact, le_div_iff₀ hpos] at hdup
  rw [mul_comm]
  exact hdup

end Reduction

end AsconDtls.Formal
