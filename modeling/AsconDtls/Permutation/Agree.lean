import AsconDtls.Permutation.Paths

/-!
# All versions of the permutation are one function

A state is read as five words (`Words`) and one round is `Words.round`.  Every
64-bit round computes it (`words_roundBody`), and so does the round on lanes
(`Lanes.words_p32Round`): XOR, AND and NOT work on the halves separately, and a
rotation of `xh:xl` is two cross-half shifts (`rotrFixed64_join_of_lt`), with
the halves exchanged when the amount is above 32 (`rotrFixed64_join_of_ge`).

`asconP` is the common function, `Path.permutation_eq` and its siblings are the
rewrites that the rest of the development uses.
-/

namespace AsconDtls

open LittleEndian

/-! ### Rotations by halves -/

theorem getLsbD_rotrFixed64 (x : BitVec 64) {r j : Nat} (hr : r < 64) (hj : j < 64) :
    (rotrFixed64 x r).getLsbD j =
      if r + j < 64 then x.getLsbD (r + j) else x.getLsbD (r + j - 64) := by
  simp only [rotrFixed64, BitVec.getLsbD_or, BitVec.getLsbD_ushiftRight, BitVec.getLsbD_shiftLeft]
  by_cases h : r + j < 64
  · simp [h, show j < 64 - r by omega]
  · rw [if_neg h, BitVec.getLsbD_of_ge x (r + j) (by omega), show j - (64 - r) = r + j - 64 by omega]
    simp [hj, show ¬ j < 64 - r by omega]

/-- The cross-half shift of the lanes: the low `r` bits of `y` on top of `x >> r`. -/
theorem getLsbD_crossShift (x y : BitVec 32) {r j : Nat} (hr : r < 32) (hj : j < 32) :
    ((x >>> r) ^^^ (y <<< (32 - r))).getLsbD j =
      if r + j < 32 then x.getLsbD (r + j) else y.getLsbD (r + j - 32) := by
  simp only [BitVec.getLsbD_xor, BitVec.getLsbD_ushiftRight, BitVec.getLsbD_shiftLeft]
  by_cases h : r + j < 32
  · simp [h, show j < 32 - r by omega]
  · rw [if_neg h, BitVec.getLsbD_of_ge x (r + j) (by omega), show j - (32 - r) = r + j - 32 by omega]
    simp [hj, show ¬ j < 32 - r by omega]

/-- The word with high half `h` and low half `l`. -/
def join (h l : BitVec 32) : BitVec 64 := h ++ l

theorem getLsbD_join_lo (h l : BitVec 32) {j : Nat} (hj : j < 32) :
    (join h l).getLsbD j = l.getLsbD j := by
  rw [join, BitVec.getLsbD_append, if_pos hj]

theorem getLsbD_join_hi (h l : BitVec 32) {j : Nat} (hj : 32 ≤ j) :
    (join h l).getLsbD j = h.getLsbD (j - 32) := by
  rw [join, BitVec.getLsbD_append, if_neg (by omega)]

theorem join_xor (h l h' l' : BitVec 32) :
    join h l ^^^ join h' l' = join (h ^^^ h') (l ^^^ l') := BitVec.xor_append

theorem join_and (h l h' l' : BitVec 32) :
    join h l &&& join h' l' = join (h &&& h') (l &&& l') := BitVec.and_append

theorem join_not (h l : BitVec 32) : ~~~join h l = join (~~~h) (~~~l) := BitVec.not_append

theorem rotrFixed64_join_of_lt (xh xl : BitVec 32) {r : Nat} (hr : r < 32) :
    rotrFixed64 (join xh xl) r =
      join ((xh >>> r) ^^^ (xl <<< (32 - r))) ((xl >>> r) ^^^ (xh <<< (32 - r))) := by
  apply BitVec.eq_of_getLsbD_eq
  intro j hj
  rw [getLsbD_rotrFixed64 _ (by omega) hj]
  rcases (by omega : r + j < 32 ∨ (32 ≤ r + j ∧ j < 32) ∨ (32 ≤ j ∧ r + j < 64) ∨ 64 ≤ r + j)
    with h | ⟨h, hlo⟩ | ⟨hhi, h⟩ | h
  · rw [if_pos (by omega), getLsbD_join_lo _ _ h, getLsbD_join_lo _ _ (by omega),
      getLsbD_crossShift _ _ hr (by omega), if_pos h]
  · rw [if_pos (by omega), getLsbD_join_hi _ _ h, getLsbD_join_lo _ _ hlo,
      getLsbD_crossShift _ _ hr hlo, if_neg (by omega)]
  · rw [if_pos h, getLsbD_join_hi _ _ (by omega), getLsbD_join_hi _ _ hhi,
      getLsbD_crossShift _ _ hr (by omega), if_pos (by omega), show r + j - 32 = r + (j - 32) by omega]
  · rw [if_neg (by omega), getLsbD_join_lo _ _ (by omega), getLsbD_join_hi _ _ (by omega),
      getLsbD_crossShift _ _ hr (by omega), if_neg (by omega),
      show r + j - 64 = r + (j - 32) - 32 by omega]

/-- Rotating by 32 swaps the halves, so an amount above 32 uses them crosswise. -/
theorem rotrFixed64_join_of_ge (xh xl : BitVec 32) {r : Nat} (hr : r < 32) :
    rotrFixed64 (join xh xl) (32 + r) = rotrFixed64 (join xl xh) r := by
  apply BitVec.eq_of_getLsbD_eq
  intro j hj
  rw [getLsbD_rotrFixed64 _ (by omega) hj, getLsbD_rotrFixed64 _ (by omega) hj]
  rcases (by omega : r + j < 32 ∨ (32 ≤ r + j ∧ r + j < 64) ∨ 64 ≤ r + j) with h | ⟨h, h'⟩ | h
  · rw [if_pos (by omega), if_pos (by omega), getLsbD_join_hi _ _ (by omega),
      getLsbD_join_lo _ _ h, show 32 + r + j - 32 = r + j by omega]
  · rw [if_neg (by omega), if_pos h', getLsbD_join_lo _ _ (by omega), getLsbD_join_hi _ _ h,
      show 32 + r + j - 64 = r + j - 32 by omega]
  · rw [if_neg (by omega), if_neg (by omega), getLsbD_join_hi _ _ (by omega),
      getLsbD_join_lo _ _ (by omega), show 32 + r + j - 64 - 32 = r + j - 64 by omega]

/-! ### A round on words -/

/-- The state as five words. -/
@[ext]
structure Words where
  (x0 x1 x2 x3 x4 : BitVec 64)

/-- One round of Ascon-p on five words. -/
def Words.round (x : Words) (c : Byte) : Words :=
  let x0 := x.x0 ^^^ x.x4
  let x4 := x.x4 ^^^ x.x3
  let x2 := x.x2 ^^^ c.setWidth 64 ^^^ x.x1
  let t0 := x0 ^^^ (~~~x.x1 &&& x2)
  let t2 := x2 ^^^ (~~~x.x3 &&& x4)
  let t4 := x4 ^^^ (~~~x0 &&& x.x1)
  let t1 := x.x1 ^^^ (~~~x2 &&& x.x3) ^^^ t0
  let t3 := x.x3 ^^^ (~~~x4 &&& x0) ^^^ t2
  let t0 := t0 ^^^ t4
  let t2 := ~~~t2
  { x0 := t0 ^^^ rotrFixed64 t0 19 ^^^ rotrFixed64 t0 28
    x1 := t1 ^^^ rotrFixed64 t1 61 ^^^ rotrFixed64 t1 39
    x2 := t2 ^^^ rotrFixed64 t2 1 ^^^ rotrFixed64 t2 6
    x3 := t3 ^^^ rotrFixed64 t3 10 ^^^ rotrFixed64 t3 17
    x4 := t4 ^^^ rotrFixed64 t4 7 ^^^ rotrFixed64 t4 41 }

def AsconState.words (a : AsconState) : Words := ⟨a.s64 0, a.s64 1, a.s64 2, a.s64 3, a.s64 4⟩

theorem AsconState.s64_eq_join (a : AsconState) (i : Nat) :
    a.s64 i = join (a.s32 (2 * i + 1)) (a.s32 (2 * i)) := a.s64_eq_append i

theorem AsconState.words_injective {a b : AsconState} (h : a.words = b.words) : a = b := by
  simp only [words, Words.mk.injEq] at h
  obtain ⟨h0, h1, h2, h3, h4⟩ := h
  apply ext_s64
  intro i hi
  rcases (by omega : i = 0 ∨ i = 1 ∨ i = 2 ∨ i = 3 ∨ i = 4) with rfl | rfl | rfl | rfl | rfl
  · exact h0
  · exact h1
  · exact h2
  · exact h3
  · exact h4

theorem words_roundBody (a : AsconState) (c : Byte) :
    (roundBody rotrFixed64 a c).words = a.words.round c := by
  simp (disch := decide) only [roundBody, AsconState.words, Words.round, AsconState.s64_setS64,
    AsconState.s64_xorS64, Nat.reduceEqDiff, reduceIte]

/-! ### A round on lanes -/

namespace Lanes

/-- The five words whose halves are the lanes. -/
def words (x : Lanes) : Words :=
  ⟨join x.x0h x.x0l, join x.x1h x.x1l, join x.x2h x.x2l, join x.x3h x.x3l, join x.x4h x.x4l⟩

theorem words_load (a : AsconState) : (load a).words = a.words := by
  simp only [words, load, AsconState.words, AsconState.s64_eq_join]

theorem words_store (x : Lanes) (a : AsconState) : (x.store a).words = x.words := by
  simp (disch := decide) only [words, store, AsconState.words, AsconState.s64_eq_join,
    AsconState.s32_setS32, Nat.reduceMul, Nat.reduceAdd, Nat.reduceEqDiff, reduceIte]

/-- The round constant only meets the low half. -/
theorem join_xor_const (h l : BitVec 32) (c : Byte) :
    join h l ^^^ c.setWidth 64 = join h (l ^^^ c.setWidth 32) := by
  apply BitVec.eq_of_getLsbD_eq
  intro j hj
  rw [BitVec.getLsbD_xor, BitVec.getLsbD_setWidth]
  by_cases hlo : j < 32
  · rw [getLsbD_join_lo _ _ hlo, getLsbD_join_lo _ _ hlo, BitVec.getLsbD_xor,
      BitVec.getLsbD_setWidth, decide_eq_true hj, decide_eq_true hlo]
  · rw [getLsbD_join_hi _ _ (by omega), getLsbD_join_hi _ _ (by omega),
      BitVec.getLsbD_of_ge c j (by omega)]
    simp

/-- Two rotations by less than 32, as the lanes combine them. -/
theorem diffuse_lt_lt (h l : BitVec 32) (r s : Nat) (hr : r < 32) (hs : s < 32) :
    join h l ^^^ rotrFixed64 (join h l) r ^^^ rotrFixed64 (join h l) s =
      join (h ^^^ (h >>> r) ^^^ (h >>> s) ^^^ (l <<< (32 - r)) ^^^ (l <<< (32 - s)))
        (l ^^^ (l >>> r) ^^^ (l >>> s) ^^^ (h <<< (32 - r)) ^^^ (h <<< (32 - s))) := by
  rw [rotrFixed64_join_of_lt _ _ hr, rotrFixed64_join_of_lt _ _ hs, join_xor, join_xor]
  congr 1 <;> ac_rfl

/-- A rotation by less than 32 and one by more. -/
theorem diffuse_lt_ge (h l : BitVec 32) (r s : Nat) (hr : r < 32) (hs : s < 32) :
    join h l ^^^ rotrFixed64 (join h l) r ^^^ rotrFixed64 (join h l) (32 + s) =
      join (h ^^^ (h >>> r) ^^^ (l <<< (32 - r)) ^^^ (l >>> s) ^^^ (h <<< (32 - s)))
        (l ^^^ (l >>> r) ^^^ (h <<< (32 - r)) ^^^ (h >>> s) ^^^ (l <<< (32 - s))) := by
  rw [rotrFixed64_join_of_ge _ _ hs, rotrFixed64_join_of_lt _ _ hr, rotrFixed64_join_of_lt _ _ hs,
    join_xor, join_xor]
  congr 1 <;> ac_rfl

/-- Two rotations by more than 32. -/
theorem diffuse_ge_ge (h l : BitVec 32) (r s : Nat) (hr : r < 32) (hs : s < 32) :
    join h l ^^^ rotrFixed64 (join h l) (32 + r) ^^^ rotrFixed64 (join h l) (32 + s) =
      join (h ^^^ (l >>> r) ^^^ (h <<< (32 - r)) ^^^ (l >>> s) ^^^ (h <<< (32 - s)))
        (l ^^^ (h >>> r) ^^^ (l <<< (32 - r)) ^^^ (h >>> s) ^^^ (l <<< (32 - s))) := by
  rw [rotrFixed64_join_of_ge _ _ hr, rotrFixed64_join_of_ge _ _ hs, rotrFixed64_join_of_lt _ _ hr,
    rotrFixed64_join_of_lt _ _ hs, join_xor, join_xor]
  congr 1 <;> ac_rfl

/-- **The round on lanes is the round on words.** -/
theorem words_p32Round (x : Lanes) (c : Byte) : (x.p32Round c).words = x.words.round c := by
  have h4 := fun h l => diffuse_lt_ge h l 7 9 (by decide) (by decide)
  have h1 := fun h l => diffuse_ge_ge h l 29 7 (by decide) (by decide)
  have h3 := fun h l => diffuse_lt_lt h l 10 17 (by decide) (by decide)
  have h0 := fun h l => diffuse_lt_lt h l 19 28 (by decide) (by decide)
  have h2 := fun h l => diffuse_lt_lt h l 1 6 (by decide) (by decide)
  simp only [Nat.reduceAdd, Nat.reduceSub] at h0 h1 h2 h3 h4
  simp only [words, p32Round, Words.round, join_not, join_and, join_xor_const, join_xor, h0, h1,
    h2, h3, h4]

end Lanes

/-! ### The common function -/

theorem roundsFrom_of_lt (round : AsconState → Nat → AsconState) (a : AsconState) {i : Nat}
    (h : i < MAX_ROUNDS) : roundsFrom round a i = roundsFrom round (round a i) (i + 1) := by
  rw [roundsFrom, if_pos h]

theorem roundsFrom_of_ge (round : AsconState → Nat → AsconState) (a : AsconState) {i : Nat}
    (h : MAX_ROUNDS ≤ i) : roundsFrom round a i = a := by
  rw [roundsFrom, if_neg (by omega)]

/-- Eight or twelve rounds of Ascon-p. -/
def asconP (a : AsconState) : Rounds → AsconState
  | .r8 => Wolf.p8 a
  | .r12 => Wolf.p12 a

/-- The loop from the start index of `r` is the unrolled rounds. -/
theorem roundsFrom_eq_asconP (a : AsconState) (r : Rounds) :
    roundsFrom (fun a i => roundBody rotrFixed64 a (roundConstant i)) a
      (match r with | .r8 => 4 | .r12 => 0) = asconP a r := by
  cases r with
  | r8 =>
      simp (disch := decide) only [roundsFrom_of_lt, Nat.reduceAdd, roundsFrom_of_ge]
      rfl
  | r12 =>
      simp (disch := decide) only [roundsFrom_of_lt, Nat.reduceAdd, Nat.zero_add,
        roundsFrom_of_ge]
      rfl

namespace Lanes

theorem words_p32_8 (x : Lanes) (a : AsconState) (h : x.words = a.words) :
    (p32_8 roundConstant x).words = (Wolf.p8 a).words := by
  simp only [p32_8, Wolf.p8, Wolf.p, words_p32Round, words_roundBody, h]

theorem words_p32_12 (x : Lanes) (a : AsconState) (h : x.words = a.words) :
    (p32_12 roundConstant x).words = (Wolf.p12 a).words := by
  simp only [p32_12, Wolf.p12]
  apply words_p32_8
  simp only [Wolf.p, words_p32Round, words_roundBody, h]

/-- **The lanes run Ascon-p.** -/
theorem permutation_eq_asconP (a : AsconState) (r : Rounds) :
    permutation roundConstant a r.toNat = asconP a r := by
  apply AsconState.words_injective
  cases r with
  | r8 =>
      rw [permutation, if_neg (by decide), words_store]
      exact words_p32_8 _ a (words_load a)
  | r12 =>
      rw [permutation, if_pos (by decide), words_store]
      exact words_p32_12 _ a (words_load a)

end Lanes

theorem Wolf.permutation_eq_asconP (a : AsconState) (r : Rounds) :
    Wolf.permutation a r.toNat = asconP a r := by
  rw [← roundsFrom_eq_asconP]
  cases r <;> rfl

/-- **Every build of `ascon.c` runs Ascon-p.** -/
theorem Wolf.Path.permutation_eq (path : Wolf.Path) : path.permutation = asconP := by
  funext a r
  cases path with
  | lanes32 => exact Lanes.permutation_eq_asconP a r
  | looped => exact Wolf.permutation_eq_asconP a r
  | unrolled => cases r <;> rfl

theorem MaskPrf.sPermutation_eq_asconP (a : AsconState) (r : Rounds) :
    MaskPrf.sPermutation a r.toNat = asconP a r := by
  rw [← roundsFrom_eq_asconP]
  cases r <;> rfl

theorem Provider.asconPermute_eq_asconP (s : AsconState) (r : Rounds) :
    Provider.asconPermute s r.toNat = asconP s r := by
  rw [← roundsFrom_eq_asconP]
  cases r <;> rfl

theorem Verify.Perm.run_eq (perm : Verify.Perm) : perm.run = asconP := by
  funext a r
  cases perm with
  | perm64 =>
      rw [← roundsFrom_eq_asconP]
      cases r <;> rfl
  | perm32 => exact Lanes.permutation_eq_asconP a r

/-- **The five versions of the permutation are the same function.** -/
theorem permutations_agree (a : AsconState) (r : Rounds) :
    Wolf.permutation32 a r.toNat = Wolf.permutation a r.toNat ∧
      Wolf.permutationUnroll a r = Wolf.permutation a r.toNat ∧
      MaskPrf.sPermutation a r.toNat = Wolf.permutation a r.toNat ∧
      Provider.asconPermute a r.toNat = Wolf.permutation a r.toNat := by
  rw [Wolf.permutation_eq_asconP, MaskPrf.sPermutation_eq_asconP,
    Provider.asconPermute_eq_asconP]
  refine ⟨Lanes.permutation_eq_asconP a r, ?_, rfl, rfl⟩
  cases r <;> rfl

end AsconDtls
