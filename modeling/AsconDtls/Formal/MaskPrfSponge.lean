import AsconDtls.Formal.MaskPrfEc
import AsconDtls.Lib.KeyedPerm
import AsconDtls.MaskPrf.States

/-!
# The mask PRF against an attacker who has the permutation

`mask_prf_derive` with a uniform permutation of the states in place of Ascon-P, the
four domains of `mask_prf_domsep_table` under one key.  The attacker asks for masks
and may ask the permutation itself, forwards and backwards, in any order: this is the
step that `mask_prf.ec` leaves to its axiom `Hreducible`.

It is an instance of `KeyedPerm`: domain, key and sample can be read back from the state
that is permuted, and the mask is 128 of its 320 bits.
-/

namespace AsconDtls.Formal

open LittleEndian OracleGame MaskPrf

/-- `mask_prf_derive` with `P` in place of `s_permutation(&s, 12)`. -/
def deriveWith (P : AsconState → AsconState) (key x : Vector Byte 16) (domsep : BitVec 64) :
    List Byte :=
  let s := P (maskInput key x domsep)
  s.bytes 0 8 ++ s.bytes 8 8

theorem deriveWith_sPermutation (key x : Vector Byte 16) (domsep : BitVec 64) :
    deriveWith (sPermutation · 12) key x domsep = maskPrfDerive key x domsep := rfl

/-! ### Finite types -/

/-- Sixteen bytes as one little-endian number. -/
def blockEquiv : Vector Byte 16 ≃ BitVec 128 where
  toFun v := loadLE 128 v.toList
  invFun b := ⟨(bytesAt b 0 16).toArray, by simp⟩
  left_inv v := by
    have hlen : 128 = 8 * v.toList.length := by rw [Vector.length_toList]
    have hbytes := bytesAt_loadLE v.toList hlen
    rw [Vector.length_toList] at hbytes
    exact Vector.toList_inj.mp hbytes
  right_inv b := loadLE_bytesAt b (by decide)

def stateEquiv : AsconState ≃ BitVec 320 where
  toFun s := s.mem
  invFun m := ⟨m⟩
  left_inv _ := rfl
  right_inv _ := rfl

/-- The two words that are written to `out`, and the three that are not. -/
def wordsEquiv : BitVec 320 ≃ BitVec 128 × BitVec 192 where
  toFun m := (m.extractLsb' 0 128, m.extractLsb' 128 192)
  invFun p := p.2 ++ p.1
  left_inv _ := BitVec.extractLsb'_append_extractLsb' (w := 192)
  right_inv _ := Prod.ext BitVec.extractLsb'_append_eq_right BitVec.extractLsb'_append_eq_left

def splitOut : AsconState ≃ Vector Byte 16 × BitVec 192 :=
  (stateEquiv.trans wordsEquiv).trans (blockEquiv.symm.prodCongr (Equiv.refl _))

instance : FinEnum (Vector Byte 16) := FinEnum.ofEquiv _ blockEquiv

instance : FinEnum AsconState := FinEnum.ofEquiv _ stateEquiv

instance : Inhabited AsconState := ⟨.zero⟩

instance : FinEnum DomsepIdx := FinEnum.ofList [.dtls, .quic, .esp, .oscore] (by
  intro d
  cases d <;> decide)

theorem splitOut_fst (s : AsconState) : (splitOut s).1.toList = s.bytes 0 16 := by
  have hlow : bytesAt (s.mem.extractLsb' 0 128) 0 16 = bytesAt s.mem 0 16 := by
    apply bytesAt_congr
    intro i hi
    have hread : byteAt (readAt s.mem 0 128) (0 + i) = byteAt s.mem (0 + (0 + i)) :=
      byteAt_readAt s.mem 0 (by omega)
    simpa [readAt] using hread
  exact hlow

/-! ### The games -/

/-- A domain of the table and a sample. -/
abbrev MaskPoint := DomsepIdx × Vector Byte 16

/-- A mask of some domain, the permutation or its inverse. -/
abbrev SpongeAdv := Adv (KeyedPerm.Query MaskPoint AsconState)
  (KeyedPerm.Answer (Vector Byte 16) AsconState)

/-- The state that is permuted for a mask. -/
def maskState (key : Vector Byte 16) (p : MaskPoint) : AsconState :=
  maskInput key p.2 (domsepTable p.1)

/-- `mask_prf_derive` under a secret key, next to the uniform permutation that it calls. -/
noncomputable def spongeReal (A : SpongeAdv) : ℚ :=
  (KeyedPerm.gReal maskState splitOut A).prob true

/-- A random function for each domain, next to a uniform permutation. -/
noncomputable def spongeIdeal (A : SpongeAdv) : ℚ :=
  (KeyedPerm.gIdeal A).prob true

/-- A mask of the real game is the output of `mask_prf_derive`. -/
theorem mask_eq_deriveWith (π : Equiv.Perm AsconState) (key : Vector Byte 16) (p : MaskPoint) :
    (splitOut (π (maskState key p))).1.toList = deriveWith π key p.2 (domsepTable p.1) := by
  rw [splitOut_fst, deriveWith, AsconState.bytes, AsconState.bytes, AsconState.bytes,
    ← bytesAt_add]
  rfl

theorem domsepTable_injective : Function.Injective domsepTable := by
  intro d d' h
  cases d <;> cases d' <;> first | rfl | exact absurd h (by decide)

theorem maskState_injective (k k' : Vector Byte 16) (p p' : MaskPoint)
    (h : maskState k p = maskState k' p') : k = k' ∧ p = p' := by
  obtain ⟨hd, hk, hx⟩ := maskInput_injective h
  exact ⟨hk, Prod.ext (domsepTable_injective hd) hx⟩

/-! ### The bound -/

theorem card_block : (Fintype.card (Vector Byte 16) : ℚ) = 2 ^ 128 := by
  rw [Fintype.card_congr blockEquiv, FinDist.card_bitVec]

theorem card_state : (Fintype.card AsconState : ℚ) = 2 ^ 320 := by
  rw [Fintype.card_congr stateEquiv, FinDist.card_bitVec]

theorem card_maskPoint : (Fintype.card MaskPoint : ℚ) = 2 ^ 130 := by
  have hd : Fintype.card DomsepIdx = 4 := rfl
  rw [Fintype.card_prod, Nat.cast_mul, card_block, hd]
  norm_num

/-- What one query can lose: the key, then the hidden words of `j` answers. -/
theorem loss_le (j : Nat) : KeyedPerm.loss (Vector Byte 16) MaskPoint (BitVec 192) AsconState j ≤
    1 / 2 ^ 128 + (j : ℚ) * (2 / 2 ^ 192) := by
  have hkey : max ((1 : ℚ) / 2 ^ 128) (2 ^ 130 / 2 ^ 320) = 1 / 2 ^ 128 := by
    apply max_eq_left
    rw [div_le_div_iff₀ (by positivity) (by positivity), one_mul, ← pow_add]
    exact pow_le_pow_right₀ one_le_two (by decide)
  have hstate : (j : ℚ) / 2 ^ 320 ≤ j / 2 ^ 192 :=
    div_le_div_of_nonneg_left (Nat.cast_nonneg j) (by positivity)
      (pow_le_pow_right₀ one_le_two (by decide))
  have htwice : (j : ℚ) * (2 / 2 ^ 192) = j / 2 ^ 192 + j / 2 ^ 192 := by ring
  rw [KeyedPerm.loss, card_block, card_maskPoint, card_state, FinDist.card_bitVec, hkey, htwice,
    ← add_assoc]
  exact add_le_add le_rfl hstate

theorem sum_loss_le (q : Nat) : ∑ i ∈ Finset.range q,
    KeyedPerm.loss (Vector Byte 16) MaskPoint (BitVec 192) AsconState i ≤ deltaPInst q := by
  have hsum : ∑ i ∈ Finset.range q, (1 / 2 ^ 128 + (i : ℚ) * (2 / 2 ^ 192)) =
      q / 2 ^ 128 + (q * (q - 1) : ℚ) / 2 ^ 192 := by
    induction q with
    | zero => simp
    | succ q ih =>
      rw [Finset.sum_range_succ, ih]
      push_cast
      ring
  refine (Finset.sum_le_sum fun i _ => loss_le i).trans ?_
  have hq : (q * (q - 1) : ℚ) / 2 ^ 192 ≤ (q : ℚ) ^ 2 / 2 ^ 192 := by
    apply div_le_div_of_nonneg_right _ (by norm_num)
    have hq : (0 : ℚ) ≤ q := Nat.cast_nonneg q
    linarith
  rw [hsum, deltaPInst_eq]
  linarith

/-- **The mask PRF is a random function to an attacker with `q` queries**, to the masks of the four
domains, to the permutation and to its inverse, up to `q ^ 2 / 2 ^ 192 + q / 2 ^ 128`. -/
theorem mask_prf_sponge {q : Nat} {A : SpongeAdv} (hA : A.AtMost q) :
    |spongeReal A - spongeIdeal A| ≤ deltaPInst q :=
  (KeyedPerm.gReal_sub_gIdeal_le maskState_injective hA).trans (sum_loss_le q)

/-- A mask, and the permutation at a guess of its state. -/
def stateGuess : SpongeAdv :=
  .query (.mask (.dtls, blockEquiv.symm 0)) fun y => .query (.forward .zero) fun y' =>
    .ret (match y, y' with
      | .block b, .state s => (splitOut s).1 == b
      | _, _ => false)

theorem mask_prf_sponge_two : |spongeReal stateGuess - spongeIdeal stateGuess| ≤ deltaPInst 2 := by
  have hA : stateGuess.AtMost 2 := fun _ _ => trivial
  exact_mod_cast mask_prf_sponge hA

end AsconDtls.Formal
