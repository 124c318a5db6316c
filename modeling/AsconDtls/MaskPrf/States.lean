import AsconDtls.MaskPrf
import AsconDtls.Permutation.Bijective

/-!
# The states of the mask PRF

`maskInput` lays domain separation, key and sample side by side, so it can be read back
(`maskInput_injective`), and Ascon-P is a bijection.  So the permuted state is another
one for every other domain, key or sample (`mask_states_distinct`), and a collision of
masks is one of the truncation.
-/

namespace AsconDtls.MaskPrf

open LittleEndian

theorem maskInput_eq (key x : Vector Byte 16) (domsep : BitVec 64) :
    (maskInput key x domsep).mem =
      putAt (putAt (putAt (0 : BitVec 320) 0 domsep) 8 (loadLE 128 key.toList)) 24
        (loadLE 128 x.toList) := by
  rw [maskInput, AsconState.memcpy_eq_setBlock _ _ (by simp),
    AsconState.memcpy_eq_setBlock _ _ (by simp)]
  rfl

theorem maskInput_domsep (key x : Vector Byte 16) (domsep : BitVec 64) :
    readAt (maskInput key x domsep).mem 0 64 = domsep := by
  rw [maskInput_eq, readAt_putAt_of_disjoint _ _ _ _ _ (by decide) (by decide),
    readAt_putAt_of_disjoint _ _ _ _ _ (by decide) (by decide),
    readAt_putAt_same _ _ _ (by decide)]

theorem maskInput_key (key x : Vector Byte 16) (domsep : BitVec 64) :
    readAt (maskInput key x domsep).mem 8 128 = loadLE 128 key.toList := by
  rw [maskInput_eq, readAt_putAt_of_disjoint _ _ _ _ _ (by decide) (by decide),
    readAt_putAt_same _ _ _ (by decide)]

theorem maskInput_sample (key x : Vector Byte 16) (domsep : BitVec 64) :
    readAt (maskInput key x domsep).mem 24 128 = loadLE 128 x.toList := by
  rw [maskInput_eq, readAt_putAt_same _ _ _ (by decide)]

theorem loadLE_vector_injective {v v' : Vector Byte 16}
    (h : loadLE 128 v.toList = loadLE 128 v'.toList) : v = v' :=
  Vector.toList_inj.mp (loadLE_injective (by simp) (by simp) h)

/-- **The input of the permutation gives back domain, key and sample.** -/
theorem maskInput_injective {key key' x x' : Vector Byte 16} {domsep domsep' : BitVec 64}
    (h : maskInput key x domsep = maskInput key' x' domsep') :
    domsep = domsep' ∧ key = key' ∧ x = x' := by
  refine ⟨?_, ?_, ?_⟩
  · rw [← maskInput_domsep key x domsep, h, maskInput_domsep]
  · apply loadLE_vector_injective
    rw [← maskInput_key key x domsep, h, maskInput_key]
  · apply loadLE_vector_injective
    rw [← maskInput_sample key x domsep, h, maskInput_sample]

/-- The state inside `mask_prf_derive` after `s_permutation(&s, 12)`. -/
def permuted (key x : Vector Byte 16) (domsep : BitVec 64) : AsconState :=
  sPermutation (maskInput key x domsep) 12

theorem maskPrfDerive_eq (key x : Vector Byte 16) (domsep : BitVec 64) :
    maskPrfDerive key x domsep = (permuted key x domsep).bytes 0 16 := by
  rw [maskPrfDerive, permuted, AsconState.bytes, AsconState.bytes, ← bytesAt_add]
  rfl

/-- **Ascon-P is a bijection, and no two inputs of the mask PRF share a state.**  Each path of
`permutation` in `ascon.c` is a bijection of the states for 8 and for 12 rounds; triples of
domain, key and sample that differ have different states after the permutation. -/
theorem mask_states_distinct :
    (∀ (path : Wolf.Path) (r : Rounds), Function.Bijective (path.permutation · r)) ∧
    ∀ (domsep domsep' : BitVec 64) (key key' x x' : Vector Byte 16),
      (domsep, key, x) ≠ (domsep', key', x') → permuted key x domsep ≠ permuted key' x' domsep' := by
  refine ⟨?_, ?_⟩
  · intro path r
    rw [path.permutation_eq]
    exact asconP_bijective r
  · intro domsep domsep' key key' x x' hne h
    have h12 : ∀ a, sPermutation a 12 = asconP a .r12 := fun a => sPermutation_eq_asconP a .r12
    rw [permuted, permuted, h12, h12] at h
    obtain ⟨rfl, rfl, rfl⟩ := maskInput_injective (asconP_injective .r12 h)
    exact hne rfl

end AsconDtls.MaskPrf
