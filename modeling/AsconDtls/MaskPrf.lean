import AsconDtls.Permutation.Agree

/-!
# The record-number mask PRF

`mask_prf_derive` of `wolfcrypt/src/mask_prf.c` and the domain-separation table
of `mask_prf.h`: `out = trunc_16(P(domsep || K || X))`.
-/

namespace AsconDtls.MaskPrf

open LittleEndian

/-- `mask_prf_domsep_idx`. -/
inductive DomsepIdx
  | dtls
  | quic
  | esp
  | oscore
deriving DecidableEq

/-- `mask_prf_domsep_table`. -/
def domsepTable : DomsepIdx → BitVec 64
  | .dtls => 0x524E44494D534B5F
  | .quic => 0x5155504E4D534B5F
  | .esp => 0x455350534E575F5F
  | .oscore => 0x4F53434F52455F5F

/-- The state that `mask_prf_derive` permutes. -/
def maskInput (key x : Vector Byte 16) (domsep : BitVec 64) : AsconState :=
  ((AsconState.zero.setS64 0 domsep).memcpy 8 key.toList).memcpy 24 x.toList

/-- `mask_prf_derive` with non-null pointers: the bytes written to `out`. -/
def maskPrfDerive (key x : Vector Byte 16) (domsep : BitVec 64) : List Byte :=
  let s := sPermutation (maskInput key x domsep) 12
  s.bytes 0 8 ++ s.bytes 8 8

theorem length_maskPrfDerive (key x : Vector Byte 16) (domsep : BitVec 64) :
    (maskPrfDerive key x domsep).length = 16 := by
  simp [maskPrfDerive]

end AsconDtls.MaskPrf
