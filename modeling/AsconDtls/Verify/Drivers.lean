import AsconDtls.Aead

/-!
# The one-shot drivers of `verify_ascon_32bit.c`

`ascon_hash` and `ascon_aead_encrypt` run the whole input through the
permutation passed to them.  The offset `off` into a buffer is the suffix of the
list that starts there.  `asconHash_eq` and `asconAeadEncrypt_eq` say that they
compute `hash256` and `aeadEncrypt`.
-/

namespace AsconDtls.Verify

open LittleEndian
open Duplex (whileBlocks Machine)

/-- `ascon_hash`. -/
def asconHash (perm : AsconState → Rounds → AsconState) (msg : List Byte) : List Byte :=
  let s := perm (AsconState.zero.setS64 0 ASCON_HASH256_IV) .r12
  let body (blk : List Byte) (s : AsconState) : AsconState × List Byte :=
    (perm (s.xorbuf 0 blk) .r12, [])
  let r := whileBlocks ASCON_HASH256_RATE body s msg
  let s := r.1.xorbuf 0 r.2.2
  let s := s.xorS8 r.2.2.length 1
  (squeeze (fun s => perm s .r12) ASCON_HASH256_RATE (ASCON_HASH256_SZ / ASCON_HASH256_RATE) s).2

/-- `((const word64*)key)[i]`. -/
def keyWord (key : Vector Byte 16) (i : Nat) : BitVec 64 := loadLE 64 (key.toList.drop (8 * i))

/-- `ascon_aead_encrypt`: ciphertext and tag. -/
def asconAeadEncrypt (perm : AsconState → Rounds → AsconState) (key nonce : Vector Byte 16)
    (ad pt : List Byte) : List Byte × List Byte :=
  let s := AsconState.zero.setS64 0 ASCON_AEAD128_IV
  let s := s.memcpy 8 key.toList
  let s := s.memcpy 24 nonce.toList
  let s := perm s .r12
  let s := s.xorS64 3 (keyWord key 0)
  let s := s.xorS64 4 (keyWord key 1)
  let s :=
    if 0 < ad.length then
      let body (blk : List Byte) (s : AsconState) : AsconState × List Byte :=
        (perm (s.xorbuf 0 blk) .r8, [])
      let r := whileBlocks ASCON_AEAD128_RATE body s ad
      let s := r.1.xorbuf 0 r.2.2
      let s := s.xorS8 r.2.2.length 1
      perm s .r8
    else s
  let s := s.xorS64 4 (1#64 <<< 63)
  let body (blk : List Byte) (s : AsconState) : AsconState × List Byte :=
    let r := xorStore s 0 blk
    (perm r.1 .r8, r.2)
  let r := whileBlocks ASCON_AEAD128_RATE body s pt
  let t := xorStore r.1 0 r.2.2
  let ct := r.2.1 ++ t.2
  let s := t.1.xorS8 r.2.2.length 1
  let s := s.xorS64 2 (keyWord key 0)
  let s := s.xorS64 3 (keyWord key 1)
  let s := perm s .r12
  let s := s.xorS64 3 (keyWord key 0)
  let s := s.xorS64 4 (keyWord key 1)
  (ct, s.bytes 24 16)

/-! ### They compute the AEAD and the hash -/

/-- The words of the key are the halves of its 16-byte value. -/
theorem keyWord_eq_readAt (key : Vector Byte 16) (i : Nat) (hi : i < 2) :
    keyWord key i = readAt (loadLE 128 key.toList) (8 * i) 64 := by
  apply ext_byteAt
  intro j hj
  rw [keyWord, byteAt_loadLE _ (by omega), byteAt_readAt _ _ (by omega),
    byteAt_loadLE _ (by omega), List.getElem?_drop]

/-- The driver's hash is `hash256`. -/
theorem asconHash_eq (perm : Perm) (msg : List Byte) : asconHash perm.run msg = hash256 msg := by
  have hperm : perm.run = asconP := perm.run_eq
  have hpad := pad_feed_blocks ASCON_HASH256_RATE permutePA (by decide) (by decide)
    hashStart msg
  rw [hash256, hashClose, hashMachine, ← hpad, hperm]
  rfl

/-- Both words of the key, XORed in one after the other. -/
theorem xorS64_keyWord (s : AsconState) (i : Nat) (key : Vector Byte 16) :
    (s.xorS64 i (keyWord key 0)).xorS64 (i + 1) (keyWord key 1) =
      s.xorBlock (8 * i) (loadLE 128 key.toList) := by
  rw [keyWord_eq_readAt key 0 (by decide), keyWord_eq_readAt key 1 (by decide)]
  exact s.xorS64_xorS64 i _

/-- The loop over the plaintext and the last partial block. -/
theorem encryptLoop_eq_feed (s : AsconState) (pt : List Byte) :
    let body (blk : List Byte) (s : AsconState) : AsconState × List Byte :=
      let r := xorStore s 0 blk
      (permutePB r.1, r.2)
    let r := whileBlocks ASCON_AEAD128_RATE body s pt
    let t := xorStore r.1 0 r.2.2
    encryptMachine.feed (s, 0) pt = ((t.1, r.2.2.length), r.2.1 ++ t.2) := by
  intro body r t
  have hstore : ∀ s i bs, xorStore s i bs = encryptMachine.absorb i bs s := xorStore_eq_absorb
  have hbody : ∀ (blk : List Byte) (s : AsconState), blk.length = encryptMachine.rate →
      body blk s = (encryptMachine.permute (encryptMachine.absorb 0 blk s).1,
        (encryptMachine.absorb 0 blk s).2) := by
    intro blk s _
    simp only [body, hstore]
    rfl
  have hfeed : encryptMachine.feed (s, 0) pt =
      (((encryptMachine.absorb 0 r.2.2 r.1).1, r.2.2.length),
        r.2.1 ++ (encryptMachine.absorb 0 r.2.2 r.1).2) :=
    encryptMachine.feed_whileBlocks (by decide) hbody s pt
  rw [hfeed, ← hstore]

/-- **The driver's AEAD is `aeadEncrypt`.** -/
theorem asconAeadEncrypt_eq (perm : Perm) (key nonce : Vector Byte 16) (ad pt : List Byte) :
    asconAeadEncrypt perm.run key nonce ad pt =
      aeadEncrypt (loadLE 128 key.toList) (loadLE 128 nonce.toList) ad pt := by
  have hperm : perm.run = asconP := perm.run_eq
  have hkey : key.toList.length = 16 := by simp
  have hnonce : nonce.toList.length = 16 := by simp
  have had : ∀ s : AsconState,
      (if 0 < ad.length then
        let body (blk : List Byte) (s : AsconState) : AsconState × List Byte :=
          (permutePB (s.xorbuf 0 blk), [])
        let r := whileBlocks ASCON_AEAD128_RATE body s ad
        permutePB ((r.1.xorbuf 0 r.2.2).xorS8 r.2.2.length 1)
      else s) = aeadAD ad s := by
    intro s
    have hpad := pad_feed_blocks ASCON_AEAD128_RATE permutePB (by decide) (by decide) s ad
    simp only at hpad
    simp only [aeadAD, encryptMachine, ← hpad]
    cases ad with
    | nil => rfl
    | cons b ad => rfl
  have hdata := encryptLoop_eq_feed (aeadStart (loadLE 128 key.toList) (loadLE 128 nonce.toList) ad)
    pt
  simp only at hdata
  rw [aeadEncrypt, sealFrom, hdata, aeadTag, aeadClose, aeadKeyed, pad, hperm]
  simp only [aeadStart, ← had, aeadKeyed, aeadLoad, ← xorS64_keyWord _ 3, ← xorS64_keyWord _ 2,
    ← AsconState.memcpy_eq_setBlock _ _ hkey, ← AsconState.memcpy_eq_setBlock _ _ hnonce]
  rfl

end AsconDtls.Verify
