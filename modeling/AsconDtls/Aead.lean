import AsconDtls.Sponge

/-!
# Ascon-AEAD128 and Ascon-Hash256 as duplexes

What the implementations are for, in terms of `Machine.feed` and of keys, nonces
and tags as 16-byte values:

* `aeadStart` is the sponge after key, nonce and associated data; `sealFrom` and
  `openFrom` feed the data to a sponge, and `aeadTag` closes it.
* `hash256` feeds the message to the hash sponge and squeezes four blocks.

Decryption undoes encryption and conversely (`sealFrom_eq_iff`), so a
ciphertext and tag come from at most one plaintext.
-/

namespace AsconDtls

open LittleEndian
open Duplex (Machine whileBlocks)

def ASCON_AEAD128_IV : BitVec 64 := 0x00001000808C0001
def ASCON_HASH256_IV : BitVec 64 := 0x0000080100CC0002
def ASCON_HASH256_SZ : Nat := 32

/-! ### The AEAD -/

/-- IV, key and nonce. -/
def aeadLoad (key nonce : BitVec 128) : AsconState :=
  ((AsconState.zero.setS64 0 ASCON_AEAD128_IV).setBlock 8 key).setBlock 24 nonce

/-- The permuted initial state with the key added. -/
def aeadKeyed (key : BitVec 128) (s : AsconState) : AsconState := (permutePA s).xorBlock 24 key

/-- The pad byte after the last symbol. -/
def pad (c : AsconState × Nat) : AsconState := c.1.xorS8 c.2 1

/-- A block loop over all the data, the rest and the pad byte. -/
theorem pad_feed_blocks (rate : Nat) (permute : AsconState → AsconState) (hr : 0 < rate)
    (h40 : rate ≤ 40) (s : AsconState) (data : List Byte) :
    let body (blk : List Byte) (s : AsconState) : AsconState × List Byte :=
      (permute (s.xorbuf 0 blk), [])
    let r := whileBlocks rate body s data
    (r.1.xorbuf 0 r.2.2).xorS8 r.2.2.length 1 =
      pad ((xorMachine rate permute).feed (s, 0) data).1 := by
  intro body r
  have hbody : ∀ (blk : List Byte) (s : AsconState), blk.length = rate →
      (body blk s).1 = permute ((xorMachine rate permute).absorb 0 blk s).1 := by
    intro blk s hlen
    rw [xorMachine_absorb _ _ _ (by omega)]
  have hrest : r.2.2.length < rate := Duplex.length_whileBlocks_rest hr body s data
  have hfeed : ((xorMachine rate permute).feed (s, 0) data).1 =
      (((xorMachine rate permute).absorb 0 r.2.2 r.1).1, r.2.2.length) :=
    (xorMachine rate permute).feed_absorbBlocks hr hbody s data
  rw [hfeed, xorMachine_absorb _ _ _ (show 0 + r.2.2.length ≤ 40 by omega)]
  rfl

/-- Associated data: nothing when empty, otherwise absorbed and padded. -/
def aeadAD (ad : List Byte) (s : AsconState) : AsconState :=
  if ad = [] then s else permutePB (pad (encryptMachine.feed (s, 0) ad).1)

/-- The domain separation between associated data and data. -/
def domainSep (s : AsconState) : AsconState := s.xorS64 4 (1#64 <<< 63)

/-- The sponge that the data meets. -/
def aeadStart (key nonce : BitVec 128) (ad : List Byte) : AsconState :=
  domainSep (aeadAD ad (aeadKeyed key (aeadLoad key nonce)))

/-- The state that the tag is read from. -/
def aeadClose (key : BitVec 128) (c : AsconState × Nat) : AsconState :=
  aeadKeyed key ((pad c).xorBlock 16 key)

def aeadTag (key : BitVec 128) (c : AsconState × Nat) : List Byte := (aeadClose key c).bytes 24 16

/-- Ciphertext and tag of data that meet the sponge `s`. -/
def sealFrom (key : BitVec 128) (s : AsconState) (pt : List Byte) : List Byte × List Byte :=
  let r := encryptMachine.feed (s, 0) pt
  (r.2, aeadTag key r.1)

/-- Plaintext and the tag that the ciphertext should carry. -/
def openFrom (key : BitVec 128) (s : AsconState) (ct : List Byte) : List Byte × List Byte :=
  let r := decryptMachine.feed (s, 0) ct
  (r.2, aeadTag key r.1)

def aeadEncrypt (key nonce : BitVec 128) (ad pt : List Byte) : List Byte × List Byte :=
  sealFrom key (aeadStart key nonce ad) pt

def aeadDecrypt (key nonce : BitVec 128) (ad ct : List Byte) : List Byte × List Byte :=
  openFrom key (aeadStart key nonce ad) ct

theorem length_aeadTag (key : BitVec 128) (c : AsconState × Nat) : (aeadTag key c).length = 16 :=
  AsconState.length_bytes ..

theorem openFrom_sealFrom (key : BitVec 128) (s : AsconState) (pt : List Byte) :
    openFrom key s (sealFrom key s pt).1 = (pt, (sealFrom key s pt).2) := by
  have h := Machine.feed_inverts decrypt_inverts_encrypt (c := (s, 0))
    (show 0 < ASCON_AEAD128_RATE by decide) pt
  simp only [openFrom, sealFrom, h]

theorem sealFrom_openFrom (key : BitVec 128) (s : AsconState) (ct : List Byte) :
    sealFrom key s (openFrom key s ct).1 = (ct, (openFrom key s ct).2) := by
  have h := Machine.feed_inverts encrypt_inverts_decrypt (c := (s, 0))
    (show 0 < ASCON_AEAD128_RATE by decide) ct
  simp only [openFrom, sealFrom, h]

/-- **Encryption and decryption are inverse.** -/
theorem sealFrom_eq_iff (key : BitVec 128) (s : AsconState) (pt ct tag : List Byte) :
    sealFrom key s pt = (ct, tag) ↔ openFrom key s ct = (pt, tag) := by
  refine ⟨?_, ?_⟩
  · intro h
    have hd := openFrom_sealFrom key s pt
    rwa [h] at hd
  · intro h
    have he := sealFrom_openFrom key s ct
    rwa [h] at he

/-- Encryption in terms of decryption. -/
theorem aeadEncrypt_eq_iff (key nonce : BitVec 128) (ad pt ct tag : List Byte) :
    aeadEncrypt key nonce ad pt = (ct, tag) ↔
      pt = (aeadDecrypt key nonce ad ct).1 ∧ tag = (aeadDecrypt key nonce ad ct).2 := by
  rw [aeadEncrypt, sealFrom_eq_iff, ← aeadDecrypt, Prod.ext_iff]
  exact and_congr eq_comm eq_comm

/-! ### The hash -/

/-- `n` blocks squeezed out, permuting before each. -/
def squeeze (permute : AsconState → AsconState) (rate : Nat) :
    Nat → AsconState → AsconState × List Byte
  | 0, s => (s, [])
  | n + 1, s =>
    let s := permute s
    let t := squeeze permute rate n s
    (t.1, s.bytes 0 rate ++ t.2)

def hashStart : AsconState := permutePA (AsconState.zero.setS64 0 ASCON_HASH256_IV)

/-- The digest from the state and position after the message. -/
def hashClose (c : AsconState × Nat) : List Byte :=
  (squeeze permutePA ASCON_HASH256_RATE (ASCON_HASH256_SZ / ASCON_HASH256_RATE) (pad c)).2

def hash256 (msg : List Byte) : List Byte := hashClose (hashMachine.feed (hashStart, 0) msg).1

theorem length_squeeze (permute : AsconState → AsconState) (rate n : Nat) (s : AsconState) :
    (squeeze permute rate n s).2.length = n * rate := by
  induction n generalizing s with
  | zero => simp [squeeze]
  | succ n ih =>
      simp only [squeeze, List.length_append, AsconState.length_bytes, ih, Nat.succ_mul]
      omega

end AsconDtls
