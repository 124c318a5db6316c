import AsconDtls.Lib.Duplex
import AsconDtls.Permutation.Agree

/-!
# The Ascon sponge as a duplex machine

Both directions of the AEAD and the hash take their data byte by byte into the
rate.  `xorMachine` XORs a byte into the state and answers the state byte, which
is encryption and, when the answer is ignored, absorption; `putMachine` answers
the XOR of the state byte with the symbol and stores the symbol, which is
decryption.  `putMachine_inverts`: the second undoes the first.
-/

namespace AsconDtls

open LittleEndian
open Duplex (Machine)

/-- XOR the byte in, answer the new state byte. -/
def xorMachine (rate : Nat) (permute : AsconState → AsconState) : Machine AsconState Byte where
  rate := rate
  step i b s := (s.xorS8 i b, (s.xorS8 i b).s8 i)
  permute := permute

/-- Store the byte, answer its XOR with the old state byte. -/
def putMachine (rate : Nat) (permute : AsconState → AsconState) : Machine AsconState Byte where
  rate := rate
  step i b s := (s.setS8 i b, s.s8 i ^^^ b)
  permute := permute

/-- `out[i] = a[i] ^ b[i]`. -/
def xorbufout (a b : List Byte) : List Byte := List.zipWith (· ^^^ ·) a b

/-- `for (i = 0; i < n; i++) { s8[p + i] ^= in[i]; out[i] = s8[p + i]; }`. -/
def xorStore (s : AsconState) (p : Nat) : List Byte → AsconState × List Byte
  | [] => (s, [])
  | b :: bs =>
    let s := s.xorS8 p b
    let r := xorStore s (p + 1) bs
    (r.1, s.s8 p :: r.2)

/-- `for (i = 0; i < n; i++) { out[i] = s8[p + i] ^ ct[i]; s8[p + i] = ct[i]; }`. -/
def putStore (s : AsconState) (p : Nat) : List Byte → AsconState × List Byte
  | [] => (s, [])
  | b :: bs =>
    let r := putStore (s.setS8 p b) (p + 1) bs
    (r.1, (s.s8 p ^^^ b) :: r.2)

variable {rate : Nat} {permute : AsconState → AsconState}

theorem xorStore_eq_absorb (s : AsconState) (p : Nat) (bs : List Byte) :
    xorStore s p bs = (xorMachine rate permute).absorb p bs s := by
  induction bs generalizing s p with
  | nil => rfl
  | cons b bs ih =>
      simp only [xorStore, Machine.absorb, ih]
      rfl

theorem putStore_eq_absorb (s : AsconState) (p : Nat) (bs : List Byte) :
    putStore s p bs = (putMachine rate permute).absorb p bs s := by
  induction bs generalizing s p with
  | nil => rfl
  | cons b bs ih =>
      simp only [putStore, Machine.absorb, ih]
      rfl

theorem s8_xorS8_self (a : AsconState) (b : Byte) {i : Nat} (hi : i < 40) :
    (a.xorS8 i b).s8 i = a.s8 i ^^^ b := by
  rw [AsconState.s8_xorS8 _ _ _ hi, if_pos rfl]

theorem AsconState.xorbuf_cons (a : AsconState) (i : Nat) (b : Byte) (bs : List Byte) :
    a.xorbuf i (b :: bs) = (a.xorS8 i b).xorbuf (i + 1) bs := rfl

theorem AsconState.memcpy_cons (a : AsconState) (i : Nat) (b : Byte) (bs : List Byte) :
    a.memcpy i (b :: bs) = (a.setS8 i b).memcpy (i + 1) bs := rfl

/-- **Encrypting inside a block**: `xorbuf` and then a copy out of the state. -/
theorem xorMachine_absorb (i : Nat) (bs : List Byte) (s : AsconState) (h : i + bs.length ≤ 40) :
    (xorMachine rate permute).absorb i bs s = (s.xorbuf i bs, (s.xorbuf i bs).bytes i bs.length) := by
  induction bs generalizing i s with
  | nil => rfl
  | cons b bs ih =>
      rw [List.length_cons] at h
      simp only [Machine.absorb, ih (i + 1) _ (by omega), List.length_cons,
        AsconState.bytes_succ, AsconState.xorbuf_cons]
      have hlater : ((s.xorS8 i b).xorbuf (i + 1) bs).s8 i = (s.xorS8 i b).s8 i := by
        rw [AsconState.s8_xorbuf _ _ _ (by omega), if_neg (by omega), BitVec.xor_zero]
      rw [hlater]
      rfl

/-- **Decrypting inside a block**: XOR out of the state and then a copy into it. -/
theorem putMachine_absorb (i : Nat) (bs : List Byte) (s : AsconState) (h : i + bs.length ≤ 40) :
    (putMachine rate permute).absorb i bs s =
      (s.memcpy i bs, xorbufout (s.bytes i bs.length) bs) := by
  induction bs generalizing i s with
  | nil => rfl
  | cons b bs ih =>
      rw [List.length_cons] at h
      simp only [Machine.absorb, ih (i + 1) _ (by omega), List.length_cons,
        AsconState.bytes_succ, AsconState.memcpy_cons]
      have hlater : ∀ j, i + 1 ≤ j → j < i + 1 + bs.length → (s.setS8 i b).s8 j = s.s8 j := by
        intro j hj hj'
        rw [AsconState.s8_setS8 _ _ _ (by omega), if_neg (by omega)]
      have hbytes : ((putMachine rate permute).step i b s).1.bytes (i + 1) bs.length =
          s.bytes (i + 1) bs.length := AsconState.bytes_congr hlater
      rw [hbytes]
      rfl

/-- **Decryption undoes encryption byte by byte**, and the states coincide. -/
theorem putMachine_inverts (hrate : rate ≤ 40) :
    (putMachine rate permute).Inverts (xorMachine rate permute) where
  rate_eq := rfl
  permute_eq := rfl
  step_eq := by
    intro i b s hi
    have hi40 : i < 40 := Nat.lt_of_lt_of_le hi hrate
    have hstate : s.setS8 i ((s.xorS8 i b).s8 i) = s.xorS8 i b := by
      apply AsconState.ext_s8
      intro j hj
      rw [AsconState.s8_setS8 _ _ _ hj]
      by_cases h : j = i
      · rw [if_pos h, h]
      · rw [if_neg h, AsconState.s8_xorS8 _ _ _ hj, if_neg h, BitVec.xor_zero]
    simp only [putMachine, xorMachine, hstate, Prod.mk.injEq, true_and]
    rw [s8_xorS8_self _ _ hi40, ← BitVec.xor_assoc, BitVec.xor_self, BitVec.zero_xor]

/-- Encryption undoes decryption. -/
theorem xorMachine_inverts (hrate : rate ≤ 40) :
    (xorMachine rate permute).Inverts (putMachine rate permute) where
  rate_eq := rfl
  permute_eq := rfl
  step_eq := by
    intro i b s hi
    have hi40 : i < 40 := Nat.lt_of_lt_of_le hi hrate
    have hbyte : s.s8 i ^^^ (s.s8 i ^^^ b) = b := by
      rw [← BitVec.xor_assoc, BitVec.xor_self, BitVec.zero_xor]
    have hstate : s.xorS8 i (s.s8 i ^^^ b) = s.setS8 i b := by
      apply AsconState.ext_s8
      intro j hj
      rw [AsconState.s8_setS8 _ _ _ hj, AsconState.s8_xorS8 _ _ _ hj]
      by_cases h : j = i
      · rw [if_pos h, if_pos h, h, hbyte]
      · rw [if_neg h, if_neg h, BitVec.xor_zero]
    simp only [putMachine, xorMachine, hstate, Prod.mk.injEq, true_and]
    rw [AsconState.s8_setS8 _ _ _ hi40, if_pos rfl]

/-! ### The three instances -/

def ASCON_AEAD128_RATE : Nat := 16
def ASCON_HASH256_RATE : Nat := 8

/-- Ascon-P with `PB` rounds. -/
def permutePB (s : AsconState) : AsconState := asconP s .r8

/-- Ascon-P with `PA` rounds, which are also the rounds of the hash. -/
def permutePA (s : AsconState) : AsconState := asconP s .r12

def encryptMachine : Machine AsconState Byte := xorMachine ASCON_AEAD128_RATE permutePB
def decryptMachine : Machine AsconState Byte := putMachine ASCON_AEAD128_RATE permutePB
def hashMachine : Machine AsconState Byte := xorMachine ASCON_HASH256_RATE permutePA

theorem decrypt_inverts_encrypt : decryptMachine.Inverts encryptMachine :=
  putMachine_inverts (by decide)

theorem encrypt_inverts_decrypt : encryptMachine.Inverts decryptMachine :=
  xorMachine_inverts (by decide)

end AsconDtls
