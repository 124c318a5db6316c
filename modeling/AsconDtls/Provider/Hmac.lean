import AsconDtls.Lib.Hmac
import AsconDtls.Permutation.Bijective
import AsconDtls.Provider.Hash

/-!
# HMAC-Ascon-Hash256

`digest_ascon_hash256.c` registers the hash with the 8-byte rate as its block
size, "deliberate" so that the HMAC of the surrounding stack hashes a 32-byte key
and then keys the inner and the outer hash with the first 8 bytes of the result.
`hmac_oracle.c` spells that chain out (`Tools.hmacChain`); it is HMAC over the
registered digest (`hmacChain_eq_hmac`).

So HMAC has at most `2 ^ 64` keyed functions (`hmac_key_classes`), and keys whose
hashes start alike are equivalent (`equivalent_keys`).
-/

namespace AsconDtls.Provider

open LittleEndian
open Duplex (Machine)
open Hmac (Digest hmac keyBlock keyPad keyPad_eq_iff hmac_congr keyBlock_eq_iff length_keyPad)

/-! ### The registered digest -/

/-- The context after `ascon_hash256_init` and one update. -/
def startedWith (data : List Byte) : AsconHash256Ctx :=
  (AsconHash256Ctx.mk .zero 0).coreInit.coreUpdate data

/-- One update between `init` and `final`. -/
def asconHash256Digest (msg : List Byte) : List Byte := (startedWith msg).coreFinal.2

theorem startedWith_eq (data : List Byte) :
    startedWith data = AsconHash256Ctx.absorbing (hashMachine.feed (hashStart, 0) data).1 := by
  rw [startedWith, AsconHash256Ctx.coreInit_eq, AsconHash256Ctx.coreUpdate_absorbing (by decide)]

theorem asconHash256Digest_eq (msg : List Byte) : asconHash256Digest msg = hash256 msg := by
  rw [asconHash256Digest, startedWith_eq, AsconHash256Ctx.coreFinal_absorbing, hash256]

theorem length_hash256 (msg : List Byte) : (hash256 msg).length = ASCON_HASH256_SZ := by
  rw [hash256, hashClose, length_squeeze]
  rfl

/-- `IMPLEMENT_digest_functions(ascon_hash256, …, ASCON_HASH256_RATE, 32, …)`. -/
def asconHash256 : Digest Byte where
  blockSize := ASCON_HASH256_RATE
  digestSize := 32
  hash := asconHash256Digest
  length_hash := fun msg => by rw [asconHash256Digest_eq, length_hash256]; rfl

def IPAD : Byte := 0x36
def OPAD : Byte := 0x5c

/-- The HMAC of the stack, on the registered digest. -/
def hmacAsconHash256 (key msg : List Byte) : List Byte :=
  hmac 0 (· ^^^ IPAD) (· ^^^ OPAD) asconHash256 key msg

/-! ### The chain of the oracle -/

namespace Tools

/-- `ascon_hash` of `hmac_oracle.c`, on a local context. -/
def asconHash (B : Wolf.Build) (h : Wolf.AsconHash256) (input : List Byte) : List Byte :=
  let h := (h.init B).1
  let h := (h.update B (.ptr input)).1
  (h.final B .ptr).2.out

/-- The manual chain of `hmac_oracle.c` and `ascon_kdf_kat.c` on a key that is
longer than the block. -/
def hmacChain (B : Wolf.Build) (h : Wolf.AsconHash256) (key msg : List Byte) : List Byte :=
  let hkey := asconHash B h key
  let ipad := (List.range 8).map fun i => hkey.getD i 0 ^^^ 0x36
  let opad := (List.range 8).map fun i => hkey.getD i 0 ^^^ 0x5c
  let inner := asconHash B h (ipad ++ msg)
  asconHash B h (opad ++ inner)

theorem asconHash_eq (B : Wolf.Build) (h : Wolf.AsconHash256) (input : List Byte) :
    asconHash B h input = hash256 input := by
  simp only [asconHash, Wolf.AsconHash256.init_eq]
  rw [Wolf.AsconHash256.update_absorbing B (by decide), Wolf.AsconHash256.final_absorbing, hash256]
  rfl

/-- **The oracle's chain is HMAC over the registered digest.** -/
theorem hmacChain_eq_hmac (B : Wolf.Build) (h : Wolf.AsconHash256) {key : List Byte}
    (hlong : 8 < key.length) (msg : List Byte) :
    hmacChain B h key msg = hmacAsconHash256 key msg := by
  have hpad : ∀ x : Byte, ((List.range 8).map fun i => (hash256 key).getD i 0 ^^^ x) =
      keyPad 0 asconHash256 (· ^^^ x) key := by
    intro x
    rw [keyPad]
    apply List.ext_getElem
    · simp only [List.length_map, List.length_range, List.length_ofFn]
      rfl
    · intro i hi hi'
      rw [List.getElem_map, List.getElem_range, List.getElem_ofFn,
        Hmac.keyBlock_of_lt 0 asconHash256 hlong]
      exact congrArg (fun d => List.getD d i 0 ^^^ x) (asconHash256Digest_eq key).symm
  have hhash : asconHash256.hash = hash256 := funext asconHash256Digest_eq
  simp only [hmacChain, asconHash_eq, hpad, hmacAsconHash256, hmac, hhash]
  rfl

end Tools

/-! ### The keyed states -/

/-- HMAC goes on from the two keyed contexts and asks for nothing else. -/
theorem hmac_eq_startedWith (key msg : List Byte) :
    let inner := startedWith (keyPad 0 asconHash256 (· ^^^ IPAD) key)
    let outer := startedWith (keyPad 0 asconHash256 (· ^^^ OPAD) key)
    hmacAsconHash256 key msg =
      (outer.coreUpdate (inner.coreUpdate msg).coreFinal.2).coreFinal.2 := by
  intro inner outer
  have hupdate : ∀ data more : List Byte,
      startedWith (data ++ more) = (startedWith data).coreUpdate more := by
    intro data more
    have hlt := hashMachine.feed_lt (c := (hashStart, 0)) (by decide) data
    rw [startedWith_eq, startedWith_eq, AsconHash256Ctx.coreUpdate_absorbing hlt,
      hashMachine.feed_append]
  simp only [inner, outer, ← hupdate]
  rfl

/-- A full block absorbed from the start determines it. -/
theorem startedWith_injective {block block' : List Byte} (h8 : block.length = 8)
    (h8' : block'.length = 8) (h : startedWith block = startedWith block') : block = block' := by
  have hfeed : ∀ {blk : List Byte}, blk.length = 8 →
      (hashMachine.feed (hashStart, 0) blk).1 = (permutePA (hashStart.xorbuf 0 blk), 0) := by
    intro blk hblk
    have hfull : 0 + blk.length = hashMachine.rate := by
      rw [hblk]
      rfl
    rw [hashMachine.feed_of_eq (by decide) hfull, hashMachine, xorMachine_absorb _ _ _ (by omega)]
    rfl
  rw [startedWith_eq, startedWith_eq, hfeed h8, hfeed h8', AsconHash256Ctx.absorbing,
    AsconHash256Ctx.absorbing, AsconHash256Ctx.mk.injEq] at h
  have hstate : hashStart.xorbuf 0 block = hashStart.xorbuf 0 block' := asconP_injective .r12 h.1
  apply List.ext_getElem (by omega)
  intro i hi hi'
  have hbyte := congrArg (AsconState.s8 · i) hstate
  simp only [AsconState.s8_xorbuf _ _ _ (show i < 40 by omega), Nat.zero_le, if_true, Nat.sub_zero,
    List.getElem?_eq_getElem hi, List.getElem?_eq_getElem hi', Option.getD_some] at hbyte
  exact (BitVec.xor_right_inj _).mp hbyte

/-- The keyed context tells the blocks of two keys apart. -/
theorem startedWith_keyPad_eq_iff (x : Byte) (key key' : List Byte) :
    startedWith (keyPad 0 asconHash256 (· ^^^ x) key) =
        startedWith (keyPad 0 asconHash256 (· ^^^ x) key') ↔
      keyBlock 0 asconHash256 key = keyBlock 0 asconHash256 key' := by
  have hx : Function.Injective fun b : Byte => b ^^^ x :=
    fun a b h => (BitVec.xor_left_inj x).mp h
  rw [← keyPad_eq_iff 0 asconHash256 hx]
  refine ⟨?_, ?_⟩
  · exact startedWith_injective (length_keyPad ..) (length_keyPad ..)
  · intro h
    rw [h]

/-! ### Traffic secrets -/

/-- What HMAC keeps of a 32-byte key: the first 8 bytes of its hash. -/
def keyedBytes (key : Vector Byte 32) : List Byte :=
  (asconHash256Digest key.toList).take ASCON_HASH256_RATE

theorem keyBlock_eq_iff_keyedBytes (K K' : Vector Byte 32) :
    keyBlock 0 asconHash256 K.toList = keyBlock 0 asconHash256 K'.toList ↔
      keyedBytes K = keyedBytes K' := by
  have hlong : ∀ K : Vector Byte 32, asconHash256.blockSize < K.toList.length := by
    intro K
    rw [Vector.length_toList]
    decide
  exact keyBlock_eq_iff 0 asconHash256 (hlong K) (hlong K') (by decide)

/-- **HMAC keys by 8 bytes.**  Two 32-byte keys reach the same inner, and the same
outer, keyed state exactly when their hashes start with the same 8 bytes, and
then their HMACs agree on every message; the keys have at most `2 ^ 64` HMACs. -/
theorem hmac_key_classes :
    (∀ (K K' : Vector Byte 32) (x : Byte),
        startedWith (keyPad 0 asconHash256 (· ^^^ x) K.toList) =
            startedWith (keyPad 0 asconHash256 (· ^^^ x) K'.toList) ↔
          keyedBytes K = keyedBytes K') ∧
      (∀ K K' : Vector Byte 32, keyedBytes K = keyedBytes K' →
        ∀ msg, hmacAsconHash256 K.toList msg = hmacAsconHash256 K'.toList msg) ∧
      (Set.range fun K : Vector Byte 32 => hmacAsconHash256 K.toList).encard ≤ (2 ^ 64 : ℕ) := by
  refine ⟨?_, ?_, ?_⟩
  · intro K K' x
    rw [startedWith_keyPad_eq_iff, keyBlock_eq_iff_keyedBytes]
  · intro K K' h msg
    exact congrFun (hmac_congr _ _ _ _ ((keyBlock_eq_iff_keyedBytes K K').mpr h)) msg
  · have hcard : Fintype.card Byte ^ asconHash256.blockSize = 2 ^ 64 := by
      rw [← FinEnum.card_eq_fintypeCard, FinEnum.card_bitVec]
      rfl
    rw [← hcard]
    exact Hmac.encard_range_hmac_le 0 _ _ asconHash256 _

/-- A key whose hash starts with `2e 2c 40 43 8e 90 81 7e`. -/
def collidingKey : Vector Byte 32 := ⟨#[0, 0, 0, 0, 0, 0, 0, 0, 0, 0, 0, 0, 0, 0, 0, 0,
  0, 0, 0, 0, 0, 0, 0, 0, 0x0b, 0x91, 0x5b, 0x21, 0x88, 0x3e, 0x3c, 0xa7], rfl⟩

/-- Another one. -/
def collidingKey' : Vector Byte 32 := ⟨#[0, 0, 0, 0, 0, 0, 0, 0, 0, 0, 0, 0, 0, 0, 0, 0,
  0, 0, 0, 0, 0, 0, 0, 0, 0x61, 0x39, 0x6a, 0xa7, 0x0d, 0xcc, 0x68, 0x0b], rfl⟩

theorem keyedBytes_collide : keyedBytes collidingKey = keyedBytes collidingKey' := by
  decide +kernel

/-- The two keys reach the same inner state. -/
theorem hmac_key_classes_example :
    startedWith (keyPad 0 asconHash256 (· ^^^ IPAD) collidingKey.toList) =
        startedWith (keyPad 0 asconHash256 (· ^^^ IPAD) collidingKey'.toList) ∧
      hmacAsconHash256 collidingKey.toList [] = hmacAsconHash256 collidingKey'.toList [] :=
  ⟨(hmac_key_classes.1 collidingKey collidingKey' IPAD).mpr keyedBytes_collide,
    hmac_key_classes.2.1 collidingKey collidingKey' keyedBytes_collide []⟩

/-- **Equivalent keys**: two distinct traffic secrets that no message tells apart. -/
theorem equivalent_keys :
    ¬ ∀ K K' : Vector Byte 32, K ≠ K' →
      ∃ msg, hmacAsconHash256 K.toList msg ≠ hmacAsconHash256 K'.toList msg := by
  intro h
  obtain ⟨msg, hmsg⟩ := h collidingKey collidingKey' (by decide)
  exact hmsg (congrFun (hmac_congr _ _ _ _
    ((keyBlock_eq_iff_keyedBytes _ _).mpr keyedBytes_collide)) msg)

end AsconDtls.Provider
