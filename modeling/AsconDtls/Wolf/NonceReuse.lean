import AsconDtls.Wolf.Stream

/-!
# What a nonce used twice gives away

Two records under one key, nonce and associated data meet the same sponge, in
whichever direction, on whatever context and by whatever chunks they are
processed.  The ciphertext of a record is its plaintext XORed with a key stream
that depends on the whole blocks before (`getElem?_feed_encrypt`), so

* ciphertexts agree exactly as far as the plaintexts do, and
* up to the end of the block where the plaintexts first differ, the XOR of the
  ciphertexts is the XOR of the plaintexts (`nonce_reuse`).
-/

namespace AsconDtls.Wolf

open LittleEndian
open Duplex (Machine)
open Run (run run_append run_cons run_nil)

/-! ### The key stream -/

/-- The byte that byte `i` of the plaintext is XORed with. -/
def keystream (s : AsconState) (pt : List Byte) (i : Nat) : Byte :=
  (encryptMachine.feed (s, 0) (pt.take (16 * (i / 16)))).1.1.s8 (i % 16)

/-- Within a block the bytes before do not touch the one that comes next. -/
theorem s8_feed_take (s : AsconState) {pt : List Byte} {i : Nat} (hi : i < pt.length) :
    let c := (encryptMachine.feed (s, 0) (pt.take i)).1
    c.2 = i % 16 ∧ c.1.s8 (i % 16) = keystream s pt i := by
  have hdiv := Nat.div_add_mod i 16
  have hmod : i % 16 < 16 := Nat.mod_lt _ (by decide)
  let blocks := pt.take (16 * (i / 16))
  let part := (pt.drop (16 * (i / 16))).take (i % 16)
  have hsplit : pt.take i = blocks ++ part := by
    rw [← List.take_add, hdiv]
  have hblocks : blocks.length = 16 * (i / 16) := by
    rw [List.length_take]
    omega
  have hpart : part.length = i % 16 := by
    rw [List.length_take, List.length_drop]
    omega
  obtain ⟨t, p, ht⟩ : ∃ t p, (encryptMachine.feed (s, 0) blocks).1 = (t, p) := ⟨_, _, rfl⟩
  have hp : p = 0 := by
    have hpos := encryptMachine.feed_position (c := (s, 0)) (show 0 < 16 by decide) blocks
    rw [ht, hblocks, Nat.zero_add] at hpos
    exact hpos.trans (Nat.mul_mod_right ..)
  subst hp
  have habsorb : (encryptMachine.feed (s, 0) (pt.take i)).1 = (t.xorbuf 0 part, i % 16) := by
    have hlt : 0 + part.length < encryptMachine.rate := by
      rw [hpart, Nat.zero_add]
      exact hmod
    rw [hsplit, encryptMachine.feed_append, ht, encryptMachine.feed_of_lt hlt, encryptMachine,
      xorMachine_absorb 0 part t (by omega), hpart, Nat.zero_add]
  refine ⟨congrArg Prod.snd habsorb, ?_⟩
  have hnone : part[i % 16 - 0]? = none := List.getElem?_eq_none (by omega)
  simp only [habsorb]
  rw [AsconState.s8_xorbuf _ _ _ (by omega), if_pos (Nat.zero_le _), hnone, Option.getD_none,
    BitVec.xor_zero, keystream, ht]

/-- **Encryption is the XOR with the key stream.** -/
theorem getElem?_feed_encrypt (s : AsconState) (pt : List Byte) (i : Nat) :
    (encryptMachine.feed (s, 0) pt).2[i]? = pt[i]?.map (keystream s pt i ^^^ ·) := by
  rw [encryptMachine.getElem?_feed]
  by_cases hi : i < pt.length
  · obtain ⟨hpos, hbyte⟩ := s8_feed_take s hi
    have hmod : i % 16 < 16 := Nat.mod_lt _ (by decide)
    rw [List.getElem?_eq_getElem hi, Option.map_some, Option.map_some, hpos, ← hbyte]
    exact congrArg some (s8_xorS8_self _ _ (by omega))
  · rw [List.getElem?_eq_none (by omega)]
    rfl

/-- The key stream of a block depends on the blocks before. -/
theorem keystream_congr (s : AsconState) {pt pt' : List Byte} {j i : Nat}
    (h : pt.take (16 * j) = pt'.take (16 * j)) (hi : i < 16 * (j + 1)) :
    keystream s pt i = keystream s pt' i := by
  have hle : 16 * (i / 16) ≤ 16 * j := by omega
  have htake : pt.take (16 * (i / 16)) = pt'.take (16 * (i / 16)) := by
    have hboth := congrArg (List.take (16 * (i / 16))) h
    rwa [List.take_take, List.take_take, Nat.min_eq_left hle] at hboth
  rw [keystream, keystream, htake]

/-- Equal answers come from equal data. -/
theorem feed_encrypt_inj (s : AsconState) {pt pt' : List Byte} :
    (encryptMachine.feed (s, 0) pt).2 = (encryptMachine.feed (s, 0) pt').2 ↔ pt = pt' := by
  have hundo : ∀ bs, (decryptMachine.feed (s, 0) (encryptMachine.feed (s, 0) bs).2).2 = bs :=
    fun bs => congrArg Prod.snd
      (Machine.feed_inverts decrypt_inverts_encrypt (c := (s, 0)) (show 0 < 16 by decide) bs)
  refine ⟨fun h => ?_, congrArg fun bs => (encryptMachine.feed (s, 0) bs).2⟩
  rw [← hundo pt, h, hundo]

/-! ### Two records from one sponge -/

theorem take_feed_encrypt_eq_iff (s : AsconState) (pt pt' : List Byte) (n : Nat) :
    (encryptMachine.feed (s, 0) pt).2.take n = (encryptMachine.feed (s, 0) pt').2.take n ↔
      pt.take n = pt'.take n := by
  rw [← encryptMachine.feed_take, ← encryptMachine.feed_take]
  exact feed_encrypt_inj s

theorem xor_cancel_keystream (k b b' : Byte) : (k ^^^ b) ^^^ (k ^^^ b') = b ^^^ b' := by
  rw [BitVec.xor_comm k b, BitVec.xor_assoc, ← BitVec.xor_assoc k k, BitVec.xor_self,
    BitVec.zero_xor]

/-- Under one key stream the XOR of the ciphertexts is that of the plaintexts. -/
theorem xorbufout_feed_encrypt (s : AsconState) {pt pt' : List Byte} {j : Nat}
    (h : pt.take (16 * j) = pt'.take (16 * j)) :
    (xorbufout (encryptMachine.feed (s, 0) pt).2 (encryptMachine.feed (s, 0) pt').2).take
        (16 * (j + 1)) = (xorbufout pt pt').take (16 * (j + 1)) := by
  apply List.ext_getElem?
  intro i
  rw [List.getElem?_take, List.getElem?_take]
  by_cases hi : i < 16 * (j + 1)
  · rw [if_pos hi, if_pos hi, xorbufout, xorbufout, List.getElem?_zipWith, List.getElem?_zipWith,
      getElem?_feed_encrypt, getElem?_feed_encrypt, keystream_congr s h hi]
    cases pt[i]? with
    | none => rfl
    | some b =>
        cases pt'[i]? with
        | none => rfl
        | some b' => exact congrArg some (xor_cancel_keystream _ b b')
  · rw [if_neg hi, if_neg hi]

/-! ### Records in either direction -/

/-- What is done with the data of a record. -/
inductive Processing
  | encrypt (chunks : List (List Byte))
  | decrypt (chunks : List (List Byte)) (tag : Vector Byte 16)

/-- A record on a context of some build. -/
structure Session where
  build : Build
  context : AsconAEAD128
  keyFirst : Bool
  processing : Processing

/-- What the updates of a record write. -/
def updatesOut (replies : List Reply) : List Byte :=
  ((replies.drop 4).dropLast).flatMap Reply.out

namespace Session

def calls (r : Session) (key nonce : Vector Byte 16) (ad : List Byte) : List Call :=
  match r.processing with
  | .encrypt chunks => encryptCalls r.keyFirst key nonce ad chunks
  | .decrypt chunks tag => decryptCalls r.keyFirst key nonce ad chunks tag

def written (r : Session) (key nonce : Vector Byte 16) (ad : List Byte) : List Byte :=
  updatesOut (run (step r.build) r.context (r.calls key nonce ad)).2

def plaintext (r : Session) (key nonce : Vector Byte 16) (ad : List Byte) : List Byte :=
  match r.processing with
  | .encrypt chunks => chunks.flatten
  | .decrypt _ _ => r.written key nonce ad

def ciphertext (r : Session) (key nonce : Vector Byte 16) (ad : List Byte) : List Byte :=
  match r.processing with
  | .encrypt _ => r.written key nonce ad
  | .decrypt chunks _ => chunks.flatten

end Session

theorem updatesOut_recordReplies (outs : List (List Byte)) (final : Reply) :
    updatesOut (recordReplies outs final) = outs.flatten := by
  have hdrop : (recordReplies outs final).drop 4 = outs.map Reply.ok ++ [final] := by
    rw [recordReplies, List.append_assoc]
    exact List.drop_left' (List.length_replicate ..)
  rw [updatesOut, hdrop, List.dropLast_concat, List.flatMap_map]
  exact List.flatMap_id

/-- With no update nothing is written. -/
theorem updatesOut_setup (B : Build) (a : AsconAEAD128) (keyFirst : Bool)
    (key nonce : Vector Byte 16) (ad : List Byte) (final : Call) :
    updatesOut (run (step B) a (setupCalls keyFirst key nonce ad ++ [final])).2 = [] := by
  rw [run_append, run_setup]
  rfl

theorem written_encrypt (B : Build) (a : AsconAEAD128) (keyFirst : Bool)
    (key nonce : Vector Byte 16) (ad : List Byte) (chunks : List (List Byte)) :
    updatesOut (run (step B) a (encryptCalls keyFirst key nonce ad chunks)).2 =
      (aeadEncrypt (loadLE 128 key.toList) (loadLE 128 nonce.toList) ad chunks.flatten).1 := by
  cases chunks with
  | nil =>
      rw [encryptCalls, List.map_nil, List.append_nil, updatesOut_setup]
      rfl
  | cons bs chunks =>
      obtain ⟨outs, hrun, hflat, -⟩ :=
        run_encrypt B a keyFirst key nonce ad (List.cons_ne_nil bs chunks)
      rw [hrun, updatesOut_recordReplies, hflat]

theorem written_decrypt (B : Build) (a : AsconAEAD128) (keyFirst : Bool)
    (key nonce : Vector Byte 16) (ad : List Byte) (chunks : List (List Byte))
    (tag : Vector Byte 16) :
    updatesOut (run (step B) a (decryptCalls keyFirst key nonce ad chunks tag)).2 =
      (aeadDecrypt (loadLE 128 key.toList) (loadLE 128 nonce.toList) ad chunks.flatten).1 := by
  cases chunks with
  | nil =>
      rw [decryptCalls, List.map_nil, List.append_nil, updatesOut_setup]
      rfl
  | cons bs chunks =>
      obtain ⟨outs, hrun, hflat, -⟩ :=
        run_decrypt B a keyFirst key nonce ad (List.cons_ne_nil bs chunks) tag
      rw [hrun, updatesOut_recordReplies, hflat]

/-- In either direction the ciphertext is what the encryption of the plaintext answers. -/
theorem ciphertext_eq_feed (r : Session) (key nonce : Vector Byte 16) (ad : List Byte) :
    r.ciphertext key nonce ad =
      (encryptMachine.feed
        (aeadStart (loadLE 128 key.toList) (loadLE 128 nonce.toList) ad, 0)
        (r.plaintext key nonce ad)).2 := by
  obtain ⟨B, a, keyFirst, p⟩ := r
  cases p with
  | encrypt chunks => exact written_encrypt B a keyFirst key nonce ad chunks
  | decrypt chunks tag =>
      simp only [Session.ciphertext, Session.plaintext, Session.written, Session.calls,
        written_decrypt]
      exact (congrArg Prod.fst (sealFrom_openFrom (loadLE 128 key.toList) _ chunks.flatten)).symm

/-- **A nonce used twice.**  Ciphertexts agree exactly as far as the plaintexts; and where the
plaintexts agree on `j` blocks, the XOR of the ciphertexts is the XOR of the plaintexts on `j + 1`. -/
theorem nonce_reuse (key nonce : Vector Byte 16) (ad : List Byte) (r r' : Session) :
    (∀ n, (r.ciphertext key nonce ad).take n = (r'.ciphertext key nonce ad).take n ↔
      (r.plaintext key nonce ad).take n = (r'.plaintext key nonce ad).take n) ∧
      ∀ j, (r.plaintext key nonce ad).take (16 * j) = (r'.plaintext key nonce ad).take (16 * j) →
        (xorbufout (r.ciphertext key nonce ad) (r'.ciphertext key nonce ad)).take (16 * (j + 1)) =
          (xorbufout (r.plaintext key nonce ad) (r'.plaintext key nonce ad)).take
            (16 * (j + 1)) := by
  rw [ciphertext_eq_feed r, ciphertext_eq_feed r']
  exact ⟨take_feed_encrypt_eq_iff _ _ _, fun j h => xorbufout_feed_encrypt _ h⟩

end AsconDtls.Wolf
