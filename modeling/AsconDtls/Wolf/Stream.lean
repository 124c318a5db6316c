import AsconDtls.Verify.Drivers
import AsconDtls.Wolf.Aead

/-!
# Streaming through the wolfSSL AEAD

A record is `Init`, `SetKey` and `SetNonce` in either order, `SetAD`, one or more
updates and a final.  Along the way the context is `ready`: its flags are set and
its sponge is a state and a position of the duplex machine of the direction.

* `run_setup`: the four calls before the data reach `aeadStart`.
* `run_updates`: the updates are `feedChunks`, in either direction.
* `run_encrypt`, `run_decrypt`: the replies of a whole record.
* `encrypt_stream_eq_oneshot`: the chunks give what the one-shot driver gives.
* `decrypt_accepts_iff`: decryption accepts what encryption makes, and nothing else.
-/

namespace AsconDtls.Wolf

open LittleEndian
open Duplex (Machine threePhase)
open Run (run run_append run_cons run_nil)
open AsconAEAD128

/-! ### The calls of a record -/

/-- The calls before the data. -/
def setupCalls (keyFirst : Bool) (key nonce : Vector Byte 16) (ad : List Byte) : List Call :=
  if keyFirst then [.init, .setKey (some key), .setNonce (some nonce), .setAD (.ptr ad)]
  else [.init, .setNonce (some nonce), .setKey (some key), .setAD (.ptr ad)]

def encryptCalls (keyFirst : Bool) (key nonce : Vector Byte 16) (ad : List Byte)
    (chunks : List (List Byte)) : List Call :=
  setupCalls keyFirst key nonce ad ++ chunks.map (fun bs => .encryptUpdate (.ptr bs)) ++
    [.encryptFinal .ptr]

def decryptCalls (keyFirst : Bool) (key nonce : Vector Byte 16) (ad : List Byte)
    (chunks : List (List Byte)) (tag : Vector Byte 16) : List Call :=
  setupCalls keyFirst key nonce ad ++ chunks.map (fun bs => .decryptUpdate (.ptr bs)) ++
    [.decryptFinal (some tag)]

/-- Four successful calls, the outputs of the updates, the reply of the final. -/
def recordReplies (outs : List (List Byte)) (final : Reply) : List Reply :=
  List.replicate 4 (.ok []) ++ outs.map .ok ++ [final]

/-! ### Contexts with all flags set -/

/-- All flags set, the sponge at `c`. -/
def ready (iv : Vector (BitVec 64) 2) (key : BitVec 128) (op : Op) (c : AsconState × Nat) :
    AsconAEAD128 :=
  { state := c.1, key := key, iv := iv, lastBlkSz := c.2, op := op, keySet := true,
    nonceSet := true, adSet := true }

theorem permutation_eq (B : Build) : B.permutation = asconP := B.path.permutation_eq

theorem xorS64_keyWord (s : AsconState) (a : AsconAEAD128) (i : Nat) :
    (s.xorS64 i (a.keyWord 0)).xorS64 (i + 1) (a.keyWord 1) = s.xorBlock (8 * i) a.key :=
  s.xorS64_xorS64 i a.key

theorem init_iv (iv : Vector (BitVec 64) 2) (hzero : 0 < 2) (hone : 1 < 2) :
    #v[iv[0], iv[1]] = iv := by
  apply Vector.ext
  intro i hi
  match i, hi with
  | 0, _ => rfl
  | 1, _ => rfl

theorem absorbAD_eq (B : Build) (s : AsconState) (ad : List Byte) :
    (if 0 < ad.length then absorbAD B s ad else s) = aeadAD ad s := by
  have hpad := pad_feed_blocks ASCON_AEAD128_RATE permutePB (by decide) (by decide) s ad
  simp only at hpad
  simp only [aeadAD, encryptMachine, ← hpad, absorbAD, permutation_eq]
  cases ad with
  | nil => rfl
  | cons b ad => rfl

/-- A key that has just been copied in. -/
theorem memcpy_key (m : BitVec 128) (key : Vector Byte 16) :
    memcpy m 0 key.toList = loadLE 128 key.toList :=
  memcpy_zero_eq_loadLE m (by decide) key.toList (by simp)

/-- The state once key and nonce are set. -/
theorem aeadLoad_eq (key nonce : Vector Byte 16) :
    aeadLoad (loadLE 128 key.toList) (loadLE 128 nonce.toList) =
      (((AsconState.zero.setS64 0 ASCON_AEAD128_IV).setBlock 8 (loadLE 128 key.toList)).memcpy 24
        nonce.toList) := by
  rw [AsconState.memcpy_eq_setBlock _ _ (by simp)]
  rfl

/-- The same state when the nonce comes first. -/
theorem aeadLoad_eq' (key nonce : Vector Byte 16) :
    aeadLoad (loadLE 128 key.toList) (loadLE 128 nonce.toList) =
      (((AsconState.zero.setS64 0 ASCON_AEAD128_IV).memcpy 24 nonce.toList).setBlock 8
        (loadLE 128 key.toList)) := by
  rw [AsconState.memcpy_eq_setBlock _ _ (by simp)]
  exact congrArg AsconState.mk (putAt_comm_of_disjoint _ _ _ _ _ (by omega))

theorem setKey_fresh (a : AsconAEAD128) (key : Vector Byte 16) (h : a.keySet = false) :
    a.setKey (some key) =
      ({ a with
        key := loadLE 128 key.toList
        state := a.state.setBlock 8 (loadLE 128 key.toList)
        keySet := true }, .ok []) := by
  rw [← a.state.setS64_setS64 1]
  simp only [setKey, h, memcpy_key, Bool.false_eq_true, if_false]
  rfl

theorem setNonce_fresh (a : AsconAEAD128) (nonce : Vector Byte 16) (h : a.nonceSet = false) :
    a.setNonce (some nonce) =
      ({ a with state := a.state.memcpy 24 nonce.toList, nonceSet := true }, .ok []) := by
  simp only [setNonce, h, Bool.false_eq_true, if_false]

/-- Key and nonce set, `SetAD` reaches `aeadStart`. -/
theorem setAD_loaded (B : Build) (a : AsconAEAD128) (nonce : BitVec 128) (ad : List Byte)
    (hs : a.state = aeadLoad a.key nonce) (hk : a.keySet = true) (hn : a.nonceSet = true) :
    setAD B a (.ptr ad) =
      ({ a with state := aeadStart a.key nonce ad, adSet := true }, .ok []) := by
  simp only [setAD, Src.bad, Src.data, hk, hn, hs, absorbAD_eq, permutation_eq]
  rw [xorS64_keyWord]
  rfl

/-- **The calls before the data reach `aeadStart`.** -/
theorem run_setup (B : Build) (a : AsconAEAD128) (keyFirst : Bool) (key nonce : Vector Byte 16)
    (ad : List Byte) :
    run (step B) a (setupCalls keyFirst key nonce ad) =
      (ready a.iv (loadLE 128 key.toList) .notSet
        (aeadStart (loadLE 128 key.toList) (loadLE 128 nonce.toList) ad, 0),
        List.replicate 4 (.ok [])) := by
  have hinit : a.init =
      ({ zero with iv := a.iv, state := AsconState.zero.setS64 0 ASCON_AEAD128_IV }, .ok []) := by
    simp only [init, init_iv]
    rfl
  cases keyFirst with
  | true =>
      simp only [setupCalls, if_true, run_cons, run_nil, step, hinit]
      rw [setKey_fresh _ _ rfl, setNonce_fresh _ _ rfl,
        setAD_loaded B _ _ ad (aeadLoad_eq key nonce).symm rfl rfl]
      rfl
  | false =>
      simp only [setupCalls, Bool.false_eq_true, if_false, run_cons, run_nil, step, hinit]
      rw [setNonce_fresh _ _ rfl, setKey_fresh _ _ rfl,
        setAD_loaded B _ _ ad (aeadLoad_eq' key nonce).symm rfl rfl]
      rfl

/-! ### The data -/

/-- One update in either direction is `feed` of the direction's machine. -/
theorem update_ready (B : Build) {D : Machine AsconState Byte} {dir : Op}
    {part : Nat → List Byte → AsconState → AsconState × List Byte} (hrate : D.rate = 16)
    (hperm : D.permute = permutePB)
    (hpart : ∀ i bs s, i + bs.length ≤ 16 → part i bs s = D.absorb i bs s)
    (iv : Vector (BitVec 64) 2) (key : BitVec 128) {op : Op} (hop : op = .notSet ∨ op = dir)
    {c : AsconState × Nat} (hc : c.2 < 16) (bs : List Byte) :
    update B dir part (ready iv key op c) (.ptr bs) =
      (ready iv key dir (D.feed c bs).1, .ok (D.feed c bs).2) := by
  have hphase : threePhase ASCON_AEAD128_RATE
      (fun s => B.permutation s ASCON_AEAD128_ROUNDS_PB) part c bs = D.feed c bs := by
    have hpart' : ∀ i bs s, i + bs.length ≤ D.rate → part i bs s = D.absorb i bs s := by
      rw [hrate]
      exact hpart
    have hfeed := D.threePhase_eq_feed hpart' (c := c) (by omega) bs
    rw [hrate, hperm] at hfeed
    rw [permutation_eq]
    exact hfeed
  have hproc : ∀ op, process B part { ready iv key op c with op := dir } bs =
      (ready iv key dir (D.feed c bs).1, .ok (D.feed c bs).2) := by
    intro op
    simp only [process, ready, hphase]
  rcases hop with rfl | rfl
  · exact hproc .notSet
  · cases op with
    | notSet => exact hproc .notSet
    | encrypt => exact hproc .encrypt
    | decrypt => exact hproc .decrypt

/-- What the updates of one direction do to a ready context. -/
theorem run_updates (B : Build) {D : Machine AsconState Byte} {dir : Op} {call : List Byte → Call}
    {iv : Vector (BitVec 64) 2} {key : BitVec 128} (hrate : D.rate = 16)
    (hcall : ∀ op c bs, op = .notSet ∨ op = dir → c.2 < 16 →
      step B (ready iv key op c) (call bs) =
        (ready iv key dir (D.feed c bs).1, .ok (D.feed c bs).2))
    {op : Op} (hop : op = .notSet ∨ op = dir) {c : AsconState × Nat} (hc : c.2 < 16)
    {chunks : List (List Byte)} (hne : chunks ≠ []) :
    run (step B) (ready iv key op c) (chunks.map call) =
      (ready iv key dir (D.feedChunks c chunks).1, (D.feedChunks c chunks).2.map .ok) := by
  induction chunks generalizing op c with
  | nil => exact absurd rfl hne
  | cons bs chunks ih =>
      rw [List.map_cons, run_cons, hcall op c bs hop hc]
      cases chunks with
      | nil => rfl
      | cons bs' chunks =>
          have hlt : (D.feed c bs).1.2 < 16 := by
            have hfeed := D.feed_lt (c := c) (by omega) bs
            omega
          rw [ih (.inr rfl) hlt (by simp)]
          rfl

theorem encryptUpdate_ready (B : Build) (iv : Vector (BitVec 64) 2) (key : BitVec 128) (op : Op)
    (c : AsconState × Nat) (bs : List Byte) (hop : op = .notSet ∨ op = .encrypt) (hc : c.2 < 16) :
    step B (ready iv key op c) (.encryptUpdate (.ptr bs)) =
      (ready iv key .encrypt (encryptMachine.feed c bs).1, .ok (encryptMachine.feed c bs).2) :=
  update_ready B rfl rfl (fun i bs s h => (xorMachine_absorb i bs s (by omega)).symm) iv key hop hc
    bs

theorem decryptUpdate_ready (B : Build) (iv : Vector (BitVec 64) 2) (key : BitVec 128) (op : Op)
    (c : AsconState × Nat) (bs : List Byte) (hop : op = .notSet ∨ op = .decrypt) (hc : c.2 < 16) :
    step B (ready iv key op c) (.decryptUpdate (.ptr bs)) =
      (ready iv key .decrypt (decryptMachine.feed c bs).1, .ok (decryptMachine.feed c bs).2) :=
  update_ready B rfl rfl (fun i bs s h => (putMachine_absorb i bs s (by omega)).symm) iv key hop hc
    bs

/-! ### The finals -/

theorem tag_finalize (B : Build) (iv : Vector (BitVec 64) 2) (key : BitVec 128) (op : Op)
    (c : AsconState × Nat) : (finalize B (ready iv key op c)).tag = aeadTag key c := by
  rw [aeadTag, aeadClose, aeadKeyed, ← AsconState.xorS64_xorS64 _ 2,
    ← AsconState.xorS64_xorS64 _ 3, tag, finalize, permutation_eq]
  rfl

theorem encryptFinal_ready (B : Build) (iv : Vector (BitVec 64) 2) (key : BitVec 128)
    (c : AsconState × Nat) :
    encryptFinal B (ready iv key .encrypt c) .ptr =
      (finalize B (ready iv key .encrypt c), .ok (aeadTag key c)) := by
  rw [← tag_finalize B iv key .encrypt c]
  rfl

theorem decryptFinal_ready (B : Build) (iv : Vector (BitVec 64) 2) (key : BitVec 128)
    (c : AsconState × Nat) (T : Vector Byte 16) :
    decryptFinal B (ready iv key .decrypt c) (some T) =
      (finalize B (ready iv key .decrypt c),
        .fail (if B.constantCompare T.toList (aeadTag key c) = 0 then .ok else .asconAuthE)) := by
  simp only [decryptFinal, tag_finalize]
  rw [if_neg (by simp [ready]), if_neg (by simp [ready])]
  by_cases hcmp : B.constantCompare T.toList (aeadTag key c) = 0
  · rw [if_neg (not_not.mpr hcmp), if_pos hcmp]
    rfl
  · rw [if_pos hcmp, if_neg hcmp]

/-! ### Whole records -/

/-- **The replies of an encrypted record.** -/
theorem run_encrypt (B : Build) (a : AsconAEAD128) (keyFirst : Bool) (key nonce : Vector Byte 16)
    (ad : List Byte) {chunks : List (List Byte)} (hne : chunks ≠ []) :
    let r := aeadEncrypt (loadLE 128 key.toList) (loadLE 128 nonce.toList) ad chunks.flatten
    ∃ outs : List (List Byte),
      (run (step B) a (encryptCalls keyFirst key nonce ad chunks)).2 =
        recordReplies outs (.ok r.2) ∧
      outs.flatten = r.1 ∧ outs.map List.length = chunks.map List.length := by
  intro r
  let c := (aeadStart (loadLE 128 key.toList) (loadLE 128 nonce.toList) ad, 0)
  have hr : r = ((encryptMachine.feedChunks c chunks).2.flatten,
      aeadTag (loadLE 128 key.toList) (encryptMachine.feedChunks c chunks).1) := by
    simp only [r, aeadEncrypt, sealFrom, encryptMachine.feedChunks_flatten, c]
  refine ⟨(encryptMachine.feedChunks c chunks).2, ?_, ?_, encryptMachine.length_feedChunks c chunks⟩
  · rw [encryptCalls, run_append, run_append, run_setup,
      run_updates B rfl (encryptUpdate_ready B a.iv (loadLE 128 key.toList)) (.inl rfl) (by simp) hne,
      run_cons, run_nil, step, encryptFinal_ready, hr]
    rfl
  · rw [hr]

/-- **The replies of a decrypted record.** -/
theorem run_decrypt (B : Build) (a : AsconAEAD128) (keyFirst : Bool) (key nonce : Vector Byte 16)
    (ad : List Byte) {chunks : List (List Byte)} (hne : chunks ≠ []) (T : Vector Byte 16) :
    let r := aeadDecrypt (loadLE 128 key.toList) (loadLE 128 nonce.toList) ad chunks.flatten
    ∃ outs : List (List Byte),
      (run (step B) a (decryptCalls keyFirst key nonce ad chunks T)).2 =
        recordReplies outs
          (.fail (if B.constantCompare T.toList r.2 = 0 then .ok else .asconAuthE)) ∧
      outs.flatten = r.1 ∧ outs.map List.length = chunks.map List.length := by
  intro r
  let c := (aeadStart (loadLE 128 key.toList) (loadLE 128 nonce.toList) ad, 0)
  have hr : r = ((decryptMachine.feedChunks c chunks).2.flatten,
      aeadTag (loadLE 128 key.toList) (decryptMachine.feedChunks c chunks).1) := by
    simp only [r, aeadDecrypt, openFrom, decryptMachine.feedChunks_flatten, c]
  refine ⟨(decryptMachine.feedChunks c chunks).2, ?_, ?_, decryptMachine.length_feedChunks c chunks⟩
  · rw [decryptCalls, run_append, run_append, run_setup,
      run_updates B rfl (decryptUpdate_ready B a.iv (loadLE 128 key.toList)) (.inl rfl) (by simp) hne,
      run_cons, run_nil, step, decryptFinal_ready, hr]
    rfl
  · rw [hr]

/-! ### Against the one-shot driver -/

/-- **Streaming encryption is the one-shot Ascon-AEAD128**, however the plaintext
is cut and whatever the context held. -/
theorem encrypt_stream_eq_oneshot (B : Build) (perm : Verify.Perm) (a : AsconAEAD128)
    (keyFirst : Bool) (key nonce : Vector Byte 16) (ad : List Byte) (chunks : List (List Byte))
    (hne : chunks ≠ []) :
    ∃ outs : List (List Byte),
      (run (step B) a (encryptCalls keyFirst key nonce ad chunks)).2 =
        recordReplies outs
          (.ok (Verify.asconAeadEncrypt perm.run key nonce ad chunks.flatten).2) ∧
      outs.flatten = (Verify.asconAeadEncrypt perm.run key nonce ad chunks.flatten).1 ∧
      outs.map List.length = chunks.map List.length := by
  rw [Verify.asconAeadEncrypt_eq]
  exact run_encrypt B a keyFirst key nonce ad hne

/-- One byte of associated data and three chunks, the second empty. -/
theorem encrypt_stream_eq_oneshot_example :
    let key : Vector Byte 16 := Vector.replicate 16 1#8
    let B : Build := ⟨.lanes32, fun x y => if x = y then 0 else 1⟩
    ∃ outs : List (List Byte),
      (run (step B) zero (encryptCalls true key key [7#8] [[1#8, 2#8], [], [3#8]])).2 =
        recordReplies outs
          (.ok (Verify.asconAeadEncrypt Verify.Perm.perm64.run key key [7#8] [1#8, 2#8, 3#8]).2) ∧
      outs.flatten =
        (Verify.asconAeadEncrypt Verify.Perm.perm64.run key key [7#8] [1#8, 2#8, 3#8]).1 ∧
      outs.map List.length = [2, 0, 1] :=
  encrypt_stream_eq_oneshot _ _ zero true _ _ [7#8] [[1#8, 2#8], [], [3#8]] (by simp)

/-- The run on these chunks answers ciphertext and tag. -/
def Encrypted (B : Build) (a : AsconAEAD128) (keyFirst : Bool) (key nonce : Vector Byte 16)
    (ad : List Byte) (chunks : List (List Byte)) (ct : List Byte) (T : Vector Byte 16) : Prop :=
  ∃ outs : List (List Byte), outs.flatten = ct ∧
    (run (step B) a (encryptCalls keyFirst key nonce ad chunks)).2 =
      recordReplies outs (.ok T.toList)

/-- `Encrypt(key, nonce, ad, pt) = (ct, T)`: on any context, by any chunking. -/
def Encrypts (B : Build) (key nonce : Vector Byte 16) (ad pt ct : List Byte)
    (T : Vector Byte 16) : Prop :=
  ∀ a keyFirst chunks, chunks ≠ [] → chunks.flatten = pt →
    Encrypted B a keyFirst key nonce ad chunks ct T

theorem recordReplies_injective {outs outs' : List (List Byte)} {f f' : Reply}
    (h : recordReplies outs f = recordReplies outs' f') : outs = outs' ∧ f = f' := by
  obtain ⟨houts, hf⟩ := List.append_inj' h rfl
  have hok : Function.Injective Reply.ok := fun x y hxy => congrArg Reply.out hxy
  refine ⟨hok.list_map (List.append_cancel_left houts), ?_⟩
  exact (List.cons.inj hf).1

theorem encrypted_iff (B : Build) (a : AsconAEAD128) (keyFirst : Bool) (key nonce : Vector Byte 16)
    (ad : List Byte) {chunks : List (List Byte)} (hne : chunks ≠ []) (ct : List Byte)
    (T : Vector Byte 16) :
    Encrypted B a keyFirst key nonce ad chunks ct T ↔
      aeadEncrypt (loadLE 128 key.toList) (loadLE 128 nonce.toList) ad chunks.flatten =
        (ct, T.toList) := by
  obtain ⟨outs, hrun, hflat, -⟩ := run_encrypt B a keyFirst key nonce ad hne
  refine ⟨?_, ?_⟩
  · rintro ⟨outs', hct, hreplies⟩
    rw [hrun] at hreplies
    obtain ⟨rfl, hT⟩ := recordReplies_injective hreplies
    exact Prod.ext (hflat.symm.trans hct) (congrArg Reply.out hT)
  · intro h
    rw [h] at hrun hflat
    exact ⟨outs, hflat, hrun⟩

/-- Any chunking settles what all chunkings encrypt to. -/
theorem encrypts_iff (B : Build) (key nonce : Vector Byte 16) (ad pt ct : List Byte)
    (T : Vector Byte 16) :
    Encrypts B key nonce ad pt ct T ↔
      aeadEncrypt (loadLE 128 key.toList) (loadLE 128 nonce.toList) ad pt = (ct, T.toList) := by
  refine ⟨?_, ?_⟩
  · intro h
    have hone := h zero true [pt] (by simp) (by simp)
    rw [encrypted_iff B _ _ _ _ _ (by simp)] at hone
    simpa using hone
  · intro h a keyFirst chunks hne hflat
    rw [encrypted_iff B _ _ _ _ _ hne, hflat]
    exact h

theorem ret_eq_ok {x : Int} : (if x = 0 then Ret.ok else .asconAuthE) = .ok ↔ x = 0 := by
  by_cases h : x = 0
  · simp [h]
  · simp [h]

/-- **Decryption accepts exactly what encryption makes.**  The final answers 0 or
`ASCON_AUTH_E`; it answers 0 if and only if some plaintext encrypts to the
ciphertext and the tag, and that plaintext is what the updates wrote.  An
encryption of any chunking, by any build, is accepted. -/
theorem decrypt_accepts_iff (B B' : Build) (hB : B.ComparesEqual) (a : AsconAEAD128)
    (keyFirst : Bool) (key nonce : Vector Byte 16) (ad : List Byte) (chunks : List (List Byte))
    (hne : chunks ≠ []) (T : Vector Byte 16) :
    ∃ (outs : List (List Byte)) (ret : Ret),
      (run (step B) a (decryptCalls keyFirst key nonce ad chunks T)).2 =
        recordReplies outs ⟨ret, []⟩ ∧
      outs.map List.length = chunks.map List.length ∧
      (ret = .ok ∨ ret = .asconAuthE) ∧
      (ret = .ok ↔ ∃ pt, Encrypts B' key nonce ad pt chunks.flatten T) ∧
      (∀ pt, Encrypts B' key nonce ad pt chunks.flatten T →
        pt = outs.flatten ∧ pt.length = chunks.flatten.length) ∧
      (∀ a' keyFirst' chunks', chunks' ≠ [] →
        Encrypted B' a' keyFirst' key nonce ad chunks' chunks.flatten T →
        ret = .ok ∧ chunks'.flatten = outs.flatten) := by
  obtain ⟨outs, hrun, hflat, hlen⟩ := run_decrypt B a keyFirst key nonce ad hne T
  have hiff : ∀ pt, aeadEncrypt (loadLE 128 key.toList) (loadLE 128 nonce.toList) ad pt =
      (chunks.flatten, T.toList) ↔ pt = outs.flatten ∧
        T.toList = (aeadDecrypt (loadLE 128 key.toList) (loadLE 128 nonce.toList) ad
          chunks.flatten).2 := by
    intro pt
    rw [aeadEncrypt_eq_iff, hflat]
  have hret := ret_eq_ok.trans (hB T.toList (aeadDecrypt (loadLE 128 key.toList)
    (loadLE 128 nonce.toList) ad chunks.flatten).2)
  refine ⟨outs, _, hrun, hlen, ?_, ?_, ?_, ?_⟩
  · split
    · exact .inl rfl
    · exact .inr rfl
  · rw [hret]
    refine ⟨?_, ?_⟩
    · intro hT
      exact ⟨outs.flatten, (encrypts_iff B' key nonce ad _ _ T).mpr ((hiff _).mpr ⟨rfl, hT⟩)⟩
    · rintro ⟨pt, hpt⟩
      exact ((hiff pt).mp ((encrypts_iff B' key nonce ad pt _ T).mp hpt)).2
  · intro pt hpt
    have heq := ((hiff pt).mp ((encrypts_iff B' key nonce ad pt _ T).mp hpt)).1
    refine ⟨heq, ?_⟩
    rw [heq, List.length_flatten, List.length_flatten, hlen]
  · intro a' keyFirst' chunks' hne' henc
    obtain ⟨hpt, hT⟩ := (hiff _).mp ((encrypted_iff B' a' keyFirst' key nonce ad hne' _ T).mp henc)
    exact ⟨hret.mpr hT, hpt⟩

/-- Two bytes of ciphertext in two chunks. -/
theorem decrypt_accepts_iff_example :
    let key : Vector Byte 16 := Vector.replicate 16 1#8
    let B : Build := ⟨.looped, fun x y => if x = y then 0 else 1⟩
    ∃ (outs : List (List Byte)) (ret : Ret),
      (run (step B) zero (decryptCalls false key key [] [[1#8], [2#8]] key)).2 =
        recordReplies outs ⟨ret, []⟩ ∧
      (ret = .ok ↔ ∃ pt, Encrypts B key key [] pt [1#8, 2#8] key) := by
  intro key B
  have hB : B.ComparesEqual := by
    intro x y
    by_cases h : x = y
    · simp [B, h]
    · simp [B, h]
  obtain ⟨outs, ret, hrun, -, -, hiff, -⟩ :=
    decrypt_accepts_iff B B hB zero false key key [] [[1#8], [2#8]] (by simp) key
  exact ⟨outs, ret, hrun, hiff⟩

end AsconDtls.Wolf
