import AsconDtls.Lib.Recorder
import AsconDtls.Wolf.Hash
import AsconDtls.Wolf.Stream

/-!
# The encoding of what wolfSSL absorbs

`absorbADOps`, `updateOps` and the pad byte of the finals are the absorbing code of
`ascon.c` over any `SpongeOps`.  On the Ascon state they are the model's own
functions (`run_encrypt_state`); on a recorder they give the transcript of a record
or of a hash message, whose replay is again the run on the state.

The transcript of a record is the blocks of the padded associated data, the
domain separation, and the blocks of the padded data (`encryptTranscript_split`).
So it determines both, whatever the chunks (`transcript_injective`).
-/

namespace AsconDtls.Wolf

open LittleEndian
open Duplex (Machine threePhase whileBlocks)
open Recording (SpongeOps Recorder Event recorder blocks bytes Holds Replays)
open Padding (pad10 pad10_injective)
open Run (run run_append run_cons run_nil)
open AsconAEAD128

/-! ### The code over the operations -/

section Ops

variable {σ : Type} (S : SpongeOps σ)

/-- The associated data in `SetAD`, once the key is in. -/
def absorbADOps (s : σ) (ad : List Byte) : σ :=
  let s :=
    if 0 < ad.length then
      let body (blk : List Byte) (s : σ) : σ × List Byte := (S.permute (S.xorbuf s 0 blk), [])
      let r := whileBlocks ASCON_AEAD128_RATE body s ad
      let s := S.xorbuf r.1 0 r.2.2
      let s := S.xorbuf s r.2.2.length [1]
      S.permute s
    else s
  S.domain s

/-- An update of either the AEAD or the hash. -/
def updateOps (rate : Nat) (c : σ × Nat) (data : List Byte) : σ × Nat :=
  (threePhase rate S.permute (fun i bs s => (S.xorbuf s i bs, ([] : List Byte))) c data).1

/-- A record up to the pad byte of `EncryptFinal`. -/
def encryptOps (s : σ) (ad : List Byte) (chunks : List (List Byte)) : σ :=
  S.pad (chunks.foldl (updateOps S ASCON_AEAD128_RATE) (absorbADOps S s ad, 0))

/-- A hash message up to the pad byte of `Final`. -/
def hashOps (s : σ) (chunks : List (List Byte)) : σ :=
  S.pad (chunks.foldl (updateOps S ASCON_HASH256_RATE) (s, 0))

/-! ### It is `feed` -/

theorem updateOps_eq_feed {rate : Nat} {c : σ × Nat} (hc : c.2 < rate) (data : List Byte) :
    updateOps S rate c data = ((S.machine rate).feed c data).1 :=
  (S.machine rate).threePhase_state_eq_feed
    (fun i bs s _ => (S.machine_absorb rate i bs s).symm) hc data

/-- Updates in chunks are one `feed`. -/
theorem foldl_updateOps {rate : Nat} {c : σ × Nat} (hc : c.2 < rate)
    (chunks : List (List Byte)) :
    chunks.foldl (updateOps S rate) c = ((S.machine rate).feed c chunks.flatten).1 := by
  induction chunks generalizing c with
  | nil => rfl
  | cons bs chunks ih =>
      rw [List.foldl_cons, updateOps_eq_feed S hc, ih ((S.machine rate).feed_lt hc bs),
        List.flatten_cons, (S.machine rate).feed_append]

theorem absorbADOps_eq (s : σ) (ad : List Byte) :
    absorbADOps S s ad =
      S.domain (if 0 < ad.length then
        S.permute (S.pad ((S.machine ASCON_AEAD128_RATE).feed (s, 0) ad).1) else s) := by
  obtain ⟨D, hD⟩ : ∃ D, D = S.machine ASCON_AEAD128_RATE := ⟨_, rfl⟩
  let body (blk : List Byte) (s : σ) : σ × List Byte := (S.permute (S.xorbuf s 0 blk), [])
  have hbody : ∀ (blk : List Byte) (s : σ), blk.length = D.rate →
      (body blk s).1 = D.permute (D.absorb 0 blk s).1 := by
    intro blk s _
    rw [hD, S.machine_absorb]
    rfl
  have hfeed := D.feed_absorbBlocks (by rw [hD]; exact Nat.zero_lt_succ 15) hbody s ad
  simp only [hD, S.machine_absorb] at hfeed
  rw [hfeed]
  rfl

theorem encryptOps_eq (s : σ) (ad : List Byte) (chunks : List (List Byte)) :
    encryptOps S s ad chunks =
      S.pad ((S.machine ASCON_AEAD128_RATE).feed (absorbADOps S s ad, 0) chunks.flatten).1 := by
  rw [encryptOps, foldl_updateOps S (show 0 < ASCON_AEAD128_RATE by decide)]

theorem hashOps_eq (s : σ) (chunks : List (List Byte)) :
    hashOps S s chunks = S.pad ((S.machine ASCON_HASH256_RATE).feed (s, 0) chunks.flatten).1 := by
  rw [hashOps, foldl_updateOps S (show 0 < ASCON_HASH256_RATE by decide)]

end Ops

/-! ### Transcripts -/

def encryptTranscript (ad : List Byte) (chunks : List (List Byte)) : List (Event 128) :=
  (encryptOps (recorder 128) (.empty 128) ad chunks).transcript

def hashTranscript (chunks : List (List Byte)) : List (Event 64) :=
  (hashOps (recorder 64) (.empty 64) chunks).transcript

theorem holds_empty (w : Nat) : Holds 0 (Recorder.empty w) [] :=
  ⟨rfl, fun j _ _ => byteAt_zero_mem j⟩

/-- What a closed recorder shows of data fed from the start of a block. -/
theorem bytes_pad_feed {w rate : Nat} (hw : w = 8 * rate) (hr : 0 < rate) (data : List Byte) :
    let c := (((recorder w).machine rate).feed (.empty w, 0) data).1
    bytes (blocks ((recorder w).pad c).transcript) = pad10 1 0 rate data := by
  intro c
  have hheld := Holds.feed hw hr (holds_empty w) data
  have hpos : c.2 = data.length % rate := by
    have hfeed := ((recorder w).machine rate).feed_position (c := (.empty w, 0)) hr data
    rw [hfeed, Nat.zero_add]
    rfl
  exact Recording.bytes_transcript hw (((recorder w).machine rate).feed_lt hr data) hheld hpos

/-- The blocks that the associated data become. -/
def adBytes (ad : List Byte) : List Byte := if ad = [] then [] else pad10 1 0 ASCON_AEAD128_RATE ad

theorem adBytes_injective : Function.Injective adBytes := by
  have hne : ∀ ad, pad10 1 0 ASCON_AEAD128_RATE ad ≠ ([] : List Byte) := by
    intro ad h
    simp [pad10] at h
  intro ad ad' h
  simp only [adBytes] at h
  by_cases h0 : ad = []
  · by_cases h0' : ad' = []
    · rw [h0, h0']
    · rw [if_pos h0, if_neg h0'] at h
      exact absurd h.symm (hne ad')
  · by_cases h0' : ad' = []
    · rw [if_neg h0, if_pos h0'] at h
      exact absurd h (hne ad)
    · rw [if_neg h0, if_neg h0'] at h
      exact pad10_injective (by decide) h

/-- The recorder behind the associated data. -/
theorem absorbADOps_recorder (ad : List Byte) :
    ∃ A : List (Event 128), Event.domain ∉ A ∧ bytes (blocks A) = adBytes ad ∧
      absorbADOps (recorder 128) (.empty 128) ad = ⟨A ++ [.domain], 0⟩ := by
  rw [absorbADOps_eq]
  by_cases h0 : ad = []
  · refine ⟨[], List.not_mem_nil, ?_, ?_⟩
    · rw [adBytes, if_pos h0]
      rfl
    · rw [h0]
      rfl
  · obtain ⟨c, hc⟩ : ∃ c, c =
        (((recorder 128).machine ASCON_AEAD128_RATE).feed (.empty 128, 0) ad).1 := ⟨_, rfl⟩
    have hdomain := Recording.feed_domain (show 0 < ASCON_AEAD128_RATE by decide)
      (r := .empty 128) List.not_mem_nil ad
    rw [← hc] at hdomain
    have hbytes := bytes_pad_feed (show 128 = 8 * ASCON_AEAD128_RATE from rfl) (by decide) ad
    simp only [← hc] at hbytes
    refine ⟨c.1.events ++ [.block ((recorder 128).pad c).pending, .permute], ?_, ?_, ?_⟩
    · simp only [List.mem_append, not_or]
      exact ⟨hdomain, by simp⟩
    · rw [adBytes, if_neg h0, ← hbytes, Recorder.transcript, Recording.blocks_append,
        Recording.blocks_append]
      rfl
    · rw [if_pos (List.length_pos_iff.mpr h0), ← hc]
      rfl

/-- **Associated data, domain separation, data.** -/
theorem encryptTranscript_split (ad : List Byte) (chunks : List (List Byte)) :
    ∃ A Q : List (Event 128), encryptTranscript ad chunks = A ++ .domain :: Q ∧
      Event.domain ∉ A ∧ bytes (blocks A) = adBytes ad ∧
      bytes (blocks Q) = pad10 1 0 ASCON_AEAD128_RATE chunks.flatten := by
  obtain ⟨A, hA, hbytes, hrec⟩ := absorbADOps_recorder ad
  obtain ⟨c, hc⟩ : ∃ c, c = (((recorder 128).machine ASCON_AEAD128_RATE).feed (.empty 128, 0)
    chunks.flatten).1 := ⟨_, rfl⟩
  refine ⟨A, ((recorder 128).pad c).transcript, ?_, hA, hbytes, ?_⟩
  · have hfeed := Recording.feed_events_append (show 0 < ASCON_AEAD128_RATE by decide)
      (A ++ [.domain]) (.empty 128) chunks.flatten
    simp only [Recorder.empty, List.append_nil] at hfeed hc
    rw [encryptTranscript, encryptOps_eq, hrec, hfeed, ← hc]
    simp only [SpongeOps.pad, recorder, Recorder.transcript, List.append_assoc,
      List.cons_append, List.nil_append]
  · rw [hc]
    exact bytes_pad_feed rfl (by decide) chunks.flatten

theorem bytes_hashTranscript (chunks : List (List Byte)) :
    bytes (blocks (hashTranscript chunks)) = pad10 1 0 ASCON_HASH256_RATE chunks.flatten := by
  rw [hashTranscript, hashOps_eq]
  exact bytes_pad_feed rfl (by decide) chunks.flatten

/-- **What is absorbed determines the input.**  Two records have the same
transcript exactly when their associated data and their data are the same, and two
hash messages give the same blocks exactly when they are the same, whatever the
chunks. -/
theorem transcript_injective (ad ad' : List Byte) (chunks chunks' : List (List Byte)) :
    (encryptTranscript ad chunks = encryptTranscript ad' chunks' ↔
        ad = ad' ∧ chunks.flatten = chunks'.flatten) ∧
      (blocks (hashTranscript chunks) = blocks (hashTranscript chunks') ↔
        chunks.flatten = chunks'.flatten) := by
  refine ⟨⟨?_, ?_⟩, ⟨?_, ?_⟩⟩
  · intro h
    obtain ⟨A, Q, hsplit, hA, hbytesA, hbytesQ⟩ := encryptTranscript_split ad chunks
    obtain ⟨A', Q', hsplit', hA', hbytesA', hbytesQ'⟩ := encryptTranscript_split ad' chunks'
    rw [hsplit, hsplit'] at h
    obtain ⟨rfl, rfl⟩ := Recording.split_first hA hA' h
    refine ⟨adBytes_injective (hbytesA.symm.trans hbytesA'), ?_⟩
    exact pad10_injective (by decide) (hbytesQ.symm.trans hbytesQ')
  · rintro ⟨rfl, hflat⟩
    rw [encryptTranscript, encryptTranscript, encryptOps_eq, encryptOps_eq, hflat]
  · intro h
    have hbytes := congrArg bytes h
    rw [bytes_hashTranscript, bytes_hashTranscript] at hbytes
    exact pad10_injective (by decide) hbytes
  · intro hflat
    rw [hashTranscript, hashTranscript, hashOps_eq, hashOps_eq, hflat]

/-! ### On the Ascon state -/

/-- The state, permuted with `rounds` rounds. -/
def asconOps (B : Build) (rounds : Rounds) : SpongeOps AsconState where
  xorbuf := AsconState.xorbuf
  permute s := B.permutation s rounds
  domain := domainSep
  xorbuf_nil _ _ := rfl
  xorbuf_cons _ _ _ _ := rfl

theorem asconOps_xors (B : Build) (rounds : Rounds) {w : Nat} (h8 : 8 ∣ w) :
    (asconOps B rounds).Xors w where
  zero s := by
    apply AsconState.ext_s8
    intro j hj
    simp only [asconOps]
    rw [AsconState.s8_xorbuf _ _ _ hj, if_pos (Nat.zero_le j)]
    by_cases hjw : j < w / 8
    · rw [List.getElem?_eq_getElem (by rw [length_bytesAt]; omega), getElem_bytesAt,
        byteAt_zero_mem, Option.getD_some, BitVec.xor_zero]
    · rw [List.getElem?_eq_none (by rw [length_bytesAt]; omega), Option.getD_none, BitVec.xor_zero]
  merge s p i b hi := by
    apply AsconState.ext_s8
    intro j hj
    have hbyte : ∀ m : BitVec w, (bytesAt m 0 (w / 8))[j - 0]?.getD 0#8 =
        if j < w / 8 then byteAt m j else 0#8 := by
      intro m
      by_cases hjw : j < w / 8
      · rw [if_pos hjw, List.getElem?_eq_getElem (by rw [length_bytesAt]; omega), getElem_bytesAt,
          Option.getD_some, Nat.zero_add, Nat.sub_zero]
      · rw [if_neg hjw, List.getElem?_eq_none (by rw [length_bytesAt]; omega), Option.getD_none]
    simp only [asconOps]
    rw [AsconState.s8_xorbuf _ _ _ hj, AsconState.s8_xorbuf _ _ _ hj,
      AsconState.s8_xorbuf _ _ _ hj, if_pos (Nat.zero_le j), if_pos (Nat.zero_le j), hbyte, hbyte,
      BitVec.xor_assoc]
    congr 1
    by_cases hjw : j < w / 8
    · rw [if_pos hjw, if_pos hjw, byteAt_xorbuf _ _ _ (by omega)]
    · have hout : [b][j - i]? = none := List.getElem?_eq_none (by simp; omega)
      rw [if_neg hjw, if_neg hjw, if_pos (by omega), hout]
      exact BitVec.xor_zero

/-- **The transcript of a record replays the record.** -/
theorem replay_encryptTranscript (B : Build) (s : AsconState) (ad : List Byte)
    (chunks : List (List Byte)) :
    let S := asconOps B ASCON_AEAD128_ROUNDS_PB
    Recording.replay S s (encryptTranscript ad chunks) = encryptOps S s ad chunks := by
  intro S
  have hx : S.Xors 128 := asconOps_xors B _ (by decide)
  have h0 : 0 < ASCON_AEAD128_RATE := by decide
  have hstart : Replays S s (Recorder.empty 128) s := .start hx s
  have had : Replays S s (absorbADOps (recorder 128) (.empty 128) ad) (absorbADOps S s ad) := by
    rw [absorbADOps_eq, absorbADOps_eq]
    by_cases hpos : 0 < ad.length
    · rw [if_pos hpos, if_pos hpos]
      exact ((hstart.pad_feed hx rfl h0 ad).permute hx).domain hx rfl
    · rw [if_neg hpos, if_neg hpos]
      exact hstart.domain hx rfl
  rw [encryptTranscript, encryptOps_eq, encryptOps_eq]
  exact (had.pad_feed hx rfl h0 chunks.flatten).transcript

/-- The transcript of a hash message replays the message. -/
theorem replay_hashTranscript (B : Build) (s : AsconState) (chunks : List (List Byte)) :
    let S := asconOps B ASCON_HASH256_ROUNDS
    Recording.replay S s (hashTranscript chunks) = hashOps S s chunks := by
  intro S
  have hx : S.Xors 64 := asconOps_xors B _ (by decide)
  have hstart : Replays S s (Recorder.empty 64) s := .start hx s
  rw [hashTranscript, hashOps_eq, hashOps_eq]
  exact (hstart.pad_feed hx rfl (by decide) chunks.flatten).transcript

/-- The state runs the machine of the sponge, whatever that answers. -/
theorem feed_asconOps (B : Build) (rounds : Rounds) (rate : Nat) (c : AsconState × Nat)
    (bs : List Byte) :
    (((asconOps B rounds).machine rate).feed c bs).1 =
      ((xorMachine rate (asconP · rounds)).feed c bs).1 := by
  induction bs generalizing c with
  | nil => rfl
  | cons b bs ih =>
      rw [Machine.feed, Machine.feed, ih]
      have hperm : B.permutation = asconP := permutation_eq B
      simp only [Machine.advance, SpongeOps.machine, asconOps, hperm]
      rfl

/-- **A record of the code is the code over the operations**: the state after
`EncryptFinal` is the replay of the transcript, closed with the key. -/
theorem run_encrypt_state (B : Build) (a : AsconAEAD128) (keyFirst : Bool)
    (key nonce : Vector Byte 16) (ad : List Byte) {chunks : List (List Byte)} (hne : chunks ≠ []) :
    let K := loadLE 128 key.toList
    let s := aeadKeyed K (aeadLoad K (loadLE 128 nonce.toList))
    let t := encryptTranscript ad chunks
    (run (step B) a (encryptCalls keyFirst key nonce ad chunks)).1.state =
      aeadKeyed K ((Recording.replay (asconOps B ASCON_AEAD128_ROUNDS_PB) s t).xorBlock 16 K) := by
  intro K s t
  let c := (encryptMachine.feed (aeadStart K (loadLE 128 nonce.toList) ad, 0) chunks.flatten).1
  have had : absorbADOps (asconOps B ASCON_AEAD128_ROUNDS_PB) s ad =
      aeadStart K (loadLE 128 nonce.toList) ad := by
    rw [aeadStart, ← absorbAD_eq B]
    rfl
  have hreplay : Recording.replay (asconOps B ASCON_AEAD128_ROUNDS_PB) s t = pad c := by
    rw [replay_encryptTranscript, encryptOps_eq, had, feed_asconOps]
    rfl
  have hrun : (run (step B) a (encryptCalls keyFirst key nonce ad chunks)).1 =
      finalize B (ready a.iv K .encrypt c) := by
    rw [encryptCalls, run_append, run_append, run_setup, run_updates B rfl
      (encryptUpdate_ready B a.iv K) (.inl rfl) (by simp) hne, run_cons, run_nil, step,
      encryptFinal_ready]
    simp only [c, encryptMachine.feedChunks_flatten]
    rfl
  rw [hreplay, hrun, finalize, permutation_eq]
  simp only [xorS64_keyWord _ _ 2, xorS64_keyWord _ _ 3]
  rfl

/-- **A hash message of the code is the code over the operations.** -/
theorem run_hash_digest (B : Build) (a : AsconHash256) (chunks : List (List Byte)) :
    let t := hashTranscript chunks
    (run (hashStep B) a (.init :: messageCalls chunks)).2 =
      .ok [] :: messageReplies chunks
        (squeeze permutePA ASCON_HASH256_RATE (ASCON_HASH256_SZ / ASCON_HASH256_RATE)
          (Recording.replay (asconOps B ASCON_HASH256_ROUNDS) hashStart t)).2 := by
  intro t
  have hreplay : Recording.replay (asconOps B ASCON_HASH256_ROUNDS) hashStart t =
      pad (hashMachine.feed (hashStart, 0) chunks.flatten).1 := by
    rw [replay_hashTranscript, hashOps_eq, feed_asconOps]
    rfl
  rw [run_cons, hashStep, AsconHash256.init_eq, AsconHash256.run_message B (by decide), hreplay]
  rfl

end AsconDtls.Wolf
