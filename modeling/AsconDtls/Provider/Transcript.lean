import AsconDtls.Lib.Padding
import AsconDtls.Provider.Interop
import AsconDtls.Provider.Nonce

/-!
# The encoding of the associated data

`aadTranscript` runs the AAD functions over a record in place of a state: the
list of the words XORed in and of the permutation calls.  `replay` runs such a
list on a state.

* `aadContext_replay`: the state after the associated data is the replay of the
  transcript on the state before them.
* `aadTranscript_eq_iff`: two transcripts are equal iff the lazily padded data
  are, so `Padding.lazyPad_eq_iff` says which associated data collide.
-/

namespace AsconDtls.Provider

open LittleEndian
open Run (run)
open Padding (pad10 lazyPad IsPaddingOf)

/-! ### Transcripts -/

/-- One step of the AAD functions on the state. -/
inductive SpongeOp
  | xorWord (i : Nat) (v : BitVec 64)
  | permute (rounds : Nat)
deriving DecidableEq

/-- Writes down what is done, in order. -/
def StateOps.recorded : StateOps (List SpongeOp) where
  xorWord := fun t i v => t ++ [.xorWord i v]
  permute := fun t rounds => t ++ [.permute rounds]

def SpongeOp.apply {σ : Type} (ops : StateOps σ) (s : σ) : SpongeOp → σ
  | .xorWord i v => ops.xorWord s i v
  | .permute rounds => ops.permute s rounds

def replay {σ : Type} (ops : StateOps σ) (s : σ) (t : List SpongeOp) : σ :=
  t.foldl (SpongeOp.apply ops) s

/-- The context with another state in it. -/
def AsconAead128Ctx.withState {σ τ : Type} (a : AsconAead128Ctx σ) (s : τ) : AsconAead128Ctx τ where
  s := s
  key := a.key
  adPart := a.adPart
  ct := a.ct
  tag := a.tag
  lastBlkSz := a.lastBlkSz
  adPartSz := a.adPartSz
  enc := a.enc
  adStarted := a.adStarted
  adDone := a.adDone

/-- The context when one update with `ad` and `aadFinalize` are done; an empty
update does nothing. -/
def aadContext {σ : Type} (ops : StateOps σ) (a : AsconAead128Ctx σ) (ad : List Byte) :
    AsconAead128Ctx σ :=
  aadFinalize ops (if ad.length = 0 then a else absorbAad ops a ad)

/-- It is the update entry point with a null output and `aadFinalize`. -/
theorem aadContext_update (a : Ctx) (ad : List Byte) :
    aadContext .ascon a ad = aadFinalize .ascon (update a none ad).1 := by
  rw [aadContext, update]
  split
  · rfl
  · rfl

/-- What is done to the state for the associated data. -/
def aadTranscript (a : Ctx) (ad : List Byte) : List SpongeOp :=
  (aadContext .recorded (a.withState []) ad).s

/-! ### Replay -/

section Replay

variable {σ : Type} (ops : StateOps σ) (s : σ) (t : List SpongeOp)

theorem replay_xorWord (i : Nat) (v : BitVec 64) :
    replay ops s (StateOps.recorded.xorWord t i v) = ops.xorWord (replay ops s t) i v :=
  List.foldl_concat ..

theorem replay_permute (rounds : Nat) :
    replay ops s (StateOps.recorded.permute t rounds) = ops.permute (replay ops s t) rounds :=
  List.foldl_concat ..

theorem replay_xorPermute (w : Nat → BitVec 64) :
    replay ops s (xorPermute .recorded t w) = xorPermute ops (replay ops s t) w := by
  simp only [xorPermute]
  rw [replay_permute, replay_xorWord, replay_xorWord]

theorem replay_keyed (a : AsconAead128Ctx σ) :
    replay ops a.s (keyed .recorded (a.withState [])).s = (keyed ops a).s := by
  simp only [keyed]
  rw [replay_xorWord, replay_xorWord, replay_permute]
  rfl

/-- The block loop over a record and the loop over the states it replays to. -/
theorem replay_aadBlocks (ad : List Byte) :
    replay ops s (aadBlocks .recorded t ad).1 = (aadBlocks ops (replay ops s t) ad).1 ∧
      (aadBlocks .recorded t ad).2.2 = (aadBlocks ops (replay ops s t) ad).2.2 := by
  let recordBody (blk : List Byte) (t : List SpongeOp) : List SpongeOp × List Byte :=
    (xorPermute .recorded t (wordOf blk), [])
  let body (blk : List Byte) (u : σ) : σ × List Byte := (xorPermute ops u (wordOf blk), [])
  have hbody : ∀ blk t u, blk.length = ASCON_AEAD128_RATE → replay ops s t = u →
      replay ops s (recordBody blk t).1 = (body blk u).1 ∧ True := by
    rintro blk t _ - rfl
    exact ⟨replay_xorPermute ops s t _, trivial⟩
  obtain ⟨hstate, -, hrest⟩ := Duplex.whileBlocks_rel (fun t u => replay ops s t = u)
    (fun (_ _ : List Byte) => True) trivial (fun _ _ _ _ _ _ => trivial) hbody rfl ad
  exact ⟨hstate, hrest⟩

theorem replay_aadOnce (a : AsconAead128Ctx σ) (ad : List Byte) :
    replay ops a.s (aadOnce .recorded (a.withState []) ad) = aadOnce ops a ad := by
  obtain ⟨hstate, hrest⟩ :=
    replay_aadBlocks ops a.s (keyed .recorded (a.withState [])).s ad
  rw [replay_keyed] at hstate hrest
  simp only [aadOnce]
  rw [replay_xorWord, hrest]
  by_cases hpart : 0 < (aadBlocks ops (keyed ops a).s ad).2.2.length
  · rw [if_pos hpart, if_pos hpart, replay_xorPermute, hstate]
    rfl
  · rw [if_neg hpart, if_neg hpart, hstate]

end Replay

/-! ### After an init -/

/-- No associated data have been taken and the buffer is clear. -/
structure Cleared {σ : Type} (a : AsconAead128Ctx σ) : Prop where
  adPart : a.adPart = 0
  adPartSz : a.adPartSz = 0
  adStarted : a.adStarted = false
  adDone : a.adDone = false

theorem Cleared.withState {σ τ : Type} {a : AsconAead128Ctx σ} (h : Cleared a) (s : τ) :
    Cleared (a.withState s) := ⟨h.adPart, h.adPartSz, h.adStarted, h.adDone⟩

/-- Every init with a nonce clears the context. -/
theorem initCall_cleared {p : Ctx} {enc : Bool} {key : Option (List Byte)} {iv : List Byte}
    {params : Params} (h : (step p (initCall enc key (some iv) params)).2.ret = 1) :
    Cleared (step p (initCall enc key (some iv) params)).1 := by
  rw [step_initCall] at h ⊢
  obtain ⟨T, K, heq, -, -⟩ := init_cases h
  rw [heq] at h ⊢
  obtain ⟨-, hreset⟩ := initIv_cases h
  rw [hreset]
  exact ⟨rfl, rfl, rfl, rfl⟩

theorem aadContext_eq {σ : Type} (ops : StateOps σ) {a : AsconAead128Ctx σ} (h : Cleared a)
    (ad : List Byte) : (aadContext ops a ad).s = aadOnce ops a ad := by
  by_cases hlen : ad.length = 0
  · obtain rfl := List.eq_nil_of_length_eq_zero hlen
    rw [aadContext, if_pos hlen, aadFinalize_fresh ops h.adStarted h.adPartSz h.adDone]
  · obtain ⟨adPart, heq⟩ := aadFinalize_absorbAad ops h.adStarted h.adPartSz h.adDone ad
    rw [aadContext, if_neg hlen, heq]

/-- **The state is the replay of the transcript.** -/
theorem aadContext_replay {a : Ctx} (h : Cleared a) (ad : List Byte) :
    (aadContext .ascon a ad).s = replay .ascon a.s (aadTranscript a ad) := by
  rw [aadTranscript, aadContext_eq .recorded (h.withState []), aadContext_eq .ascon h,
    replay_aadOnce]

/-! ### The padded data -/

/-- The padding `0x01 0x00 …` of `aadFinalize`, which whole blocks do not get. -/
def lazyPadded (ad : List Byte) : List Byte := lazyPad (1 : Byte) 0 ASCON_AEAD128_RATE ad

/-- The padded buffer is the padded block. -/
theorem loadLE_pad10 {rest : List Byte} {n : Nat} (h : rest.length + (n + 1) = 16) :
    loadLE 128 (rest ++ (1 : Byte) :: List.replicate n 0) = padded 0 rest := by
  apply ext_byteAt
  intro i hi
  rw [byteAt_loadLE _ (by omega), padded, byteAt_xorAt _ _ _ (by omega), byteAt_byte,
    byteAt_memcpy _ _ _ (by omega), Nat.zero_add, Nat.sub_zero, byteAt_zero_mem]
  by_cases hlt : i < rest.length
  · rw [List.getElem?_append_left hlt, if_pos ⟨Nat.zero_le i, hlt⟩, if_neg (by omega)]
    exact (BitVec.xor_zero).symm
  · rw [List.getElem?_append_right (by omega), if_neg (by omega), if_pos (by omega)]
    by_cases heq : i = rest.length
    · rw [heq, Nat.sub_self, if_pos rfl]
      rfl
    · obtain ⟨k, hk⟩ : ∃ k, i - rest.length = k + 1 := ⟨i - rest.length - 1, by omega⟩
      rw [hk, List.getElem?_cons_succ, List.getElem?_replicate, if_pos (by omega),
        if_neg (by omega)]
      rfl

theorem aadBlocks_of_le {σ : Type} (ops : StateOps σ) (s : σ) {data : List Byte}
    (h : 16 ≤ data.length) :
    (aadBlocks ops s data).1 =
      (aadBlocks ops (xorPermute ops s (wordOf (data.take 16))) (data.drop 16)).1 := by
  have hle : ASCON_AEAD128_RATE ≤ data.length := h
  rw [aadBlocks, Duplex.whileBlocks_of_le _ _ (by decide) hle]
  rfl

theorem aadBlocks_nil {σ : Type} (ops : StateOps σ) (s : σ) : (aadBlocks ops s []).1 = s := by
  rw [aadBlocks, Duplex.whileBlocks_of_lt _ _ (by decide)]

/-- One block of padded data is XORed in as the padded buffer is. -/
theorem aadBlocks_pad10 {σ : Type} (ops : StateOps σ) (s : σ) {rest : List Byte} {n : Nat}
    (h : rest.length + (n + 1) = 16) :
    (aadBlocks ops s (rest ++ (1 : Byte) :: List.replicate n 0)).1 =
      xorPermute ops s fun i => readAt (padded 0 rest) (8 * i) 64 := by
  have hlen : (rest ++ (1 : Byte) :: List.replicate n 0).length = 16 := by
    rw [List.length_append, List.length_cons, List.length_replicate, h]
  rw [aadBlocks_of_le ops s (by omega), List.take_of_length_le (by omega),
    List.drop_of_length_le (by omega), aadBlocks_nil]
  simp only [xorPermute, wordOf_eq_readAt (show 0 < 2 by omega),
    wordOf_eq_readAt (show 1 < 2 by omega), loadLE_pad10 h]

/-- The associated data are absorbed as their padding is, block by block. -/
theorem aadOnce_eq {σ : Type} (ops : StateOps σ) {a : AsconAead128Ctx σ} (h : Cleared a)
    (ad : List Byte) :
    aadOnce ops a ad =
      ops.xorWord (aadBlocks ops (keyed ops a).s (lazyPadded ad)).1 4 (1#64 <<< 63) := by
  have hrest : (aadBlocks ops (keyed ops a).s ad).2.2.length = ad.length % 16 :=
    Duplex.length_whileBlocks_rest_eq (by decide) _ _ ad
  simp only [aadOnce, h.adPart, lazyPadded, lazyPad]
  by_cases hmod : ad.length % ASCON_AEAD128_RATE = 0
  · have hmod' : ad.length % 16 = 0 := hmod
    rw [if_neg (by omega), if_pos hmod]
  · have hmod' : ad.length % 16 ≠ 0 := hmod
    have hlt : ad.length % 16 < 16 := Nat.mod_lt _ (by decide)
    have happ : aadBlocks ops (keyed ops a).s (pad10 (1 : Byte) 0 ASCON_AEAD128_RATE ad) = _ :=
      Duplex.whileBlocks_append (by decide) _ (keyed ops a).s ad _
    have hlen : (aadBlocks ops (keyed ops a).s ad).2.2.length +
        (ASCON_AEAD128_RATE - 1 - ad.length % ASCON_AEAD128_RATE + 1) = 16 := by
      rw [hrest]
      simp only [ASCON_AEAD128_RATE]
      omega
    rw [if_pos (by omega), if_neg hmod, happ]
    exact congrArg (fun s => ops.xorWord s 4 (1#64 <<< 63)) (aadBlocks_pad10 ops _ hlen).symm

/-! ### Reading the padded data off a transcript -/

/-- The bytes that a step XORs into the rate. -/
def SpongeOp.rateBytes : SpongeOp → List Byte
  | .xorWord 0 v => wordBytes v
  | .xorWord 1 v => wordBytes v
  | _ => []

theorem rateBytes_xorPermute (t : List SpongeOp) {blk : List Byte} (h : blk.length = 16) :
    (xorPermute .recorded t (wordOf blk)).flatMap SpongeOp.rateBytes =
      t.flatMap SpongeOp.rateBytes ++ blk := by
  have hops : xorPermute .recorded t (wordOf blk) =
      t ++ [.xorWord 0 (wordOf blk 0), .xorWord 1 (wordOf blk 1), .permute ASCON_AEAD128_PB] := by
    simp only [xorPermute, StateOps.recorded, List.append_assoc]
    rfl
  have hblk : wordBytes (wordOf blk 0) ++ wordBytes (wordOf blk 1) = blk := by
    rw [wordOf_eq_readAt (by omega), wordOf_eq_readAt (by omega)]
    exact (words_of_block h).symm
  rw [hops, List.flatMap_append]
  conv_rhs => rw [← hblk]
  simp [SpongeOp.rateBytes]

theorem rateBytes_aadBlocks (t : List SpongeOp) {data : List Byte} (h : data.length % 16 = 0) :
    (aadBlocks .recorded t data).1.flatMap SpongeOp.rateBytes =
      t.flatMap SpongeOp.rateBytes ++ data := by
  induction data using Duplex.blocks_induction 16 generalizing t with
  | short data hb =>
      have hnil : data = [] := List.eq_nil_of_length_eq_zero (by omega)
      rw [hnil, aadBlocks_nil, List.append_nil]
  | block data _ hle hlen ih =>
      have hmod : (data.drop 16).length % 16 = 0 := by
        rw [List.length_drop]
        omega
      rw [aadBlocks_of_le .recorded t hle, ih _ hmod, rateBytes_xorPermute t hlen,
        List.append_assoc, List.take_append_drop]

theorem aadTranscript_eq {a : Ctx} (h : Cleared a) (ad : List Byte) :
    aadTranscript a ad =
      StateOps.recorded.xorWord
        (aadBlocks .recorded (keyed .recorded (a.withState [])).s (lazyPadded ad)).1 4
        (1#64 <<< 63) := by
  rw [aadTranscript, aadContext_eq .recorded (h.withState []), aadOnce_eq .recorded (h.withState [])]

theorem rateBytes_aadTranscript {a : Ctx} (h : Cleared a) (ad : List Byte) :
    (aadTranscript a ad).flatMap SpongeOp.rateBytes = lazyPadded ad := by
  have hmod : (lazyPadded ad).length % 16 = 0 := Padding.length_lazyPad_mod (by decide) ad
  have hkeyed : (keyed .recorded (a.withState [])).s.flatMap SpongeOp.rateBytes = [] := rfl
  have hlast : ∀ t, (StateOps.recorded.xorWord t 4 (1#64 <<< 63)).flatMap SpongeOp.rateBytes =
      t.flatMap SpongeOp.rateBytes := by
    intro t
    exact (List.flatMap_append ..).trans (List.append_nil _)
  rw [aadTranscript_eq h, hlast, rateBytes_aadBlocks _ hmod, hkeyed, List.nil_append]

/-- **Transcripts are equal iff the padded data are.** -/
theorem aadTranscript_eq_iff {a : Ctx} (h : Cleared a) (A A' : List Byte) :
    aadTranscript a A = aadTranscript a A' ↔ lazyPadded A = lazyPadded A' := by
  refine ⟨?_, ?_⟩
  · intro heq
    rw [← rateBytes_aadTranscript h, heq, rateBytes_aadTranscript h]
  · intro heq
    rw [aadTranscript_eq h, aadTranscript_eq h, heq]

/-! ### Collisions -/

/-- One of the two ends inside a block and the other is its padding. -/
def AadCollide (A A' : List Byte) : Prop :=
  IsPaddingOf (1 : Byte) 0 ASCON_AEAD128_RATE A A' ∨ IsPaddingOf (1 : Byte) 0 ASCON_AEAD128_RATE A' A

theorem lazyPadded_eq_iff {A A' : List Byte} (h : A ≠ A') :
    lazyPadded A = lazyPadded A' ↔ AadCollide A A' :=
  (Padding.lazyPad_eq_iff (by decide) (by decide)).trans (or_iff_right h)

/-- The same transcript from the same init is the same state. -/
theorem state_eq_of_transcript {a : Ctx} (h : Cleared a) {A A' : List Byte}
    (heq : aadTranscript a A = aadTranscript a A') :
    (aadContext .ascon a A).s = (aadContext .ascon a A').s := by
  rw [aadContext_replay h, aadContext_replay h, heq]

/-- **When the encoding is collision-free.**  After the same init two different
strings of associated data lead to different transcripts, unless one ends inside a
block and the other is its padding.  In that case the transcripts and the states
are equal, whatever the key and the nonce. -/
theorem aad_encoding (p : Ctx) (enc : Bool) (key : Option (List Byte)) (iv : List Byte)
    (params : Params) (hinit : (step p (initCall enc key (some iv) params)).2.ret = 1)
    {A A' : List Byte} (hne : A ≠ A') :
    let a := (step p (initCall enc key (some iv) params)).1
    (aadTranscript a A ≠ aadTranscript a A' ↔ ¬ AadCollide A A') ∧
      (AadCollide A A' → (aadContext .ascon a A).s = (aadContext .ascon a A').s) := by
  intro a
  have hcleared : Cleared a := initCall_cleared hinit
  have hiff : aadTranscript a A = aadTranscript a A' ↔ AadCollide A A' :=
    (aadTranscript_eq_iff hcleared A A').trans (lazyPadded_eq_iff hne)
  exact ⟨not_congr hiff, fun hc => state_eq_of_transcript hcleared (hiff.2 hc)⟩

/-- Two strings that differ in their padding byte only, under the zero key. -/
theorem aad_encoding_example :
    let a := (step newctx (initCall true (some (List.replicate 16 0#8))
      (some (List.replicate 16 0#8)) {})).1
    aadTranscript a [1#8] ≠ aadTranscript a [1#8, 1#8] := by
  refine (aad_encoding newctx true _ _ {} (by decide +kernel) (by decide)).1.2 ?_
  rintro (⟨-, hpad⟩ | ⟨-, hpad⟩)
  · exact absurd hpad (by decide)
  · exact absurd hpad (by decide)

theorem lazyStart_eq_of_collide (key nonce : BitVec 128) {A A' : List Byte}
    (h : lazyPadded A = lazyPadded A') : lazyStart key nonce A = lazyStart key nonce A' := by
  have hfresh := reset_fresh newctx (length_bytesAt key 0 16) (length_bytesAt nonce 0 16)
  have hcleared : Cleared (reset newctx (bytesAt key 0 16) (bytesAt nonce 0 16)) :=
    ⟨hfresh.adPart, hfresh.adPartSz, hfresh.adStarted, hfresh.adDone⟩
  have hkey : loadLE 128 (bytesAt key 0 16) = key := loadLE_bytesAt key (by decide)
  have hnonce : loadLE 128 (bytesAt nonce 0 16) = nonce := loadLE_bytesAt nonce (by decide)
  rw [hkey, hnonce] at hfresh
  rw [← aadOnce_fresh hfresh A, ← aadOnce_fresh hfresh A', aadOnce_eq .ascon hcleared,
    aadOnce_eq .ascon hcleared, h]

/-- **A forgery on the associated data**: fifteen bytes, and the same bytes with
the pad byte written out.  Every plaintext is sealed to the same ciphertext and
the same tag. -/
theorem aad_collision :
    let A := List.replicate 15 0#8
    let A' := A ++ [1#8]
    A ≠ A' ∧ ∀ (p : Ctx) (enc : Bool) (key iv : Vector Byte 16),
      let a := (step p (initCall enc (some key.toList) (some iv.toList) {})).1
      aadTranscript a A = aadTranscript a A' ∧
        (aadContext .ascon a A).s = (aadContext .ascon a A').s ∧
        ∀ chunks, sealedBy (run step p (encryptCalls (some key.toList) iv A chunks)).2 =
          sealedBy (run step p (encryptCalls (some key.toList) iv A' chunks)).2 := by
  intro A A'
  refine ⟨by decide, ?_⟩
  intro p enc key iv a
  have hpad : lazyPadded A = lazyPadded A' := by decide
  have hinit : (step p (initCall enc (some key.toList) (some iv.toList) {})).2.ret = 1 := by
    rw [step_initCall, (init_fresh p (length_given key) iv enc).2]
    rfl
  have hcleared : Cleared a := initCall_cleared hinit
  have heq : aadTranscript a A = aadTranscript a A' := (aadTranscript_eq_iff hcleared A A').2 hpad
  refine ⟨heq, state_eq_of_transcript hcleared heq, fun chunks => ?_⟩
  rw [sealedBy_encryptCalls, sealedBy_encryptCalls, lazyStart_eq_of_collide _ _ hpad]

end AsconDtls.Provider
