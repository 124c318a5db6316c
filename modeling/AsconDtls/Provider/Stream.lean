import AsconDtls.Aead
import AsconDtls.Provider.Core

/-!
# The provider's AEAD as a duplex

The counterpart of `Wolf.Stream` for the functions of `ascon_local.h`.  After a
reset the context is `Fresh`.  The data phase starts when `aadFinalize` has run;
from there on the context is `Processing` at a state and a position of the
duplex machine of its direction, whatever its scratch buffers hold.

* `aad_processing`: one AAD call and `aadFinalize` reach `lazyStart`.
* `update_processing`: an update is `feed`, in either direction.
* `final_processing`: the final computes `aeadTag`.

`lazyStart` differs from `aeadStart` in that associated data of whole blocks get
no padding block.
-/

namespace AsconDtls.Provider

open LittleEndian
open Duplex (Machine whileBlocks)

/-! ### Lazy padding -/

/-- Associated data absorbed, and padded only inside a block. -/
def lazyAD (ad : List Byte) (s : AsconState) : AsconState :=
  let c := (encryptMachine.feed (s, 0) ad).1
  if c.2 = 0 then c.1 else permutePB (pad c)

/-- The sponge that the provider's data meet. -/
def lazyStart (key nonce : BitVec 128) (ad : List Byte) : AsconState :=
  domainSep (lazyAD ad (aeadKeyed key (aeadLoad key nonce)))

@[simp] theorem lazyAD_nil (s : AsconState) : lazyAD [] s = s := rfl

/-- The position in the block is the length modulo the rate. -/
theorem feed_position (s : AsconState) (ad : List Byte) :
    (encryptMachine.feed (s, 0) ad).1.2 = ad.length % 16 := by
  have h := encryptMachine.feed_position (c := (s, 0)) (show 0 < ASCON_AEAD128_RATE by decide) ad
  rw [h, Nat.zero_add]
  rfl

/-- Away from whole blocks the padding is that of Ascon-AEAD128. -/
theorem lazyStart_eq_aeadStart (key nonce : BitVec 128) {ad : List Byte}
    (h : ad = [] ∨ ad.length % 16 ≠ 0) : lazyStart key nonce ad = aeadStart key nonce ad := by
  rcases h with rfl | h
  · rfl
  · have hne : ad ≠ [] := by
      rintro rfl
      exact h rfl
    rw [lazyStart, aeadStart, lazyAD, aeadAD, if_neg hne]
    simp only [feed_position]
    rw [if_neg h]

/-! ### Words and blocks -/

theorem asconPermute_PA (s : AsconState) : asconPermute s ASCON_AEAD128_PA = permutePA s :=
  asconPermute_eq_asconP s .r12

theorem asconPermute_PB (s : AsconState) : asconPermute s ASCON_AEAD128_PB = permutePB s :=
  asconPermute_eq_asconP s .r8

theorem keyed_ascon (a : Ctx) : keyed .ascon a = { a with s := aeadKeyed a.key a.s } := by
  rw [aeadKeyed, ← asconPermute_PA, ← AsconState.xorS64_xorS64 _ 3]
  rfl

/-- The words of a block are the halves of its 16-byte value. -/
theorem wordOf_eq_readAt {blk : List Byte} {i : Nat} (hi : i < 2) :
    wordOf blk i = readAt (loadLE 128 blk) (8 * i) 64 := by
  apply ext_byteAt
  intro j hj
  rw [wordOf, byteAt_loadLE _ (by omega), byteAt_readAt _ _ (by omega),
    byteAt_loadLE _ (by omega), List.getElem?_drop]

/-- A full block is XORed in word by word as it would be byte by byte. -/
theorem xorPermute_wordOf (s : AsconState) {blk : List Byte} (h : blk.length = 16) :
    xorPermute .ascon s (wordOf blk) = permutePB (s.xorbuf 0 blk) := by
  rw [s.xorbuf_eq_xorBlock 0 h, ← asconPermute_PB, ← s.xorS64_xorS64 0]
  simp only [xorPermute, wordOf_eq_readAt (show 0 < 2 by omega), wordOf_eq_readAt (show 1 < 2 by omega)]
  rfl

/-- A 16-byte value XORed in word by word. -/
theorem xorPermute_block (s : AsconState) (v : BitVec 128) :
    xorPermute .ascon s (fun i => readAt v (8 * i) 64) = permutePB (s.xorBlock 0 v) := by
  rw [← asconPermute_PB, ← s.xorS64_xorS64 0]
  rfl

theorem s8_xorBlock (s : AsconState) (v : BitVec 128) {i : Nat} (hi : i < 40) :
    (s.xorBlock 0 v).s8 i = s.s8 i ^^^ byteAt v i := by
  rw [AsconState.s8, AsconState.xorBlock, byteAt_xorAt _ _ _ (by omega), if_pos (by omega)]
  rfl

/-- The padded buffer XORed in is the data XORed in and the pad byte after them. -/
theorem xorBlock_padded (s : AsconState) {rest : List Byte} (h : rest.length < 16) :
    s.xorBlock 0 (xorAt (memcpy (0 : BitVec 128) 0 rest) rest.length (1 : Byte)) =
      (s.xorbuf 0 rest).xorS8 rest.length 1 := by
  apply AsconState.ext_s8
  intro i hi
  rw [s8_xorBlock _ _ hi, AsconState.s8_xorS8 _ _ _ hi, AsconState.s8_xorbuf _ _ _ hi,
    if_pos (Nat.zero_le i), Nat.sub_zero, BitVec.xor_assoc]
  congr 1
  by_cases h16 : i < 16
  · rw [byteAt_xorAt _ _ _ (by omega), byteAt_byte, byteAt_memcpy _ _ _ (by omega), Nat.zero_add,
      Nat.sub_zero, byteAt_zero_mem]
    have hdata : (if 0 ≤ i ∧ i < rest.length then rest[i]?.getD 0#8 else 0#8) =
        rest[i]?.getD 0#8 := by
      by_cases hlt : i < rest.length
      · rw [if_pos ⟨Nat.zero_le i, hlt⟩]
      · rw [if_neg (by omega), List.getElem?_eq_none (by omega), Option.getD_none]
    rw [hdata]
    congr 1
    by_cases hle : rest.length ≤ i
    · rw [if_pos hle]
      by_cases heq : i = rest.length
      · rw [if_pos (by omega), if_pos heq]
      · rw [if_neg (by omega), if_neg heq]
    · rw [if_neg hle, if_neg (by omega)]
  · rw [byteAt_of_ge _ (by omega), List.getElem?_eq_none (by omega), if_neg (by omega)]
    rfl

/-! ### The associated data phase -/

/-- A context just reset. -/
structure Fresh (a : Ctx) (key nonce : BitVec 128) (enc : Bool) (tag : BitVec 128) : Prop where
  s : a.s = aeadLoad key nonce
  key : a.key = key
  enc : a.enc = enc
  tag : a.tag = tag
  adPart : a.adPart = 0
  lastBlkSz : a.lastBlkSz = 0
  adPartSz : a.adPartSz = 0
  adStarted : a.adStarted = false
  adDone : a.adDone = false

/-- A context in the data phase, at state and position `c`. -/
structure Processing (a : Ctx) (key : BitVec 128) (enc : Bool) (tag : BitVec 128)
    (c : AsconState × Nat) : Prop where
  s : a.s = c.1
  lastBlkSz : a.lastBlkSz = c.2
  key : a.key = key
  enc : a.enc = enc
  tag : a.tag = tag
  adDone : a.adDone = true

/-- Sixteen bytes stored as two halves. -/
theorem memcpy_halves (s : AsconState) (p : Nat) {bs : List Byte} (h : bs.length = 16) :
    (s.memcpy p (bs.take 8)).memcpy (p + 8) ((bs.drop 8).take 8) = s.setBlock p (loadLE 128 bs) := by
  have hlen : (bs.take 8).length = 8 := by
    rw [List.length_take]
    omega
  have hdrop : (bs.drop 8).take 8 = bs.drop 8 := by
    rw [List.take_of_length_le]
    rw [List.length_drop]
    omega
  have happ := LittleEndian.memcpy_append s.mem p (bs.take 8) (bs.drop 8)
  rw [List.take_append_drop, hlen] at happ
  rw [hdrop, ← s.memcpy_eq_setBlock p h]
  exact congrArg AsconState.mk happ.symm

theorem reset_fresh (a : Ctx) {key nonce : List Byte} (hk : key.length = 16)
    (hn : nonce.length = 16) :
    Fresh (reset a key nonce) (loadLE 128 key) (loadLE 128 nonce) a.enc a.tag := by
  refine ⟨?_, ?_, rfl, rfl, rfl, rfl, rfl, rfl, rfl⟩
  · rw [aeadLoad, ← memcpy_halves _ 8 hk, ← memcpy_halves _ 24 hn]
    rfl
  · exact memcpy_zero_eq_loadLE _ (by decide) _ (by omega)

section Aad

variable {σ : Type} (ops : StateOps σ) {a : AsconAead128Ctx σ}

theorem refill_empty (h : a.adPartSz = 0) (ad : List Byte) (fuel : Nat) :
    refill ops a ad fuel = (a, ad) := by
  cases fuel with
  | zero => rfl
  | succ fuel => rw [refill, if_neg (by omega)]

theorem aadFinalize_done (h : a.adDone = true) : aadFinalize ops a = a := if_pos h

theorem aadFinalize_open (h : a.adDone = false) :
    aadFinalize ops a =
      { padAad ops (keyedUnlessStarted ops a) with
        s := ops.xorWord (padAad ops (keyedUnlessStarted ops a)).s 4 (1#64 <<< 63)
        adDone := true } := if_neg (by simp [h])

theorem keyedUnlessStarted_started (h : a.adStarted = true) : keyedUnlessStarted ops a = a :=
  if_neg (by simp [h])

theorem keyedUnlessStarted_fresh (h : a.adStarted = false) :
    keyedUnlessStarted ops a = keyed ops a := if_pos (by simp [h])

theorem padAad_empty (h : a.adPartSz = 0) : padAad ops a = a := if_neg (by omega)

/-- The block loop of `absorbAad`. -/
def aadBlocks (s : σ) (ad : List Byte) : σ × List Byte × List Byte :=
  let body (blk : List Byte) (s : σ) : σ × List Byte := (xorPermute ops s (wordOf blk), [])
  whileBlocks ASCON_AEAD128_RATE body s ad

theorem length_aadBlocks_rest (s : σ) (ad : List Byte) : (aadBlocks ops s ad).2.2.length < 16 :=
  Duplex.length_whileBlocks_rest (by decide) _ s ad

/-- A buffer with the rest copied in and the pad byte. -/
def padded (adPart : BitVec 128) (rest : List Byte) : BitVec 128 :=
  xorAt (memcpy adPart 0 rest) rest.length (1 : Byte)

/-- The state after one call with all the associated data. -/
def aadOnce (a : AsconAead128Ctx σ) (ad : List Byte) : σ :=
  let w := aadBlocks ops (keyed ops a).s ad
  let s :=
    if 0 < w.2.2.length then
      xorPermute ops w.1 fun i => readAt (padded a.adPart w.2.2) (8 * i) 64
    else w.1
  ops.xorWord s 4 (1#64 <<< 63)

/-- What one AAD call leaves behind. -/
theorem absorbAad_fresh (hstarted : a.adStarted = false) (hsz : a.adPartSz = 0) (ad : List Byte) :
    let w := aadBlocks ops (keyed ops a).s ad
    absorbAad ops a ad =
      if 0 < w.2.2.length then
        { a with
          s := w.1
          adStarted := true
          adPart := memcpy a.adPart 0 w.2.2
          adPartSz := w.2.2.length }
      else { a with s := w.1, adStarted := true } := by
  intro w
  have hrest : w.2.2.length < 16 := length_aadBlocks_rest ops _ ad
  have hu8 : u8 w.2.2.length = w.2.2.length := Nat.mod_eq_of_lt (by omega)
  have hkeyed : ({ keyed ops a with adStarted := true } : AsconAead128Ctx σ).adPartSz = 0 := hsz
  simp only [absorbAad, hstarted, Bool.not_false, if_true]
  rw [refill_empty ops hkeyed]
  have hblocks : whileBlocks ASCON_AEAD128_RATE
      (fun (blk : List Byte) (s : σ) => ((xorPermute ops s (wordOf blk), []) : σ × List Byte))
      (keyed ops a).s ad = w := rfl
  simp only [hblocks, hu8]
  rfl

/-- **One call with all the associated data and `aadFinalize`.** -/
theorem aadFinalize_absorbAad (hstarted : a.adStarted = false) (hsz : a.adPartSz = 0)
    (hdone : a.adDone = false) (ad : List Byte) :
    ∃ adPart, aadFinalize ops (absorbAad ops a ad) =
      { a with
        s := aadOnce ops a ad
        adPart := adPart
        adPartSz := 0
        adStarted := true
        adDone := true } := by
  have habsorb := absorbAad_fresh ops hstarted hsz ad
  simp only [aadOnce]
  generalize aadBlocks ops (keyed ops a).s ad = w at habsorb
  simp only at habsorb
  by_cases hpart : 0 < w.2.2.length
  · refine ⟨padded a.adPart w.2.2, ?_⟩
    rw [if_pos hpart] at habsorb
    rw [habsorb, aadFinalize_open ops (by exact hdone), keyedUnlessStarted_started ops rfl, padAad,
      if_pos hpart, if_pos hpart]
    rfl
  · refine ⟨a.adPart, ?_⟩
    rw [if_neg hpart] at habsorb
    rw [habsorb, aadFinalize_open ops (by exact hdone), keyedUnlessStarted_started ops rfl,
      padAad_empty ops (by exact hsz), if_neg hpart, hsz]

/-- `aadFinalize` alone, without associated data. -/
theorem aadFinalize_fresh (hstarted : a.adStarted = false) (hsz : a.adPartSz = 0)
    (hdone : a.adDone = false) :
    aadFinalize ops a = { a with s := aadOnce ops a [], adDone := true } := by
  have hblocks : aadBlocks ops (keyed ops a).s [] = ((keyed ops a).s, [], []) :=
    Duplex.whileBlocks_of_lt _ _ (by decide)
  have hpad : padAad ops (keyed ops a) = keyed ops a := padAad_empty ops hsz
  rw [aadFinalize_open ops hdone, keyedUnlessStarted_fresh ops hstarted, hpad, aadOnce, hblocks]
  rfl

end Aad

theorem feed_aadBlocks (s : AsconState) (ad : List Byte) :
    (encryptMachine.feed (s, 0) ad).1 =
      ((aadBlocks .ascon s ad).1.xorbuf 0 (aadBlocks .ascon s ad).2.2,
        (aadBlocks .ascon s ad).2.2.length) := by
  have hbody : ∀ (blk : List Byte) (s : AsconState), blk.length = encryptMachine.rate →
      xorPermute .ascon s (wordOf blk) =
        encryptMachine.permute (encryptMachine.absorb 0 blk s).1 := by
    intro blk s hlen
    have h16 : blk.length = 16 := hlen
    rw [encryptMachine, xorMachine_absorb _ _ _ (by omega)]
    exact xorPermute_wordOf s h16
  have hblocks : (encryptMachine.feed (s, 0) ad).1 =
      ((encryptMachine.absorb 0 (aadBlocks .ascon s ad).2.2 (aadBlocks .ascon s ad).1).1,
        (aadBlocks .ascon s ad).2.2.length) :=
    encryptMachine.feed_absorbBlocks (by decide) hbody s ad
  have hrest := length_aadBlocks_rest .ascon s ad
  rw [hblocks, encryptMachine, xorMachine_absorb _ _ _ (by omega)]

variable {a : Ctx} {key nonce tag : BitVec 128} {enc : Bool}

/-- The associated data of a fresh context reach `lazyStart`. -/
theorem aadOnce_fresh (h : Fresh a key nonce enc tag) (ad : List Byte) :
    aadOnce .ascon a ad = lazyStart key nonce ad := by
  have hkeyed : (keyed .ascon a).s = aeadKeyed key (aeadLoad key nonce) := by
    rw [keyed_ascon, h.key, h.s]
  have hrest := length_aadBlocks_rest .ascon (aeadKeyed key (aeadLoad key nonce)) ad
  simp only [aadOnce, lazyStart, lazyAD, hkeyed, feed_aadBlocks, h.adPart, padded]
  generalize aadBlocks .ascon (aeadKeyed key (aeadLoad key nonce)) ad = w at hrest
  by_cases hpart : 0 < w.2.2.length
  · rw [if_pos hpart, if_neg (by omega), xorPermute_block, xorBlock_padded _ hrest]
    rfl
  · have hnil : w.2.2 = [] := List.eq_nil_of_length_eq_zero (by omega)
    rw [if_neg hpart, if_pos (by omega), hnil]
    rfl

/-- No associated data. -/
theorem fresh_processing (h : Fresh a key nonce enc tag) :
    Processing (aadFinalize .ascon a) key enc tag (lazyStart key nonce [], 0) := by
  rw [aadFinalize_fresh .ascon h.adStarted h.adPartSz h.adDone]
  exact ⟨aadOnce_fresh h [], h.lastBlkSz, h.key, h.enc, h.tag, rfl⟩

/-- One call with all the associated data. -/
theorem aad_processing (h : Fresh a key nonce enc tag) (ad : List Byte) :
    Processing (aadFinalize .ascon (absorbAad .ascon a ad)) key enc tag
      (lazyStart key nonce ad, 0) := by
  obtain ⟨adPart, heq⟩ := aadFinalize_absorbAad .ascon h.adStarted h.adPartSz h.adDone ad
  rw [heq]
  exact ⟨aadOnce_fresh h ad, h.lastBlkSz, h.key, h.enc, h.tag, rfl⟩

/-! ### The data phase -/

section Update

variable {D : Machine AsconState Byte} {bytes : Ctx → Nat → List Byte → Ctx × List Byte}
  {block : Ctx → List Byte → Ctx × List Byte} {c : AsconState × Nat}

/-- What is done inside a block is `absorb`, up to the scratch `ct`. -/
structure Absorbs (D : Machine AsconState Byte)
    (bytes : Ctx → Nat → List Byte → Ctx × List Byte)
    (block : Ctx → List Byte → Ctx × List Byte) : Prop where
  rate : D.rate = 16
  permute : D.permute = permutePB
  bytes_eq : ∀ a i bs, i + bs.length ≤ 16 → ∃ ct, bytes a i bs =
    ({ a with s := (D.absorb i bs a.s).1, ct := ct }, (D.absorb i bs a.s).2)
  block_eq : ∀ a blk, blk.length = 16 → ∃ ct, block a blk =
    ({ a with s := (D.absorb 0 blk a.s).1, ct := ct }, (D.absorb 0 blk a.s).2)

theorem Processing.permute (h : Processing a key enc tag c) (n : Nat) :
    Processing { a with s := asconPermute a.s ASCON_AEAD128_PB, lastBlkSz := n } key enc tag
      (permutePB c.1, n) :=
  ⟨by rw [asconPermute_PB, h.s], rfl, h.key, h.enc, h.tag, h.adDone⟩

theorem Processing.absorb (hD : Absorbs D bytes block) (h : Processing a key enc tag c)
    (bs : List Byte) (i n : Nat) (hlen : i + bs.length ≤ 16) :
    Processing { (bytes a i bs).1 with lastBlkSz := n } key enc tag ((D.absorb i bs c.1).1, n) ∧
      (bytes a i bs).1.lastBlkSz = c.2 ∧ (bytes a i bs).2 = (D.absorb i bs c.1).2 := by
  obtain ⟨ct, heq⟩ := hD.bytes_eq a i bs hlen
  rw [heq, ← h.s]
  exact ⟨⟨rfl, rfl, h.key, h.enc, h.tag, h.adDone⟩, h.lastBlkSz, rfl⟩

/-- One round of the block loop. -/
theorem blockRound_processing (hD : Absorbs D bytes block) {t : Ctx × Nat} {s : AsconState}
    {blk : List Byte} (hlen : blk.length = 16) (ht : Processing t.1 key enc tag (s, 0)) :
    Processing (blockRound block blk t).1.1 key enc tag (D.permute (D.absorb 0 blk s).1, 0) ∧
      (blockRound block blk t).2 = (D.absorb 0 blk s).2 := by
  obtain ⟨ct, heq⟩ := hD.block_eq t.1 blk hlen
  simp only [blockRound, heq, hD.permute]
  rw [asconPermute_PB, ht.s]
  exact ⟨⟨rfl, ht.lastBlkSz, ht.key, ht.enc, ht.tag, ht.adDone⟩, rfl⟩

/-- The full blocks and the rest of an update. -/
theorem blocksAndRest_processing (hD : Absorbs D bytes block) {s : AsconState}
    (h : Processing a key enc tag (s, 0)) (total : Nat) (inp : List Byte) :
    let r := blocksAndRest bytes block (a, total) inp
    Processing r.1 key enc tag (D.feed (s, 0) inp).1 ∧ r.2.1 = (D.feed (s, 0) inp).2 ∧
      r.2.2 = total + inp.length := by
  let body (blk : List Byte) (s : AsconState) : AsconState × List Byte :=
    (D.permute (D.absorb 0 blk s).1, (D.absorb 0 blk s).2)
  have hrate : ASCON_AEAD128_RATE = D.rate := hD.rate.symm
  have h16 : ASCON_AEAD128_RATE = 16 := rfl
  have hround : ∀ (blk : List Byte) (t : Ctx × Nat) (s : AsconState),
      blk.length = ASCON_AEAD128_RATE → Processing t.1 key enc tag (s, 0) →
      Processing (blockRound block blk t).1.1 key enc tag ((body blk s).1, 0) ∧
        (blockRound block blk t).2 = (body blk s).2 :=
    fun blk t s hlen ht => blockRound_processing hD hlen ht
  have hrel := Duplex.whileBlocks_rel (fun (t : Ctx × Nat) s => Processing t.1 key enc tag (s, 0))
    (fun x y => x = y) rfl (fun x x' y y' hx hy => by rw [hx, hy]) hround (s := (a, total)) h inp
  have hcount := Duplex.whileBlocks_count (fun t : Ctx × Nat => t.2)
    (fun (blk : List Byte) t (_ : blk.length = ASCON_AEAD128_RATE) =>
      (rfl : (blockRound block blk t).1.2 = t.2 + ASCON_AEAD128_RATE)) (a, total) inp
  have hfeed : D.feed (s, 0) inp =
      let W := whileBlocks ASCON_AEAD128_RATE body s inp
      (((D.absorb 0 W.2.2 W.1).1, W.2.2.length), W.2.1 ++ (D.absorb 0 W.2.2 W.1).2) := by
    rw [hrate]
    exact D.feed_whileBlocks (by omega) (fun _ _ _ => rfl) s inp
  obtain ⟨hstate, hout, hrest⟩ := hrel
  have hlt := Duplex.length_whileBlocks_rest (show 0 < ASCON_AEAD128_RATE by decide)
    (blockRound block) (a, total) inp
  simp only at hfeed hcount
  rw [hfeed, ← hrest, ← hout]
  simp only [blocksAndRest]
  generalize whileBlocks ASCON_AEAD128_RATE (blockRound block) (a, total) inp = w at *
  have hu8 : u8 w.2.2.length = w.2.2.length := Nat.mod_eq_of_lt (by omega)
  by_cases hpos : 0 < w.2.2.length
  · rw [if_pos hpos, hu8]
    obtain ⟨hproc, -, hbs⟩ := hstate.absorb hD w.2.2 0 w.2.2.length (by omega)
    exact ⟨hproc, by rw [hbs], hcount⟩
  · rw [if_neg hpos]
    have hnil : w.2.2 = [] := List.eq_nil_of_length_eq_zero (by omega)
    rw [hnil] at hcount ⊢
    exact ⟨hstate, by simp, hcount⟩

/-- The block in progress, filled as far as the input goes. -/
theorem fillBlock_processing (hD : Absorbs D bytes block) (h : Processing a key enc tag c)
    (hc : c.2 < 16) (inp : List Byte) :
    let r := fillBlock bytes a inp
    ∃ pre, inp = pre ++ r.2.2 ∧ Processing r.1.1 key enc tag (D.feed c pre).1 ∧
      ((D.feed c pre).1.2 = 0 ∨ r.2.2 = []) ∧ r.2.1 = (D.feed c pre).2 ∧ r.1.2 = pre.length := by
  obtain ⟨s, i⟩ := c
  have hi : a.lastBlkSz = i := h.lastBlkSz
  have hrate := hD.rate
  have h16 : ASCON_AEAD128_RATE = 16 := rfl
  simp only at hc
  simp only [fillBlock, hi, h16]
  by_cases h0 : 0 < i
  · rw [if_pos h0]
    have hlen : (inp.take (min (16 - i) inp.length)).length = min (16 - i) inp.length := by simp
    have hsplit : inp = inp.take (min (16 - i) inp.length) ++ inp.drop (min (16 - i) inp.length) :=
      (List.take_append_drop _ inp).symm
    obtain ⟨hproc, hsz, hout⟩ := h.absorb hD (inp.take (min (16 - i) inp.length)) i
      (u8 (i + u8 (min (16 - i) inp.length))) (by omega)
    have hu8 : u8 (i + u8 (min (16 - i) inp.length)) = i + min (16 - i) inp.length := by
      simp only [u8]
      omega
    rw [hu8] at hproc
    simp only [hsz, hu8, hout]
    refine ⟨inp.take (min (16 - i) inp.length), hsplit, ?_⟩
    by_cases hfull : i + min (16 - i) inp.length = 16
    · rw [if_pos hfull, D.feed_of_eq (by omega) (by omega), hD.permute]
      exact ⟨hproc.permute 0, .inl rfl, rfl, hlen.symm⟩
    · rw [if_neg hfull, D.feed_of_lt (by omega), hlen]
      refine ⟨hproc, .inr ?_, rfl, rfl⟩
      exact List.drop_of_length_le (by omega)
  · have hi0 : i = 0 := by omega
    subst hi0
    rw [if_neg h0]
    exact ⟨[], rfl, h, .inl rfl, rfl, rfl⟩

/-- **An update is `feed`**, and reports as many bytes as it was given. -/
theorem update_processing (hD : Absorbs D bytes block)
    (h : Processing (aadFinalize .ascon a) key enc tag c) (hc : c.2 < 16) (inp : List Byte) :
    let r := streamUpdate bytes block a inp
    Processing r.1 key enc tag (D.feed c inp).1 ∧ r.2.1 = (D.feed c inp).2 ∧
      r.2.2 = inp.length := by
  obtain ⟨pre, hpre, hproc, hend, hout, htotal⟩ := fillBlock_processing hD h hc inp
  simp only [streamUpdate]
  generalize fillBlock bytes (aadFinalize .ascon a) inp = r at hpre hproc hend hout htotal
  obtain ⟨⟨b, total⟩, out, rest⟩ := r
  simp only at hpre hproc hend hout htotal
  subst htotal
  rcases hend with h0 | hnil
  · have hstart : Processing b key enc tag ((D.feed c pre).1.1, 0) := by
      rw [← h0]
      exact hproc
    obtain ⟨hproc', hout', htotal'⟩ := blocksAndRest_processing hD hstart pre.length rest
    have hpos : (D.feed c pre).1 = ((D.feed c pre).1.1, 0) := Prod.ext rfl h0
    rw [hpre, D.feed_append, hpos, List.length_append]
    exact ⟨hproc', by rw [hout, hout'], htotal'⟩
  · subst hnil
    have hnone : blocksAndRest bytes block (b, pre.length) [] = (b, [], pre.length) := by
      rw [blocksAndRest, Duplex.whileBlocks_of_lt _ _ (by decide)]
      rfl
    rw [List.append_nil] at hpre
    rw [hpre, hnone]
    exact ⟨hproc, by rw [hout, List.append_nil], rfl⟩

end Update

/-! ### The two directions -/

/-- The bytes of a word of memory. -/
theorem wordBytes_readAt {n : Nat} (m : BitVec n) (p : Nat) :
    wordBytes (readAt m p 64) = bytesAt m p 8 := by
  refine bytesAt_congr fun j hj => ?_
  rw [Nat.zero_add, byteAt_readAt _ _ (by omega)]

theorem encryptBlock_out (s : AsconState) (v w : BitVec 64) :
    wordBytes ((s.xorS64 0 v).s64 0) ++ wordBytes (((s.xorS64 0 v).xorS64 1 w).s64 1) =
      ((s.xorS64 0 v).xorS64 1 w).bytes 0 16 := by
  have hlow : ((s.xorS64 0 v).xorS64 1 w).s64 0 = (s.xorS64 0 v).s64 0 := by
    rw [AsconState.s64_xorS64 (s.xorS64 0 v) w (by decide) (by decide), if_neg (by decide)]
  rw [← hlow, AsconState.s64, AsconState.s64, wordBytes_readAt, wordBytes_readAt]
  exact (bytesAt_add _ 0 8 8).symm

/-- A block is the bytes of its two words. -/
theorem words_of_block {blk : List Byte} (h : blk.length = 16) :
    blk = wordBytes (readAt (loadLE 128 blk) 0 64) ++ wordBytes (readAt (loadLE 128 blk) 8 64) := by
  have hall := bytesAt_loadLE (w := 128) blk (by omega)
  rw [h] at hall
  rw [wordBytes_readAt, wordBytes_readAt]
  exact hall.symm.trans (bytesAt_add _ 0 8 8)

theorem decryptBlock_out (s : AsconState) {blk : List Byte} (h : blk.length = 16) :
    wordBytes (s.s64 0 ^^^ readAt (loadLE 128 blk) 0 64) ++
        wordBytes (s.s64 1 ^^^ readAt (loadLE 128 blk) 8 64) =
      xorbufout (s.bytes 0 16) blk := by
  have hxor : ∀ v w : BitVec 64, wordBytes (v ^^^ w) = xorbufout (wordBytes v) (wordBytes w) :=
    fun v w => bytesAt_xor v w 0 8
  have hbytes : s.bytes 0 16 = s.bytes 0 8 ++ s.bytes 8 8 := bytesAt_add _ 0 8 8
  rw [hxor, hxor, AsconState.s64, AsconState.s64, wordBytes_readAt s.mem, wordBytes_readAt s.mem,
    hbytes]
  conv_rhs => rw [words_of_block h]
  exact (List.zipWith_append (by simp [wordBytes])).symm

theorem encrypt_absorbs : Absorbs encryptMachine encryptBytes encryptBlock where
  rate := rfl
  permute := rfl
  bytes_eq := by
    intro a i bs _
    exact ⟨a.ct, by rw [encryptBytes, xorStore_eq_absorb]; rfl⟩
  block_eq := by
    intro a blk hlen
    refine ⟨a.ct, ?_⟩
    have hstate : (a.s.xorS64 0 (wordOf blk 0)).xorS64 1 (wordOf blk 1) = a.s.xorbuf 0 blk := by
      rw [a.s.xorbuf_eq_xorBlock 0 hlen, ← a.s.xorS64_xorS64 0, wordOf_eq_readAt (by omega),
        wordOf_eq_readAt (by omega)]
    have hout := encryptBlock_out a.s (wordOf blk 0) (wordOf blk 1)
    rw [hstate] at hout
    rw [encryptMachine, xorMachine_absorb _ _ _ (by omega), hlen, ← hout, ← hstate]
    rfl

theorem decrypt_absorbs : Absorbs decryptMachine decryptBytes decryptBlock where
  rate := rfl
  permute := rfl
  bytes_eq := by
    intro a i bs hlen
    refine ⟨memcpy a.ct 0 bs, ?_⟩
    simp only [decryptBytes]
    rw [bytesAt_memcpy _ _ (by omega), putStore_eq_absorb]
    rfl
  block_eq := by
    intro a blk hlen
    refine ⟨memcpy a.ct 0 blk, ?_⟩
    have hct : memcpy a.ct 0 blk = loadLE 128 blk := memcpy_zero_eq_loadLE _ (by decide) _ (by omega)
    have hstate : (a.s.setS64 0 (readAt (loadLE 128 blk) 0 64)).setS64 1
        (readAt (loadLE 128 blk) 8 64) = a.s.memcpy 0 blk := by
      rw [a.s.memcpy_eq_setBlock 0 hlen, ← a.s.setS64_setS64 0]
    have hhigh : (a.s.setS64 0 (readAt (loadLE 128 blk) 0 64)).s64 1 = a.s.s64 1 := by
      rw [AsconState.s64_setS64 _ _ (by decide) (by decide), if_neg (by decide)]
    rw [decryptMachine, putMachine_absorb _ _ _ (by omega), hlen, ← decryptBlock_out _ hlen, ← hstate,
      ← hhigh]
    simp only [decryptBlock, AsconAead128Ctx.ctWord, hct]

/-! ### The final -/

theorem foldl_or_eq_zero (f : Nat → Byte) (d : Byte) (l : List Nat) :
    l.foldl (fun d i => d ||| f i) d = 0#8 ↔ d = 0#8 ∧ ∀ i ∈ l, f i = 0#8 := by
  induction l generalizing d with
  | nil => simp
  | cons i l ih =>
      rw [List.foldl_cons, ih, BitVec.or_eq_zero_iff, List.forall_mem_cons, and_assoc]

/-- The comparison without branches is equality. -/
theorem tagDiff_eq_zero (x y : BitVec 128) : tagDiff x y = 0 ↔ x = y := by
  refine (foldl_or_eq_zero _ _ _).trans ?_
  refine ⟨?_, ?_⟩
  · rintro ⟨-, hall⟩
    refine ext_byteAt fun i hi => ?_
    exact BitVec.xor_eq_zero_iff.mp (hall i (List.mem_range.mpr (by omega)))
  · rintro rfl
    exact ⟨rfl, fun i _ => BitVec.xor_self⟩

/-- The tag as the context holds it. -/
def tagValue (key : BitVec 128) (c : AsconState × Nat) : BitVec 128 := loadLE 128 (aeadTag key c)

theorem bytesAt_tagValue (key : BitVec 128) (c : AsconState × Nat) :
    bytesAt (tagValue key c) 0 16 = aeadTag key c := by
  have h := bytesAt_loadLE (w := 128) (aeadTag key c) (by rw [length_aeadTag])
  rwa [length_aeadTag] at h

/-- The final of any context: the closed sponge, and the tag stored or compared. -/
theorem final_eq (a : Ctx) :
    final a =
      let b := aadFinalize .ascon a
      let T := tagValue b.key (b.s, b.lastBlkSz)
      let b' := { b with s := aeadClose b.key (b.s, b.lastBlkSz) }
      if b.enc then ({ b' with tag := T }, true) else (b', decide (T = b.tag)) := by
  simp only [← tagDiff_eq_zero]
  rw [tagValue, aeadTag, aeadClose, aeadKeyed, ← AsconState.xorS64_xorS64 _ 2,
    ← AsconState.xorS64_xorS64 _ 3, ← asconPermute_PA, pad]
  rfl

theorem final_processing {c : AsconState × Nat} (h : Processing (aadFinalize .ascon a) key enc tag c) :
    (final a).1.key = key ∧
      (enc = true → (final a).1.tag = tagValue key c ∧ (final a).2 = true) ∧
      (enc = false → ((final a).2 = true ↔ tagValue key c = tag)) := by
  have hc : ((aadFinalize .ascon a).s, (aadFinalize .ascon a).lastBlkSz) = c :=
    Prod.ext h.s h.lastBlkSz
  simp only [final_eq, h.key, h.enc, h.tag, hc]
  cases enc with
  | true => exact ⟨rfl, fun _ => ⟨rfl, rfl⟩, fun h0 => absurd h0 (by decide)⟩
  | false => exact ⟨rfl, fun h0 => absurd h0 (by decide), fun _ => decide_eq_true_iff⟩

end AsconDtls.Provider
