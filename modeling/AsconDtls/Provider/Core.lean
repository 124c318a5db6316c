import AsconDtls.Sponge

/-!
# The AEAD of `ascon_local.h`

`ASCON_AEAD128_CTX` and the functions on it.  The associated data are absorbed
lazily: `absorbAad` buffers a partial block in `adPart`, and `aadFinalize`, which
the first data call runs, pads the buffer if there is something in it.

The AAD functions only XOR words into the state and permute it, so they are
written over `StateOps` for any type of state; `StateOps.ascon` is the Ascon
state itself.  Sizes are `uint8_t` and every store to one goes through `u8`.
-/

namespace AsconDtls.Provider

open LittleEndian
open Duplex (whileBlocks)

def ASCON_AEAD128_PA : Nat := 12
def ASCON_AEAD128_PB : Nat := 8
def ASCON_AEAD128_IV : BitVec 64 := 0x00001000808C0001

/-- A conversion to `uint8_t`. -/
def u8 (n : Nat) : Nat := n % 256

/-- `ASCON_AEAD128_CTX`, with any type of state `s`. -/
structure AsconAead128Ctx (σ : Type) where
  s : σ
  key : BitVec 128
  adPart : BitVec 128
  ct : BitVec 128
  /-- Expected (decrypt) or computed (encrypt). -/
  tag : BitVec 128
  lastBlkSz : Nat
  adPartSz : Nat
  enc : Bool
  adStarted : Bool
  adDone : Bool
deriving DecidableEq

abbrev Ctx := AsconAead128Ctx AsconState

/-- What the AAD functions do to the state. -/
structure StateOps (σ : Type) where
  /-- `s[i] ^= v`. -/
  xorWord : σ → Nat → BitVec 64 → σ
  /-- `ascon_permute(s, rounds)`. -/
  permute : σ → Nat → σ

def StateOps.ascon : StateOps AsconState where
  xorWord := AsconState.xorS64
  permute := asconPermute

namespace AsconAead128Ctx

/-- `OPENSSL_zalloc(sizeof(ASCON_AEAD128_CTX))`. -/
def zero : Ctx :=
  { s := .zero, key := 0, adPart := 0, ct := 0, tag := 0, lastBlkSz := 0, adPartSz := 0,
    enc := false, adStarted := false, adDone := false }

/-- `key[i]`. -/
def keyWord {σ : Type} (a : AsconAead128Ctx σ) (i : Nat) : BitVec 64 := readAt a.key (8 * i) 64

/-- `((const uint64_t *)adPart)[i]`. -/
def adPartWord {σ : Type} (a : AsconAead128Ctx σ) (i : Nat) : BitVec 64 :=
  readAt a.adPart (8 * i) 64

/-- `((const uint64_t *)ct)[i]`. -/
def ctWord (a : Ctx) (i : Nat) : BitVec 64 := readAt a.ct (8 * i) 64

end AsconAead128Ctx

/-- `((const uint64_t *)p)[i]`. -/
def wordOf (p : List Byte) (i : Nat) : BitVec 64 := loadLE 64 (p.drop (8 * i))

/-- `ascon_aead128_reset`. -/
def reset (a : Ctx) (key nonce : List Byte) : Ctx :=
  let a := { a with s := AsconState.zero }
  let a := { a with key := memcpy a.key 0 key }
  let s := a.s.setS64 0 ASCON_AEAD128_IV
  let s := s.memcpy 8 (key.take 8)
  let s := s.memcpy 16 ((key.drop 8).take 8)
  let s := s.memcpy 24 (nonce.take 8)
  let s := s.memcpy 32 ((nonce.drop 8).take 8)
  { a with s := s, lastBlkSz := 0, adPartSz := 0, adStarted := false, adDone := false, adPart := 0,
           ct := 0 }

/-! ### Associated data -/

section Aad

variable {σ : Type} (ops : StateOps σ)

/-- `PA` and the key. -/
def keyed (a : AsconAead128Ctx σ) : AsconAead128Ctx σ :=
  let s := ops.permute a.s ASCON_AEAD128_PA
  let s := ops.xorWord s 3 (a.keyWord 0)
  let s := ops.xorWord s 4 (a.keyWord 1)
  { a with s := s }

/-- `for (i = 0; i < 2; i++) s[i] ^= w[i];` and then `PB`. -/
def xorPermute (s : σ) (w : Nat → BitVec 64) : σ :=
  let s := ops.xorWord s 0 (w 0)
  let s := ops.xorWord s 1 (w 1)
  ops.permute s ASCON_AEAD128_PB

/-- `while (adPartSz > 0 && adSz > 0)`: the context and the data left over.  A
round empties the data or the buffer, so `fuel` is not used up. -/
def refill (a : AsconAead128Ctx σ) (ad : List Byte) : Nat → AsconAead128Ctx σ × List Byte
  | 0 => (a, ad)
  | fuel + 1 =>
    if 0 < a.adPartSz ∧ 0 < ad.length then
      let n := min (ASCON_AEAD128_RATE - a.adPartSz) ad.length
      let a := { a with adPart := memcpy a.adPart a.adPartSz (ad.take n) }
      let a := { a with adPartSz := u8 (a.adPartSz + u8 n) }
      let a :=
        if a.adPartSz = ASCON_AEAD128_RATE then
          { a with s := xorPermute ops a.s a.adPartWord, adPartSz := 0 }
        else a
      refill a (ad.drop n) fuel
    else (a, ad)

/-- `ascon_aead128_absorb_aad`. -/
def absorbAad (a : AsconAead128Ctx σ) (ad : List Byte) : AsconAead128Ctx σ :=
  let a := if !a.adStarted then { keyed ops a with adStarted := true } else a
  let r := refill ops a ad (ad.length + 1)
  let body (blk : List Byte) (s : σ) : σ × List Byte := (xorPermute ops s (wordOf blk), [])
  let w := whileBlocks ASCON_AEAD128_RATE body r.1.s r.2
  let a := { r.1 with s := w.1 }
  if 0 < w.2.2.length then
    { a with adPart := memcpy a.adPart 0 w.2.2, adPartSz := u8 w.2.2.length }
  else a

/-- `if (!adStarted)` of `ascon_aead128_aad_finalize`, which leaves the flag. -/
def keyedUnlessStarted (a : AsconAead128Ctx σ) : AsconAead128Ctx σ :=
  if !a.adStarted then keyed ops a else a

/-- `if (adPartSz > 0)` of `ascon_aead128_aad_finalize`. -/
def padAad (a : AsconAead128Ctx σ) : AsconAead128Ctx σ :=
  if 0 < a.adPartSz then
    let a := { a with adPart := xorAt a.adPart a.adPartSz (1 : Byte) }
    { a with s := xorPermute ops a.s a.adPartWord, adPartSz := 0 }
  else a

/-- `ascon_aead128_aad_finalize`. -/
def aadFinalize (a : AsconAead128Ctx σ) : AsconAead128Ctx σ :=
  if a.adDone then a
  else
    let a := padAad ops (keyedUnlessStarted ops a)
    { a with s := ops.xorWord a.s 4 (1#64 <<< 63), adDone := true }

end Aad

/-! ### Data -/

/-- The bytes of a word, as the store of a `uint64_t` writes them. -/
def wordBytes (w : BitVec 64) : List Byte := bytesAt w 0 8

/-- A partial block of encryption at position `i`. -/
def encryptBytes (a : Ctx) (i : Nat) (bs : List Byte) : Ctx × List Byte :=
  let t := xorStore a.s i bs
  ({ a with s := t.1 }, t.2)

/-- A full block of encryption. -/
def encryptBlock (a : Ctx) (blk : List Byte) : Ctx × List Byte :=
  let s := a.s.xorS64 0 (wordOf blk 0)
  let out0 := wordBytes (s.s64 0)
  let s := s.xorS64 1 (wordOf blk 1)
  let out1 := wordBytes (s.s64 1)
  ({ a with s := s }, out0 ++ out1)

/-- A partial block of decryption at position `i`, through the scratch `ct`. -/
def decryptBytes (a : Ctx) (i : Nat) (bs : List Byte) : Ctx × List Byte :=
  let a := { a with ct := memcpy a.ct 0 bs }
  let t := putStore a.s i (bytesAt a.ct 0 bs.length)
  ({ a with s := t.1 }, t.2)

/-- A full block of decryption. -/
def decryptBlock (a : Ctx) (blk : List Byte) : Ctx × List Byte :=
  let a := { a with ct := memcpy a.ct 0 blk }
  let out0 := wordBytes (a.s.s64 0 ^^^ a.ctWord 0)
  let s := a.s.setS64 0 (a.ctWord 0)
  let out1 := wordBytes (s.s64 1 ^^^ a.ctWord 1)
  let s := s.setS64 1 (a.ctWord 1)
  ({ a with s := s }, out0 ++ out1)

section Stream

variable (bytes : Ctx → Nat → List Byte → Ctx × List Byte)
  (block : Ctx → List Byte → Ctx × List Byte)

/-- `if (lastBlkSz > 0)`: the context and `total`, the bytes written, the rest of
the input. -/
def fillBlock (a : Ctx) (inp : List Byte) : (Ctx × Nat) × List Byte × List Byte :=
  if 0 < a.lastBlkSz then
    let n := min (ASCON_AEAD128_RATE - a.lastBlkSz) inp.length
    let t := bytes a a.lastBlkSz (inp.take n)
    let a := { t.1 with lastBlkSz := u8 (t.1.lastBlkSz + u8 n) }
    let a :=
      if a.lastBlkSz = ASCON_AEAD128_RATE then
        { a with s := asconPermute a.s ASCON_AEAD128_PB, lastBlkSz := 0 }
      else a
    ((a, n), t.2, inp.drop n)
  else ((a, 0), [], inp)

/-- One round of `while (inSz >= ASCON_AEAD128_RATE)`. -/
def blockRound (blk : List Byte) (t : Ctx × Nat) : (Ctx × Nat) × List Byte :=
  let u := block t.1 blk
  (({ u.1 with s := asconPermute u.1.s ASCON_AEAD128_PB }, t.2 + ASCON_AEAD128_RATE), u.2)

/-- The full blocks and `if (inSz > 0)`. -/
def blocksAndRest (t : Ctx × Nat) (inp : List Byte) : Ctx × List Byte × Nat :=
  let w := whileBlocks ASCON_AEAD128_RATE (blockRound block) t inp
  if 0 < w.2.2.length then
    let t := bytes w.1.1 0 w.2.2
    ({ t.1 with lastBlkSz := u8 w.2.2.length }, w.2.1 ++ t.2, w.1.2 + w.2.2.length)
  else (w.1.1, w.2.1, w.1.2)

/-- `ascon_aead128_encrypt_update` and `decrypt_update` are one text up to what
is done with a partial and with a full block.  The last component is `total`. -/
def streamUpdate (a : Ctx) (inp : List Byte) : Ctx × List Byte × Nat :=
  let a := aadFinalize .ascon a
  let r := fillBlock bytes a inp
  let t := blocksAndRest bytes block r.1 r.2.2
  (t.1, r.2.1 ++ t.2.1, t.2.2)

end Stream

/-- `ascon_aead128_encrypt_update`: the context, the bytes written and their number. -/
def encryptUpdate (a : Ctx) (inp : List Byte) : Ctx × List Byte × Nat :=
  streamUpdate encryptBytes encryptBlock a inp

/-- `ascon_aead128_decrypt_update`. -/
def decryptUpdate (a : Ctx) (inp : List Byte) : Ctx × List Byte × Nat :=
  streamUpdate decryptBytes decryptBlock a inp

/-- `diff |= computed[i] ^ tag[i]` over the 16 bytes. -/
def tagDiff (computed tag : BitVec 128) : Byte :=
  (List.range 16).foldl (fun diff i => diff ||| (byteAt computed i ^^^ byteAt tag i)) 0

/-- `ascon_aead128_final`. -/
def final (a : Ctx) : Ctx × Bool :=
  let a := aadFinalize .ascon a
  let s := a.s.xorS8 a.lastBlkSz 1
  let s := s.xorS64 2 (a.keyWord 0)
  let s := s.xorS64 3 (a.keyWord 1)
  let s := asconPermute s ASCON_AEAD128_PA
  let s := s.xorS64 3 (a.keyWord 0)
  let s := s.xorS64 4 (a.keyWord 1)
  let a := { a with s := s }
  let computed : BitVec 128 := loadLE 128 (a.s.bytes 24 16)
  if a.enc then ({ a with tag := computed }, true)
  else (a, decide (tagDiff computed a.tag = 0))

end AsconDtls.Provider
