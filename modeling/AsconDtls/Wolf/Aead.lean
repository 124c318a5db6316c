import AsconDtls.Lib.Run
import AsconDtls.MaskPrf
import AsconDtls.Sponge

/-!
# `wc_AsconAEAD128_*`

The AEAD API of `wolfcrypt/src/ascon.c`.  A context is `AsconAEAD128`; each
function takes it to a new context and a `Reply`: the return code and the bytes
it wrote to its output buffer.  `Call` is one call with its arguments, `step`
performs it.

`ascon.h` is not part of the repository, so the return codes are names and
`lastBlkSz` is a `Nat`; no value above 16 is ever stored in it.  A `Build` is
what a compiled library fixes: which permutation of `ascon.c` it has and the
`ConstantCompare` of `misc.c`.  A call with a null context returns
`BAD_FUNC_ARG` and has no context to speak of, so it is not a `Call`.
-/

namespace AsconDtls.Wolf

open LittleEndian
open Duplex (threePhase)

/-- `0`, `BAD_FUNC_ARG`, `BAD_STATE_E`, `ASCON_AUTH_E`. -/
inductive Ret
  | ok
  | badFuncArg
  | badStateE
  | asconAuthE
deriving DecidableEq

/-- What a call returns and what it writes to its output buffer. -/
structure Reply where
  ret : Ret
  out : List Byte
deriving DecidableEq

def Reply.ok (out : List Byte) : Reply := ⟨.ok, out⟩
def Reply.fail (ret : Ret) : Reply := ⟨ret, []⟩

/-- A `const byte*` and a `word32` length; `null` carries the length alone. -/
inductive Src
  | null (sz : Nat)
  | ptr (data : List Byte)
deriving DecidableEq

/-- `p == NULL && sz > 0`. -/
def Src.bad : Src → Bool
  | .null sz => decide (0 < sz)
  | .ptr _ => false

def Src.data : Src → List Byte
  | .null _ => []
  | .ptr data => data

/-- A `byte*` that is written to. -/
inductive Dst
  | null
  | ptr
deriving DecidableEq

/-- `ASCON_AEAD128_NOTSET`, `_ENCRYPT`, `_DECRYPT`. -/
inductive Op
  | notSet
  | encrypt
  | decrypt
deriving DecidableEq

structure AsconAEAD128 where
  state : AsconState
  /-- `word64 key[2]`. -/
  key : BitVec 128
  /-- `word64 iv[2]`: the per-epoch IV, which the record layer keeps here. -/
  iv : Vector (BitVec 64) 2
  lastBlkSz : Nat
  op : Op
  keySet : Bool
  nonceSet : Bool
  adSet : Bool
deriving DecidableEq

/-- What the compiled library fixes. -/
structure Build where
  path : Path
  /-- `ConstantCompare(a, b, 16)`. -/
  constantCompare : List Byte → List Byte → Int

def Build.permutation (B : Build) : AsconState → Rounds → AsconState := B.path.permutation

/-- `ConstantCompare` returns 0 exactly on equal buffers. -/
def Build.ComparesEqual (B : Build) : Prop := ∀ x y, B.constantCompare x y = 0 ↔ x = y

def ASCON_AEAD128_ROUNDS_PA : Rounds := .r12
def ASCON_AEAD128_ROUNDS_PB : Rounds := .r8
def ASCON_AEAD128_IV : BitVec 64 := 0x00001000808C0001

namespace AsconAEAD128

/-- `XMEMSET(a, 0, sizeof(*a))`. -/
def zero : AsconAEAD128 :=
  { state := .zero, key := 0, iv := #v[0, 0], lastBlkSz := 0, op := .notSet, keySet := false,
    nonceSet := false, adSet := false }

/-- `a->key[i]`. -/
def keyWord (a : AsconAEAD128) (i : Nat) : BitVec 64 := readAt a.key (8 * i) 64

def init (a : AsconAEAD128) : AsconAEAD128 × Reply :=
  let iv0 := a.iv[0]
  let iv1 := a.iv[1]
  let a := { zero with iv := #v[iv0, iv1] }
  ({ a with state := a.state.setS64 0 ASCON_AEAD128_IV }, .ok [])

def setKey (a : AsconAEAD128) (key : Option (Vector Byte 16)) : AsconAEAD128 × Reply :=
  match key with
  | none => (a, .fail .badFuncArg)
  | some key =>
    if a.keySet then (a, .fail .badStateE)
    else
      let a := { a with key := memcpy a.key 0 key.toList }
      let a := { a with state := a.state.setS64 1 (a.keyWord 0) }
      let a := { a with state := a.state.setS64 2 (a.keyWord 1) }
      ({ a with keySet := true }, .ok [])

def setNonce (a : AsconAEAD128) (nonce : Option (Vector Byte 16)) : AsconAEAD128 × Reply :=
  match nonce with
  | none => (a, .fail .badFuncArg)
  | some nonce =>
    if a.nonceSet then (a, .fail .badStateE)
    else
      let a := { a with state := a.state.memcpy 24 nonce.toList }
      ({ a with nonceSet := true }, .ok [])

/-- The associated data after the key is in: full blocks, then the padded rest. -/
def absorbAD (B : Build) (s : AsconState) (ad : List Byte) : AsconState :=
  let body (blk : List Byte) (s : AsconState) : AsconState × List Byte :=
    (B.permutation (s.xorbuf 0 blk) ASCON_AEAD128_ROUNDS_PB, [])
  let r := Duplex.whileBlocks ASCON_AEAD128_RATE body s ad
  let s := r.1.xorbuf 0 r.2.2
  let s := s.xorS8 r.2.2.length 1
  B.permutation s ASCON_AEAD128_ROUNDS_PB

def setAD (B : Build) (a : AsconAEAD128) (ad : Src) : AsconAEAD128 × Reply :=
  if ad.bad then (a, .fail .badFuncArg)
  else if !a.keySet || !a.nonceSet then (a, .fail .badStateE)
  else
    let s := B.permutation a.state ASCON_AEAD128_ROUNDS_PA
    let s := s.xorS64 3 (a.keyWord 0)
    let s := s.xorS64 4 (a.keyWord 1)
    let s := if 0 < ad.data.length then absorbAD B s ad.data else s
    let s := s.xorS64 4 (1#64 <<< 63)
    ({ a with state := s, adSet := true }, .ok [])

/-- `xorbuf(&s8[i], in, n)` and `XMEMCPY(out, &s8[i], n)`. -/
def encryptPart (i : Nat) (bs : List Byte) (s : AsconState) : AsconState × List Byte :=
  let s := s.xorbuf i bs
  (s, s.bytes i bs.length)

/-- `xorbufout(out, &s8[i], ct, n)` and `XMEMCPY(&s8[i], ct, n)`. -/
def decryptPart (i : Nat) (ct : List Byte) (s : AsconState) : AsconState × List Byte :=
  let out := xorbufout (s.bytes i ct.length) ct
  (s.memcpy i ct, out)

/-- The leftover, the full blocks and the new leftover of an update call. -/
def process (B : Build) (part : Nat → List Byte → AsconState → AsconState × List Byte)
    (a : AsconAEAD128) (data : List Byte) : AsconAEAD128 × Reply :=
  let r := threePhase ASCON_AEAD128_RATE (fun s => B.permutation s ASCON_AEAD128_ROUNDS_PB) part
    (a.state, a.lastBlkSz) data
  ({ a with state := r.1.1, lastBlkSz := r.1.2 }, .ok r.2)

/-- `wc_AsconAEAD128_EncryptUpdate` and `DecryptUpdate` are one text up to the
direction and what is done inside a block. -/
def update (B : Build) (dir : Op) (part : Nat → List Byte → AsconState → AsconState × List Byte)
    (a : AsconAEAD128) (inp : Src) : AsconAEAD128 × Reply :=
  if inp.bad then (a, .fail .badFuncArg)
  else if !a.keySet || !a.nonceSet || !a.adSet then (a, .fail .badStateE)
  else if a.op = .notSet then process B part { a with op := dir } inp.data
  else if a.op ≠ dir then (a, .fail .badStateE)
  else process B part a inp.data

def encryptUpdate (B : Build) (a : AsconAEAD128) (inp : Src) : AsconAEAD128 × Reply :=
  update B .encrypt encryptPart a inp

def decryptUpdate (B : Build) (a : AsconAEAD128) (inp : Src) : AsconAEAD128 × Reply :=
  update B .decrypt decryptPart a inp

/-- Both finals: pad, add the key, permute, add the key. -/
def finalize (B : Build) (a : AsconAEAD128) : AsconAEAD128 :=
  let s := a.state.xorS8 a.lastBlkSz 1
  let s := s.xorS64 2 (a.keyWord 0)
  let s := s.xorS64 3 (a.keyWord 1)
  let s := B.permutation s ASCON_AEAD128_ROUNDS_PA
  let s := s.xorS64 3 (a.keyWord 0)
  let s := s.xorS64 4 (a.keyWord 1)
  { a with state := s }

/-- The 16 bytes at `&state.s64[3]`. -/
def tag (a : AsconAEAD128) : List Byte := a.state.bytes 24 16

def encryptFinal (B : Build) (a : AsconAEAD128) (tag : Dst) : AsconAEAD128 × Reply :=
  if tag = .null then (a, .fail .badFuncArg)
  else if !a.keySet || !a.nonceSet || !a.adSet then (a, .fail .badStateE)
  else if a.op ≠ .encrypt then (a, .fail .badStateE)
  else
    let a := finalize B a
    (a, .ok a.tag)

def decryptFinal (B : Build) (a : AsconAEAD128) (tag : Option (Vector Byte 16)) :
    AsconAEAD128 × Reply :=
  match tag with
  | none => (a, .fail .badFuncArg)
  | some tag =>
    if !a.keySet || !a.nonceSet || !a.adSet then (a, .fail .badStateE)
    else if a.op ≠ .decrypt then (a, .fail .badStateE)
    else
      let a := finalize B a
      if B.constantCompare tag.toList a.tag ≠ 0 then (a, .fail .asconAuthE) else (a, .ok [])

/-- The 16 key bytes, as `(const uint8_t*)a->key`. -/
def keyBytes (a : AsconAEAD128) : Vector Byte 16 := Vector.ofFn fun i => byteAt a.key i

def mask (a : AsconAEAD128) (ciphertext : Option (Vector Byte 16)) (mask : Dst) :
    AsconAEAD128 × Reply :=
  match ciphertext, mask with
  | some ct, .ptr =>
    if !a.keySet then (a, .fail .badStateE)
    else (a, .ok (MaskPrf.maskPrfDerive a.keyBytes ct (MaskPrf.domsepTable .dtls)))
  | _, _ => (a, .fail .badFuncArg)

end AsconAEAD128

/-- One call with its arguments. -/
inductive Call
  | init
  | setKey (key : Option (Vector Byte 16))
  | setNonce (nonce : Option (Vector Byte 16))
  | setAD (ad : Src)
  | encryptUpdate (inp : Src)
  | encryptFinal (tag : Dst)
  | decryptUpdate (inp : Src)
  | decryptFinal (tag : Option (Vector Byte 16))
  | mask (ciphertext : Option (Vector Byte 16)) (mask : Dst)
deriving DecidableEq

open AsconAEAD128 in
def step (B : Build) (a : AsconAEAD128) : Call → AsconAEAD128 × Reply
  | .init => a.init
  | .setKey key => a.setKey key
  | .setNonce nonce => a.setNonce nonce
  | .setAD ad => setAD B a ad
  | .encryptUpdate inp => encryptUpdate B a inp
  | .encryptFinal tag => encryptFinal B a tag
  | .decryptUpdate inp => decryptUpdate B a inp
  | .decryptFinal tag => decryptFinal B a tag
  | .mask ciphertext mask => a.mask ciphertext mask

end AsconDtls.Wolf
