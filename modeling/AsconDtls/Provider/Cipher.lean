import AsconDtls.Lib.Run
import AsconDtls.Provider.Core

/-!
# The cipher `ascon128` of the default provider

The dispatch functions of `cipher_ascon128.c` that take a context.  Each takes
the context to a new one and a `Reply`; `Call` is one call with its arguments,
`step` performs it, and `newctx` is where runs start.

A parameter array is what `OSSL_PARAM_locate` finds in it under the three names
that are looked up.  A pointer with its length is the list of its bytes.  The
functions that only hand out static tables are left out.
-/

namespace AsconDtls.Provider

open LittleEndian

def ASCON128_KEYLEN : Nat := 16
def ASCON128_IVLEN : Nat := 16
def ASCON128_TAGLEN : Nat := 16

/-- The reasons passed to `ERR_raise(ERR_LIB_PROV, _)`. -/
inductive ProvR
  | failedToSetParameter
  | invalidKeyLength
  | invalidIvLength
  | outputBufferTooSmall
deriving DecidableEq

/-! ### Parameters -/

/-- A located parameter read by `OSSL_PARAM_get_size_t`. -/
inductive SizeParam
  | unreadable
  | value (v : Nat)
deriving DecidableEq

/-- A located `AEAD_TAG`: of another type than octet string, or its bytes. -/
inductive TagParam
  | otherType
  | octets (data : List Byte)
deriving DecidableEq

/-- `const OSSL_PARAM params[]`. -/
structure Params where
  keylen : Option SizeParam := none
  ivlen : Option SizeParam := none
  tag : Option TagParam := none
deriving DecidableEq

/-- A located `AEAD_TAG` to be filled in: of another type than octet string,
without a buffer, or with one of `size` bytes. -/
inductive TagDst
  | otherType
  | null
  | buffer (size : Nat)
deriving DecidableEq

/-- `OSSL_PARAM params[]` of a get call; a length is there with whether
`OSSL_PARAM_set_size_t` can set it. -/
structure GetParams where
  keylen : Option Bool := none
  ivlen : Option Bool := none
  tag : Option TagDst := none
deriving DecidableEq

/-- What a get call writes to the parameters. -/
structure Got where
  keylen : Option Nat := none
  ivlen : Option Nat := none
  /-- `data_size`, or `return_size`, of the tag. -/
  tagSize : Option Nat := none
  tag : Option (List Byte) := none
deriving DecidableEq

/-- What a call returns, writes and raises. -/
structure Reply where
  ret : Nat
  outl : Option Nat := none
  out : List Byte := []
  got : Got := {}
  raised : List ProvR := []
deriving DecidableEq

/-- A return of 0 with an error raised. -/
def Reply.error (r : ProvR) : Reply := { ret := 0, raised := [r] }

/-- `*outl = outl; return 1;`. -/
def Reply.wrote (out : List Byte) (outl : Nat) : Reply := { ret := 1, outl := some outl, out := out }

/-! ### The functions -/

/-- `ascon128_newctx`. -/
def newctx : Ctx := AsconAead128Ctx.zero

/-- The checks on `KEYLEN` and `IVLEN`. -/
def sizeParamOk (p : Option SizeParam) (len : Nat) : Bool :=
  match p with
  | none => true
  | some .unreadable => false
  | some (.value v) => decide (v = len)

/-- `ascon128_set_ctx_params`. -/
def setCtxParams (ctx : Ctx) (params : Params) : Ctx × Reply :=
  if !sizeParamOk params.keylen ASCON128_KEYLEN then (ctx, .error .failedToSetParameter)
  else if !sizeParamOk params.ivlen ASCON128_IVLEN then (ctx, .error .failedToSetParameter)
  else
    match params.tag with
    | none => (ctx, { ret := 1 })
    | some .otherType => (ctx, .error .failedToSetParameter)
    | some (.octets data) =>
      if data.length ≠ ASCON128_TAGLEN then (ctx, .error .failedToSetParameter)
      else ({ ctx with tag := memcpy ctx.tag 0 data }, { ret := 1 })

/-- `ascon128_get_ctx_params`. -/
def getCtxParams (ctx : Ctx) (params : GetParams) : Reply :=
  if params.keylen = some false then { ret := 0 }
  else
    let got : Got := { keylen := params.keylen.map fun _ => ASCON128_KEYLEN }
    if params.ivlen = some false then { ret := 0, got := got }
    else
      let got := { got with ivlen := params.ivlen.map fun _ => ASCON128_IVLEN }
      match params.tag with
      | none => { ret := 1, got := got }
      | some .otherType => { ret := 0, got := got }
      | some .null => { ret := 1, got := { got with tagSize := some ASCON128_TAGLEN } }
      | some (.buffer size) =>
        if size < ASCON128_TAGLEN then { ret := 0, got := got }
        else
          { ret := 1
            got := { got with
              tag := some (bytesAt ctx.tag 0 ASCON128_TAGLEN)
              tagSize := some ASCON128_TAGLEN } }

/-- `if (iv != NULL)` of `ascon128_init`. -/
def initIv (ctx : Ctx) (iv : Option (List Byte)) : Ctx × Reply :=
  match iv with
  | none => (ctx, { ret := 1 })
  | some iv =>
    if iv.length ≠ ASCON128_IVLEN then (ctx, .error .invalidIvLength)
    else (reset ctx (bytesAt ctx.key 0 ASCON128_KEYLEN) iv, { ret := 1 })

/-- `if (key != NULL)` of `ascon128_init` and what follows. -/
def initKey (ctx : Ctx) (key iv : Option (List Byte)) : Ctx × Reply :=
  match key with
  | none => initIv ctx iv
  | some key =>
    if key.length ≠ ASCON128_KEYLEN then (ctx, .error .invalidKeyLength)
    else initIv { ctx with key := memcpy ctx.key 0 key } iv

/-- `ascon128_init`. -/
def init (ctx : Ctx) (key iv : Option (List Byte)) (params : Params) (enc : Bool) : Ctx × Reply :=
  let r := setCtxParams ctx params
  if r.2.ret = 0 then r else initKey { r.1 with enc := enc } key iv

/-- `ascon128_einit`. -/
def einit (ctx : Ctx) (key iv : Option (List Byte)) (params : Params) : Ctx × Reply :=
  init ctx key iv params true

/-- `ascon128_dinit`. -/
def dinit (ctx : Ctx) (key iv : Option (List Byte)) (params : Params) : Ctx × Reply :=
  init ctx key iv params false

/-- `ascon128_update`; the output buffer is there as its size, or null. -/
def update (ctx : Ctx) (out : Option Nat) (inp : List Byte) : Ctx × Reply :=
  if inp.length = 0 then (ctx, .wrote [] 0)
  else
    match out with
    | none => (absorbAad .ascon ctx inp, .wrote [] 0)
    | some outsize =>
      if outsize < inp.length then (ctx, .error .outputBufferTooSmall)
      else
        let r := if ctx.enc then encryptUpdate ctx inp else decryptUpdate ctx inp
        (r.1, .wrote r.2.1 r.2.2)

/-- `ascon128_final_fn`. -/
def finalFn (ctx : Ctx) : Ctx × Reply :=
  let r := final ctx
  if !r.2 then (r.1, { ret := 0 }) else (r.1, .wrote [] 0)

/-! ### Calls -/

inductive Call
  | einit (key iv : Option (List Byte)) (params : Params)
  | dinit (key iv : Option (List Byte)) (params : Params)
  | update (out : Option Nat) (inp : List Byte)
  | final
  | setCtxParams (params : Params)
  | getCtxParams (params : GetParams)
deriving DecidableEq

def step (ctx : Ctx) : Call → Ctx × Reply
  | .einit key iv params => einit ctx key iv params
  | .dinit key iv params => dinit ctx key iv params
  | .update out inp => update ctx out inp
  | .final => finalFn ctx
  | .setCtxParams params => setCtxParams ctx params
  | .getCtxParams params => (ctx, getCtxParams ctx params)

end AsconDtls.Provider
