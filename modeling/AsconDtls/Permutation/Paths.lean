import AsconDtls.Permutation.State

/-!
# The permutation, as each file of the repository computes it

Ascon-p is written five times.  `wolfcrypt/src/ascon.c` has three versions and
compiles one of them (`Path`): ten 32-bit lanes under `WOLFSSL_ASCON_32BIT`
(`Lanes.p32Round`), a loop over 64-bit words by default (`asconRound`), and the
unrolled macros under `WOLFSSL_ASCON_UNROLL` (`p8`, `p12`).  `mask_prf.c` has its
own loop (`sPermutation`), and so has the OpenSSL port (`asconPermute`).
`tools/verify_ascon_32bit.c` copies the looped version and the lanes to compare
them.

The four 64-bit rounds are one text up to the name of the rotation and the
source of the constant; `roundBody` is that text.
-/

namespace AsconDtls

open LittleEndian

/-- `ascon_round_constants`. -/
def asconRoundConstants : List Byte :=
  [0xf0, 0xe1, 0xd2, 0xc3, 0xb4, 0xa5, 0x96, 0x87, 0x78, 0x69, 0x5a, 0x4b]

/-- `ascon_round_constants[i]`. -/
def roundConstant (i : Nat) : Byte := asconRoundConstants.getD i 0

def MAX_ROUNDS : Nat := 12

/-- The two round counts that call sites pass. -/
inductive Rounds
  | r8
  | r12
deriving DecidableEq

def Rounds.toNat : Rounds → Nat
  | .r8 => 8
  | .r12 => 12

/-! ### 64-bit words -/

/-- `#define rotrFixed64(x, y) (((x) >> (y)) | ((x) << (64 - (y))))`. -/
def rotrFixed64 (x : BitVec 64) (y : Nat) : BitVec 64 := (x >>> y) ||| (x <<< (64 - y))

/-- `ascon_rotr64` of the OpenSSL port. -/
def asconRotr64 (x : BitVec 64) (n : Nat) : BitVec 64 := (x >>> n) ||| (x <<< (64 - n))

/-- One round over 64-bit words with rotation `rotr` and constant `c`. -/
def roundBody (rotr : BitVec 64 → Nat → BitVec 64) (a : AsconState) (c : Byte) : AsconState :=
  -- constant addition
  let a := a.xorS64 2 (c.setWidth 64)
  -- substitution
  let a := a.xorS64 0 (a.s64 4)
  let a := a.xorS64 4 (a.s64 3)
  let a := a.xorS64 2 (a.s64 1)
  let tmp0 := a.s64 0 ^^^ (~~~(a.s64 1) &&& a.s64 2)
  let tmp2 := a.s64 2 ^^^ (~~~(a.s64 3) &&& a.s64 4)
  let tmp4 := a.s64 4 ^^^ (~~~(a.s64 0) &&& a.s64 1)
  let tmp1 := a.s64 1 ^^^ (~~~(a.s64 2) &&& a.s64 3)
  let tmp3 := a.s64 3 ^^^ (~~~(a.s64 4) &&& a.s64 0)
  let tmp1 := tmp1 ^^^ tmp0
  let tmp3 := tmp3 ^^^ tmp2
  let tmp0 := tmp0 ^^^ tmp4
  let tmp2 := ~~~tmp2
  -- linear diffusion
  let a := a.setS64 4 (tmp4 ^^^ rotr tmp4 7 ^^^ rotr tmp4 41)
  let a := a.setS64 1 (tmp1 ^^^ rotr tmp1 61 ^^^ rotr tmp1 39)
  let a := a.setS64 3 (tmp3 ^^^ rotr tmp3 10 ^^^ rotr tmp3 17)
  let a := a.setS64 0 (tmp0 ^^^ rotr tmp0 19 ^^^ rotr tmp0 28)
  a.setS64 2 (tmp2 ^^^ rotr tmp2 1 ^^^ rotr tmp2 6)

/-- `for (; i < MAX_ROUNDS; i++) round(a, i)`. -/
def roundsFrom (round : AsconState → Nat → AsconState) (a : AsconState) (i : Nat) : AsconState :=
  if i < MAX_ROUNDS then roundsFrom round (round a i) (i + 1) else a
termination_by MAX_ROUNDS - i

namespace Wolf

/-- `start_index`; a round count that is neither 8 nor 12 starts past the end. -/
def startIndex (rounds : Nat) : Nat :=
  match rounds with
  | 8 => 4
  | 12 => 0
  | _ => MAX_ROUNDS

/-- `ascon_round` of `ascon.c`. -/
def asconRound (a : AsconState) (round : Nat) : AsconState :=
  roundBody rotrFixed64 a (roundConstant round)

/-- `permutation` of the default 64-bit path. -/
def permutation (a : AsconState) (rounds : Nat) : AsconState :=
  roundsFrom asconRound a (startIndex rounds)

/-- The macro `p(a, c)` of the unrolled path. -/
def p (a : AsconState) (c : Byte) : AsconState := roundBody rotrFixed64 a c

/-- The macro `p8(a)`. -/
def p8 (a : AsconState) : AsconState :=
  let a := p a (roundConstant 4)
  let a := p a (roundConstant 5)
  let a := p a (roundConstant 6)
  let a := p a (roundConstant 7)
  let a := p a (roundConstant 8)
  let a := p a (roundConstant 9)
  let a := p a (roundConstant 10)
  p a (roundConstant 11)

/-- The macro `p12(a)`. -/
def p12 (a : AsconState) : AsconState :=
  let a := p a (roundConstant 0)
  let a := p a (roundConstant 1)
  let a := p a (roundConstant 2)
  let a := p a (roundConstant 3)
  p8 a

end Wolf

/-! ### 32-bit lanes -/

/-- The ten `word32` locals: the low and the high half of each word. -/
structure Lanes where
  (x0l x0h x1l x1h x2l x2h x3l x3h x4l x4h : BitVec 32)

namespace Lanes

/-- The macro `P32_ROUND`. -/
def p32Round (x : Lanes) (c : Byte) : Lanes :=
  -- constant addition
  let x2l := x.x2l ^^^ c.setWidth 32
  -- substitution
  let x0l := x.x0l ^^^ x.x4l
  let x0h := x.x0h ^^^ x.x4h
  let x4l := x.x4l ^^^ x.x3l
  let x4h := x.x4h ^^^ x.x3h
  let x2l := x2l ^^^ x.x1l
  let x2h := x.x2h ^^^ x.x1h
  let x1l := x.x1l
  let x1h := x.x1h
  let x3l := x.x3l
  let x3h := x.x3h
  let t0l := x0l ^^^ (~~~x1l &&& x2l)
  let t0h := x0h ^^^ (~~~x1h &&& x2h)
  let t2l := x2l ^^^ (~~~x3l &&& x4l)
  let t2h := x2h ^^^ (~~~x3h &&& x4h)
  let t4l := x4l ^^^ (~~~x0l &&& x1l)
  let t4h := x4h ^^^ (~~~x0h &&& x1h)
  let t1l := x1l ^^^ (~~~x2l &&& x3l)
  let t1h := x1h ^^^ (~~~x2h &&& x3h)
  let t3l := x3l ^^^ (~~~x4l &&& x0l)
  let t3h := x3h ^^^ (~~~x4h &&& x0h)
  let t1l := t1l ^^^ t0l
  let t1h := t1h ^^^ t0h
  let t3l := t3l ^^^ t2l
  let t3h := t3h ^^^ t2h
  let t0l := t0l ^^^ t4l
  let t0h := t0h ^^^ t4h
  let t2l := ~~~t2l
  let t2h := ~~~t2h
  -- linear diffusion
  { x4l := t4l ^^^ (t4l >>> 7) ^^^ (t4h <<< 25) ^^^ (t4h >>> 9) ^^^ (t4l <<< 23)
    x4h := t4h ^^^ (t4h >>> 7) ^^^ (t4l <<< 25) ^^^ (t4l >>> 9) ^^^ (t4h <<< 23)
    x1l := t1l ^^^ (t1h >>> 29) ^^^ (t1l <<< 3) ^^^ (t1h >>> 7) ^^^ (t1l <<< 25)
    x1h := t1h ^^^ (t1l >>> 29) ^^^ (t1h <<< 3) ^^^ (t1l >>> 7) ^^^ (t1h <<< 25)
    x3l := t3l ^^^ (t3l >>> 10) ^^^ (t3l >>> 17) ^^^ (t3h <<< 22) ^^^ (t3h <<< 15)
    x3h := t3h ^^^ (t3h >>> 10) ^^^ (t3h >>> 17) ^^^ (t3l <<< 22) ^^^ (t3l <<< 15)
    x0l := t0l ^^^ (t0l >>> 19) ^^^ (t0l >>> 28) ^^^ (t0h <<< 13) ^^^ (t0h <<< 4)
    x0h := t0h ^^^ (t0h >>> 19) ^^^ (t0h >>> 28) ^^^ (t0l <<< 13) ^^^ (t0l <<< 4)
    x2l := t2l ^^^ (t2l >>> 1) ^^^ (t2l >>> 6) ^^^ (t2h <<< 31) ^^^ (t2h <<< 26)
    x2h := t2h ^^^ (t2h >>> 1) ^^^ (t2h >>> 6) ^^^ (t2l <<< 31) ^^^ (t2l <<< 26) }

/-- The macro `P32_8`, with the constants `c 4` to `c 11`. -/
def p32_8 (c : Nat → Byte) (x : Lanes) : Lanes :=
  let x := x.p32Round (c 4)
  let x := x.p32Round (c 5)
  let x := x.p32Round (c 6)
  let x := x.p32Round (c 7)
  let x := x.p32Round (c 8)
  let x := x.p32Round (c 9)
  let x := x.p32Round (c 10)
  x.p32Round (c 11)

/-- The macro `P32_12`, with the constants `c 0` to `c 11`. -/
def p32_12 (c : Nat → Byte) (x : Lanes) : Lanes :=
  let x := x.p32Round (c 0)
  let x := x.p32Round (c 1)
  let x := x.p32Round (c 2)
  let x := x.p32Round (c 3)
  p32_8 c x

/-- The state loaded into the ten locals. -/
def load (a : AsconState) : Lanes :=
  { x0l := a.s32 0, x0h := a.s32 1, x1l := a.s32 2, x1h := a.s32 3, x2l := a.s32 4,
    x2h := a.s32 5, x3l := a.s32 6, x3h := a.s32 7, x4l := a.s32 8, x4h := a.s32 9 }

/-- The ten locals stored back. -/
def store (x : Lanes) (a : AsconState) : AsconState :=
  let a := (a.setS32 0 x.x0l).setS32 1 x.x0h
  let a := (a.setS32 2 x.x1l).setS32 3 x.x1h
  let a := (a.setS32 4 x.x2l).setS32 5 x.x2h
  let a := (a.setS32 6 x.x3l).setS32 7 x.x3h
  (a.setS32 8 x.x4l).setS32 9 x.x4h

/-- Load, run twelve rounds or else eight, store. -/
def permutation (c : Nat → Byte) (a : AsconState) (rounds : Nat) : AsconState :=
  let x := load a
  if rounds = 12 then (p32_12 c x).store a else (p32_8 c x).store a

end Lanes

/-! ### The builds of `ascon.c` -/

namespace Wolf

/-- `permutation` under `WOLFSSL_ASCON_32BIT`. -/
def permutation32 (a : AsconState) (rounds : Nat) : AsconState :=
  Lanes.permutation roundConstant a rounds

/-- `permutation(a, rounds)` under `WOLFSSL_ASCON_UNROLL`, which pastes the
literal round count to the name `p`. -/
def permutationUnroll (a : AsconState) : Rounds → AsconState
  | .r8 => p8 a
  | .r12 => p12 a

/-- Which `permutation` the build of `ascon.c` has. -/
inductive Path
  | lanes32
  | looped
  | unrolled
deriving DecidableEq

def Path.permutation : Path → AsconState → Rounds → AsconState
  | .lanes32, a, r => permutation32 a r.toNat
  | .looped, a, r => Wolf.permutation a r.toNat
  | .unrolled, a, r => permutationUnroll a r

end Wolf

/-! ### `mask_prf.c`, the OpenSSL port, the verification tool -/

namespace MaskPrf

/-- `s_start_index`. -/
def sStartIndex (rounds : Nat) : Nat := if rounds = 8 then 4 else 0

/-- `s_ascon_round`. -/
def sAsconRound (a : AsconState) (round : Nat) : AsconState :=
  roundBody rotrFixed64 a (roundConstant round)

/-- `s_permutation`. -/
def sPermutation (a : AsconState) (rounds : Nat) : AsconState :=
  roundsFrom sAsconRound a (sStartIndex rounds)

end MaskPrf

namespace Provider

/-- `ascon_round` of `ascon_local.h`. -/
def asconRound (s : AsconState) (round : Nat) : AsconState :=
  roundBody asconRotr64 s (roundConstant round)

/-- `ascon_permute`. -/
def asconPermute (s : AsconState) (rounds : Nat) : AsconState :=
  roundsFrom asconRound s (if rounds = 8 then 4 else 0)

end Provider

namespace Verify

/-- `ascon_round_64`. -/
def asconRound64 (a : AsconState) (round : Nat) : AsconState :=
  roundBody rotrFixed64 a (roundConstant round)

/-- `permutation_64`. -/
def permutation64 (a : AsconState) (rounds : Nat) : AsconState :=
  roundsFrom asconRound64 a (if rounds = 12 then 0 else 4)

/-- `permutation_32`; the tool writes the constants as literals. -/
def permutation32 (a : AsconState) (rounds : Nat) : AsconState :=
  Lanes.permutation
    (fun i => [0xf0, 0xe1, 0xd2, 0xc3, 0xb4, 0xa5, 0x96, 0x87, 0x78, 0x69, 0x5a, 0x4b].getD i 0)
    a rounds

/-- The permutation passed to the drivers. -/
inductive Perm
  | perm64
  | perm32
deriving DecidableEq

def Perm.run : Perm → AsconState → Rounds → AsconState
  | .perm64, a, r => permutation64 a r.toNat
  | .perm32, a, r => permutation32 a r.toNat

end Verify

end AsconDtls
