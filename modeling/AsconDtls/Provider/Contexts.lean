import AsconDtls.Lib.Pool
import AsconDtls.Provider.Guarded

/-!
# Cipher contexts in memory

`ascon128_newctx`, `ascon128_dupctx` and `ascon128_freectx`, with the calls on the contexts that
they hand out and take back.  `ASCON_AEAD128_CTX` is its bytes, and a duplicate is a copy of the bytes.
What `OPENSSL_zalloc` and `OPENSSL_clear_free` make of the bytes of a block is not part of the
repository: both are parameters, of which it is assumed that they leave zeros (`Overwrites`).

`contexts_apart`: any number of contexts share a memory with each other and with the rest of the
program, and every reply is that of a context of its own; of what a context held nothing is in
memory once it is freed.
-/

namespace AsconDtls.Provider

open LittleEndian
open InPlace (Mem)
open Pool (Component Event Lawful Overwrites Respects Spec)
open Run (run)
open AsconAead128Ctx (Below)

/-! ### The bytes of a context -/

/-- `sizeof(ASCON_AEAD128_CTX)`: 109 bytes, and padding to a multiple of 8. -/
def sizeofCtx : Nat := 112

def byteOfBool (b : Bool) : Byte := if b then 1 else 0

/-- The `uint8_t` fields and the padding. -/
def encodeTail (a : Ctx) : List Byte :=
  [BitVec.ofNat 8 a.lastBlkSz, BitVec.ofNat 8 a.adPartSz, byteOfBool a.enc, byteOfBool a.adStarted,
    byteOfBool a.adDone, 0, 0, 0]

def encode (a : Ctx) : List Byte :=
  bytesAt a.s.mem 0 40 ++ (bytesAt a.key 0 16 ++ (bytesAt a.adPart 0 16 ++ (bytesAt a.ct 0 16 ++
    (bytesAt a.tag 0 16 ++ encodeTail a))))

def decode (bs : List Byte) : Ctx where
  s := ⟨loadLE 320 bs⟩
  key := loadLE 128 (bs.drop 40)
  adPart := loadLE 128 (bs.drop 56)
  ct := loadLE 128 (bs.drop 72)
  tag := loadLE 128 (bs.drop 88)
  lastBlkSz := ((bs.drop 104).getD 0 0).toNat
  adPartSz := ((bs.drop 104).getD 1 0).toNat
  enc := decide ((bs.drop 104).getD 2 0 ≠ 0)
  adStarted := decide ((bs.drop 104).getD 3 0 ≠ 0)
  adDone := decide ((bs.drop 104).getD 4 0 ≠ 0)

theorem length_encode (a : Ctx) : (encode a).length = sizeofCtx := by
  simp only [encode, encodeTail, List.length_append, length_bytesAt, List.length_cons,
    List.length_nil]
  rfl

theorem byteOfBool_ne (b : Bool) : decide (byteOfBool b ≠ 0) = b := by
  cases b with
  | false => rfl
  | true => rfl

/-- **The bytes are the context.** -/
theorem decode_encode {a : Ctx} (h : Below a) : decode (encode a) = a := by
  have hrate : ASCON_AEAD128_RATE = 16 := rfl
  have hlast : (BitVec.ofNat 8 a.lastBlkSz).toNat = a.lastBlkSz := by
    rw [BitVec.toNat_ofNat]
    exact Nat.mod_eq_of_lt (by have := h.lastBlkSz; omega)
  have hpart : (BitVec.ofNat 8 a.adPartSz).toNat = a.adPartSz := by
    rw [BitVec.toNat_ofNat]
    exact Nat.mod_eq_of_lt (by have := h.adPartSz; omega)
  have hs : loadLE 320 (encode a) = a.s.mem := loadLE_bytesAt_append a.s.mem (by decide) _
  have hkey : loadLE 128 ((encode a).drop 40) = a.key := by
    rw [encode, drop_bytesAt_append _ 40 0, List.drop_zero]
    exact loadLE_bytesAt_append a.key (by decide) _
  have hadPart : loadLE 128 ((encode a).drop 56) = a.adPart := by
    rw [encode, drop_bytesAt_append _ 40 16, drop_bytesAt_append _ 16 0, List.drop_zero]
    exact loadLE_bytesAt_append a.adPart (by decide) _
  have hct : loadLE 128 ((encode a).drop 72) = a.ct := by
    rw [encode, drop_bytesAt_append _ 40 32, drop_bytesAt_append _ 16 16, drop_bytesAt_append _ 16 0, List.drop_zero]
    exact loadLE_bytesAt_append a.ct (by decide) _
  have htag : loadLE 128 ((encode a).drop 88) = a.tag := by
    rw [encode, drop_bytesAt_append _ 40 48, drop_bytesAt_append _ 16 32, drop_bytesAt_append _ 16 16, drop_bytesAt_append _ 16 0,
      List.drop_zero]
    exact loadLE_bytesAt_append a.tag (by decide) _
  have htail : (encode a).drop 104 = encodeTail a := by
    rw [encode, drop_bytesAt_append _ 40 64, drop_bytesAt_append _ 16 48, drop_bytesAt_append _ 16 32, drop_bytesAt_append _ 16 16,
      drop_bytesAt_append _ 16 0, List.drop_zero]
  rw [decode, hs, hkey, hadPart, hct, htag, htail]
  simp only [encodeTail, List.getD_cons_zero, List.getD_cons_succ, hlast, hpart, byteOfBool_ne]

/-- A context with nothing in it is a block of zeros. -/
theorem encode_newctx : encode newctx = List.replicate sizeofCtx 0 := by
  have hs : newctx.s.mem = 0 := rfl
  have hkey : newctx.key = 0 := rfl
  have hadPart : newctx.adPart = 0 := rfl
  have hct : newctx.ct = 0 := rfl
  have htag : newctx.tag = 0 := rfl
  rw [encode, hs, hkey, hadPart, hct, htag]
  simp only [bytesAt_zero_mem]
  decide

theorem below_newctx : Below newctx := ⟨Nat.zero_lt_succ 15, Nat.zero_lt_succ 15⟩

theorem decode_zeros : decode (List.replicate sizeofCtx 0) = newctx := by
  rw [← encode_newctx, decode_encode below_newctx]

/-! ### The component -/

section

-- `OPENSSL_zalloc` and `OPENSSL_clear_free` on the bytes of a block
variable {zalloc clearFree : List Byte → List Byte}

/-- `ascon128_newctx`, `ascon128_freectx` and the calls on a context. -/
def cipher (zalloc clearFree : List Byte → List Byte) : Component Ctx Byte Call Reply where
  size := sizeofCtx
  encode := encode
  decode := decode
  make block := decode (zalloc block)
  release := clearFree
  blank := List.replicate sizeofCtx 0
  step := step

theorem cipher_lawful (hzalloc : Overwrites 0 zalloc) (hclear : Overwrites 0 clearFree) :
    Lawful (cipher zalloc clearFree) newctx fun s t => s = t ∧ Below s where
  length_encode := length_encode
  length_blank := List.length_replicate ..
  release_eq := by
    intro bs hlen
    have hzeros : clearFree bs = List.replicate bs.length 0 := hclear bs
    rw [hlen] at hzeros
    exact hzeros
  decode_encode := fun _ _ h => decode_encode h.2
  same_make := by
    intro block hlen
    have hzeros : zalloc block = List.replicate block.length 0 := hzalloc block
    rw [hlen] at hzeros
    have hmake : (cipher zalloc clearFree).make block = newctx :=
      (congrArg decode hzeros).trans decode_zeros
    rw [hmake]
    exact ⟨rfl, below_newctx⟩
  same_step := by
    rintro s _ c ⟨rfl, hs⟩
    exact ⟨rfl, rfl, (Guarded.step_ok s c hs).2⟩

/-- **Contexts do not meet.**  However contexts are made, duplicated, used and freed, in whatever
order and wherever they are put, each answers as a context of its own that has seen the calls made
on it, and before that those on the one it is a duplicate of; and the memory outside the contexts in
use is what the rest of the program wrote, and zero where a context has been. -/
theorem contexts_apart (hzalloc : Overwrites 0 zalloc) (hclear : Overwrites 0 clearFree)
    (m : Mem Byte) {es : List (Event Byte Call)}
    (h : Respects (cipher zalloc clearFree) newctx (Spec.start m) es) :
    let spec := run (Spec.step (cipher zalloc clearFree) newctx) (Spec.start m) es
    (run (Pool.exec (cipher zalloc clearFree)) m es).2 = spec.2 ∧
      ∀ a, spec.1.Outside sizeofCtx a →
        (run (Pool.exec (cipher zalloc clearFree)) m es).1 a = spec.1.rest a := by
  obtain ⟨hanswers, hend⟩ := Pool.run_spec (cipher_lawful hzalloc hclear) (Pool.holds_start m) h
  exact ⟨hanswers, hend.rest⟩

end

/-- A context is made where 9s stand, keyed, duplicated and freed, and a byte where it has been is
read. -/
theorem contexts_apart_freed :
    let zero (bs : List Byte) : List Byte := List.replicate bs.length 0
    let es : List (Event Byte Call) := [.create (some 1000),
      .call 1000 (.einit (some (List.replicate 16 7)) none {}), .copy 1000 (some 2000),
      .release 1000, .read 1040]
    Respects (cipher zero zero) newctx (Spec.start fun _ => 9) es ∧
      (run (Pool.exec (cipher zero zero)) (fun _ => 9) es).2 =
        (run (Spec.step (cipher zero zero) newctx) (Spec.start fun _ => 9) es).2 := by
  intro zero es
  have h : Respects (cipher zero zero) newctx (Spec.start fun _ => 9) es := by
    have hsize : (cipher zero zero).size = 112 := rfl
    simp [es, Respects, Spec.Allows, Spec.step, Spec.Free, Spec.Outside, hsize]
  have hzero : Overwrites 0 zero := fun _ => rfl
  exact ⟨h, (contexts_apart hzero hzero (fun _ => 9) h).1⟩

end AsconDtls.Provider
