import AsconDtls.Lib.Pool
import AsconDtls.Wolf.History
import AsconDtls.Wolf.Invariant

/-!
# Contexts from `New` to `Free`

`wc_AsconAEAD128_New`, `_Free` and `_Clear`, and those of the hash, with the calls on the contexts.
`New` runs `Init` on what `XMALLOC` hands out.  `Init` of the AEAD keeps the IV words, so a new
context has in them what its block held; `Free` runs `Clear` first.

`ascon.h` and `ForceZero` are not part of the repository.  Where the fields lie is a parameter, a
`Layout`, and so is what `ForceZero` makes of the bytes that it is given, of which it is assumed
that it leaves zeros (`Overwrites`).

* `aead_contexts_apart`: contexts share a memory with each other and with the rest of the program,
  and each answers as one of its own; what stood in its block before it makes no difference.
* `hash_contexts_apart`: so it is with the hash.
-/

namespace AsconDtls.Wolf

open LittleEndian
open InPlace (Mem)
open Pool (Component Event Lawful Overwrites Respects Spec)
open Run (run)

/-- How the contexts with `Inv` lie in memory; `zero` is the context of zero bytes. -/
structure Layout (σ : Type) (Inv : σ → Prop) (zero : σ) where
  size : Nat
  encode : σ → List Byte
  decode : List Byte → σ
  length_encode : ∀ a, (encode a).length = size
  decode_encode : ∀ a, Inv a → decode (encode a) = a
  encode_zero : encode zero = List.replicate size 0

namespace Layout

variable {σ : Type} {Inv : σ → Prop} {zero : σ} (L : Layout σ Inv zero)

/-- `ForceZero(a, sizeof(*a))`. -/
def clear (forceZero : List Byte → List Byte) (a : σ) : σ := L.decode (forceZero (L.encode a))

variable {forceZero : List Byte → List Byte}

theorem forceZero_eq (hzero : Overwrites 0 forceZero) {bs : List Byte} (h : bs.length = L.size) :
    forceZero bs = L.encode zero := by
  rw [hzero, h, L.encode_zero]

theorem clear_eq (hzero : Overwrites 0 forceZero) (hinv : Inv zero) (a : σ) :
    L.clear forceZero a = zero := by
  rw [clear, L.forceZero_eq hzero (L.length_encode a), L.decode_encode zero hinv]

end Layout

/-! ### The AEAD -/

/-- A call on a context that is in use. -/
inductive Use
  | call (c : Call)
  /-- `wc_AsconAEAD128_Clear`. -/
  | clear

open AsconAEAD128 (Inv zero)

section

variable (B : Build) (L : Layout AsconAEAD128 Inv zero)

def useStep (forceZero : List Byte → List Byte) (a : AsconAEAD128) : Use → AsconAEAD128 × Reply
  | .call c => step B a c
  | .clear => (L.clear forceZero a, .ok [])

/-- `wc_AsconAEAD128_New`, `wc_AsconAEAD128_Free` and the calls on a context. -/
def aead (forceZero : List Byte → List Byte) : Component AsconAEAD128 Byte Use Reply where
  size := L.size
  encode := L.encode
  decode := L.decode
  make junk := (L.decode junk).init.1
  release := forceZero
  blank := List.replicate L.size 0
  step := useStep B L forceZero

theorem inv_zero : Inv zero :=
  ⟨Nat.zero_lt_succ 15, fun h => absurd rfl h, fun h => absurd h Bool.false_ne_true⟩

variable {forceZero : List Byte → List Byte} (hzero : Overwrites 0 forceZero)
include hzero

theorem aead_lawful :
    Lawful (aead B L forceZero) zero.init.1 fun s t => Inv s ∧ ∃ iv, s = t.setIv iv where
  length_encode := L.length_encode
  length_blank := List.length_replicate ..
  release_eq := fun bs hlen => (L.forceZero_eq hzero hlen).trans L.encode_zero
  decode_encode := fun s _ h => L.decode_encode s h.1
  same_make := by
    intro junk _
    refine ⟨AsconAEAD128.inv_init _, (L.decode junk).iv, ?_⟩
    exact congrArg Prod.fst (AsconAEAD128.init_setIv (L.decode junk) zero)
  same_step := by
    rintro _ t c ⟨hs, iv, rfl⟩
    cases c with
    | call c =>
      have hstep := step_setIv B t iv c
      have hreply : (step B (t.setIv iv) c).2 = (step B t c).2 := by
        rw [hstep]
        rfl
      have hnext : (step B (t.setIv iv) c).1 = (step B t c).1.setIv iv := by
        rw [hstep]
        rfl
      exact ⟨hreply, AsconAEAD128.inv_step B hs c, iv, hnext⟩
    | clear =>
      have hclear : ∀ a, ((aead B L forceZero).step a .clear).1 = zero := L.clear_eq hzero inv_zero
      rw [hclear, hclear]
      exact ⟨rfl, inv_zero, zero.iv, (AsconAEAD128.setIv_self zero).symm⟩

/-- **AEAD contexts do not meet.**  However contexts are made, copied, used, cleared and freed, in
whatever order and wherever they are put, each answers as a context fresh from `Init` that has seen
the calls made on it alone; and the memory outside the contexts in use is what the rest of the
program wrote, and zero where a context has been. -/
theorem aead_contexts_apart (m : Mem Byte) {es : List (Event Byte Use)}
    (h : Respects (aead B L forceZero) zero.init.1 (Spec.start m) es) :
    let spec := run (Spec.step (aead B L forceZero) zero.init.1) (Spec.start m) es
    (run (Pool.exec (aead B L forceZero)) m es).2 = spec.2 ∧
      ∀ a, spec.1.Outside L.size a →
        (run (Pool.exec (aead B L forceZero)) m es).1 a = spec.1.rest a := by
  obtain ⟨hanswers, hend⟩ := Pool.run_spec (aead_lawful B L hzero) (Pool.holds_start m) h
  exact ⟨hanswers, hend.rest⟩

end

/-! ### A layout -/

def byteOfOp : Op → Byte
  | .notSet => 0
  | .encrypt => 1
  | .decrypt => 2

def opOfByte (b : Byte) : Op := if b = 1 then .encrypt else if b = 2 then .decrypt else .notSet

def packedTail (a : AsconAEAD128) : List Byte :=
  [BitVec.ofNat 8 a.lastBlkSz, byteOfOp a.op, if a.keySet then 1 else 0,
    if a.nonceSet then 1 else 0, if a.adSet then 1 else 0]

def packedEncode (a : AsconAEAD128) : List Byte :=
  bytesAt a.state.mem 0 40 ++ (bytesAt a.key 0 16 ++ (bytesAt (a.iv.get 0) 0 8 ++
    (bytesAt (a.iv.get 1) 0 8 ++ packedTail a)))

def packedDecode (bs : List Byte) : AsconAEAD128 where
  state := ⟨loadLE 320 bs⟩
  key := loadLE 128 (bs.drop 40)
  iv := #v[loadLE 64 (bs.drop 56), loadLE 64 (bs.drop 64)]
  lastBlkSz := ((bs.drop 72).getD 0 0).toNat
  op := opOfByte ((bs.drop 72).getD 1 0)
  keySet := decide ((bs.drop 72).getD 2 0 ≠ 0)
  nonceSet := decide ((bs.drop 72).getD 3 0 ≠ 0)
  adSet := decide ((bs.drop 72).getD 4 0 ≠ 0)

theorem packedDecode_encode (a : AsconAEAD128) (h : Inv a) : packedDecode (packedEncode a) = a := by
  have hrate : ASCON_AEAD128_RATE = 16 := rfl
  have hlast : (BitVec.ofNat 8 a.lastBlkSz).toNat = a.lastBlkSz := by
    rw [BitVec.toNat_ofNat]
    exact Nat.mod_eq_of_lt (by have := h.lastBlkSz; omega)
  have hop : opOfByte (byteOfOp a.op) = a.op := by
    cases a.op <;> rfl
  have hflag : ∀ b : Bool, decide ((if b then 1 else 0 : Byte) ≠ 0) = b := by decide
  have hstate : loadLE 320 (packedEncode a) = a.state.mem :=
    loadLE_bytesAt_append a.state.mem (by decide) _
  have hkey : loadLE 128 ((packedEncode a).drop 40) = a.key := by
    rw [packedEncode, drop_bytesAt_append _ 40 0, List.drop_zero]
    exact loadLE_bytesAt_append a.key (by decide) _
  have hiv0 : loadLE 64 ((packedEncode a).drop 56) = a.iv.get 0 := by
    rw [packedEncode, drop_bytesAt_append _ 40 16, drop_bytesAt_append _ 16 0, List.drop_zero]
    exact loadLE_bytesAt_append _ ⟨8, rfl⟩ _
  have hiv1 : loadLE 64 ((packedEncode a).drop 64) = a.iv.get 1 := by
    rw [packedEncode, drop_bytesAt_append _ 40 24, drop_bytesAt_append _ 16 8,
      drop_bytesAt_append _ 8 0, List.drop_zero]
    exact loadLE_bytesAt_append _ ⟨8, rfl⟩ _
  have htail : (packedEncode a).drop 72 = packedTail a := by
    rw [packedEncode, drop_bytesAt_append _ 40 32, drop_bytesAt_append _ 16 16,
      drop_bytesAt_append _ 8 8, drop_bytesAt_append _ 8 0, List.drop_zero]
  simp only [packedDecode, hstate, hkey, hiv0, hiv1, htail, packedTail, List.getD_cons_zero,
    List.getD_cons_succ, hlast, hop, hflag]
  have hiv : #v[a.iv.get 0, a.iv.get 1] = a.iv := init_iv a.iv (by decide) (by decide)
  rw [hiv]

/-- The fields one after another. -/
def packed : Layout AsconAEAD128 Inv zero where
  size := 77
  encode := packedEncode
  decode := packedDecode
  length_encode := by
    intro a
    simp [packedEncode, packedTail]
  decode_encode := packedDecode_encode
  encode_zero := by
    have hstate : zero.state.mem = 0 := rfl
    have hkey : zero.key = 0 := rfl
    have hiv0 : zero.iv.get 0 = 0 := rfl
    have hiv1 : zero.iv.get 1 = 0 := rfl
    rw [packedEncode, hstate, hkey, hiv0, hiv1]
    simp only [bytesAt_zero_mem]
    decide

/-- A context is made where 9s stand, keyed and freed, and a byte where it has been is read. -/
theorem aead_contexts_apart_freed :
    let B : Build := ⟨.looped, fun x y => if x = y then 0 else 1⟩
    let forceZero (bs : List Byte) : List Byte := List.replicate bs.length 0
    let es : List (Event Byte Use) := [.create (some 1000),
      .call 1000 (.call (.setKey (some (Vector.replicate 16 7)))), .release 1000, .read 1040]
    Respects (aead B packed forceZero) zero.init.1 (Spec.start fun _ => 9) es ∧
      (run (Pool.exec (aead B packed forceZero)) (fun _ => 9) es).2 =
        (run (Spec.step (aead B packed forceZero) zero.init.1) (Spec.start fun _ => 9) es).2 := by
  intro B forceZero es
  have h : Respects (aead B packed forceZero) zero.init.1 (Spec.start fun _ => 9) es := by
    simp [es, Respects, Spec.Allows, Spec.step, Spec.Free, Spec.Outside]
  have hzero : Overwrites 0 forceZero := fun _ => rfl
  exact ⟨h, (aead_contexts_apart B packed hzero (fun _ => 9) h).1⟩

/-! ### The hash -/

inductive HashUse
  | call (c : HashCall)
  /-- `wc_AsconHash256_Clear`. -/
  | clear

/-- `XMEMSET(a, 0, sizeof(*a))`. -/
def AsconHash256.zero : AsconHash256 := { state := .zero, lastBlkSz := 0 }

section

variable (B : Build) (L : Layout AsconHash256 AsconHash256.Inv AsconHash256.zero)

def hashUseStep (forceZero : List Byte → List Byte) (a : AsconHash256) :
    HashUse → AsconHash256 × Reply
  | .call c => hashStep B a c
  | .clear => (L.clear forceZero a, .ok [])

/-- `wc_AsconHash256_New`, `wc_AsconHash256_Free` and the calls on a context. -/
def hash (forceZero : List Byte → List Byte) : Component AsconHash256 Byte HashUse Reply where
  size := L.size
  encode := L.encode
  decode := L.decode
  make junk := ((L.decode junk).init B).1
  release := forceZero
  blank := List.replicate L.size 0
  step := hashUseStep B L forceZero

theorem AsconHash256.inv_zero : AsconHash256.zero.Inv := ⟨Nat.zero_lt_succ 7⟩

variable {forceZero : List Byte → List Byte} (hzero : Overwrites 0 forceZero)
include hzero

theorem hash_lawful :
    Lawful (hash B L forceZero) (AsconHash256.zero.init B).1 fun s t => s = t ∧ s.Inv where
  length_encode := L.length_encode
  length_blank := List.length_replicate ..
  release_eq := fun bs hlen => (L.forceZero_eq hzero hlen).trans L.encode_zero
  decode_encode := fun s _ h => L.decode_encode s h.2
  same_make := fun junk _ => ⟨rfl, AsconHash256.inv_init B (L.decode junk)⟩
  same_step := by
    rintro s _ c ⟨rfl, hs⟩
    refine ⟨rfl, rfl, ?_⟩
    cases c with
    | call c => exact AsconHash256.inv_step B hs c
    | clear =>
      have hclear : ((hash B L forceZero).step s .clear).1 = AsconHash256.zero :=
        L.clear_eq hzero AsconHash256.inv_zero s
      rw [hclear]
      exact AsconHash256.inv_zero

/-- **Hash contexts do not meet.** -/
theorem hash_contexts_apart (m : Mem Byte) {es : List (Event Byte HashUse)}
    (h : Respects (hash B L forceZero) (AsconHash256.zero.init B).1 (Spec.start m) es) :
    let spec := run (Spec.step (hash B L forceZero) (AsconHash256.zero.init B).1) (Spec.start m) es
    (run (Pool.exec (hash B L forceZero)) m es).2 = spec.2 ∧
      ∀ a, spec.1.Outside L.size a →
        (run (Pool.exec (hash B L forceZero)) m es).1 a = spec.1.rest a := by
  obtain ⟨hanswers, hend⟩ := Pool.run_spec (hash_lawful B L hzero) (Pool.holds_start m) h
  exact ⟨hanswers, hend.rest⟩

end

def packedHashEncode (a : AsconHash256) : List Byte :=
  bytesAt a.state.mem 0 40 ++ [BitVec.ofNat 8 a.lastBlkSz]

def packedHashDecode (bs : List Byte) : AsconHash256 where
  state := ⟨loadLE 320 bs⟩
  lastBlkSz := ((bs.drop 40).getD 0 0).toNat

theorem packedHashDecode_encode (a : AsconHash256) (h : a.Inv) :
    packedHashDecode (packedHashEncode a) = a := by
  have hrate : ASCON_HASH256_RATE = 8 := rfl
  have hlast : (BitVec.ofNat 8 a.lastBlkSz).toNat = a.lastBlkSz := by
    rw [BitVec.toNat_ofNat]
    exact Nat.mod_eq_of_lt (by have := h.lastBlkSz; omega)
  have hstate : loadLE 320 (packedHashEncode a) = a.state.mem :=
    loadLE_bytesAt_append a.state.mem (by decide) _
  have htail : (packedHashEncode a).drop 40 = [BitVec.ofNat 8 a.lastBlkSz] := by
    rw [packedHashEncode, drop_bytesAt_append _ 40 0, List.drop_zero]
  simp only [packedHashDecode, hstate, htail, List.getD_cons_zero, hlast]

/-- The fields of the hash context one after another. -/
def packedHash : Layout AsconHash256 AsconHash256.Inv AsconHash256.zero where
  size := 41
  encode := packedHashEncode
  decode := packedHashDecode
  length_encode := by
    intro a
    simp [packedHashEncode]
  decode_encode := packedHashDecode_encode
  encode_zero := by
    have hstate : AsconHash256.zero.state.mem = 0 := rfl
    rw [packedHashEncode, hstate]
    simp only [bytesAt_zero_mem]
    decide

/-- Two hash contexts, one of them cleared and freed while the other takes data. -/
theorem hash_contexts_apart_freed :
    let B : Build := ⟨.looped, fun x y => if x = y then 0 else 1⟩
    let forceZero (bs : List Byte) : List Byte := List.replicate bs.length 0
    let es : List (Event Byte HashUse) := [.create (some 1000), .create (some 1041),
      .call 1000 (.call (.update (.ptr [7, 8]))), .call 1041 .clear, .release 1041, .read 1050]
    Respects (hash B packedHash forceZero) (AsconHash256.zero.init B).1 (Spec.start fun _ => 9) es ∧
      (run (Pool.exec (hash B packedHash forceZero)) (fun _ => 9) es).2 =
        (run (Spec.step (hash B packedHash forceZero) (AsconHash256.zero.init B).1)
          (Spec.start fun _ => 9) es).2 := by
  intro B forceZero es
  have hsize : (hash B packedHash forceZero).size = 41 := rfl
  have h : Respects (hash B packedHash forceZero) (AsconHash256.zero.init B).1
      (Spec.start fun _ => 9) es := by
    simp [es, Respects, Spec.Allows, Spec.step, Spec.Free, Spec.Outside, hsize]
  have hzero : Overwrites 0 forceZero := fun _ => rfl
  exact ⟨h, (hash_contexts_apart B packedHash hzero (fun _ => 9) h).1⟩

end AsconDtls.Wolf
