import AsconDtls.Lib.LittleEndian

/-!
# The Ascon state

`AsconState` is the 40-byte little-endian union of `verify_ascon_32bit.c`: five
words `s64`, ten half words `s32`, forty bytes `s8`, all views of one block of
memory.  The OpenSSL port keeps `uint64_t s[5]` and casts it to bytes, which is
the same object.

`ext_s8` and `ext_s64` say that a state is its bytes and is its words, and the
`s8_…` lemmas say what each operation does to the bytes.
-/

namespace AsconDtls

open LittleEndian

structure AsconState where
  mem : BitVec 320
deriving DecidableEq

namespace AsconState

/-- `memset(&s, 0, sizeof(s))`. -/
def zero : AsconState := ⟨0⟩

def s8 (a : AsconState) (i : Nat) : Byte := byteAt a.mem i
def s32 (a : AsconState) (i : Nat) : BitVec 32 := readAt a.mem (4 * i) 32
def s64 (a : AsconState) (i : Nat) : BitVec 64 := readAt a.mem (8 * i) 64

/-- `s8[i] ^= b`. -/
def xorS8 (a : AsconState) (i : Nat) (b : Byte) : AsconState := ⟨xorAt a.mem i b⟩
/-- `s8[i] = b`. -/
def setS8 (a : AsconState) (i : Nat) (b : Byte) : AsconState := ⟨putAt a.mem i b⟩
/-- `s32[i] = v`. -/
def setS32 (a : AsconState) (i : Nat) (v : BitVec 32) : AsconState := ⟨putAt a.mem (4 * i) v⟩
/-- `s64[i] ^= v`. -/
def xorS64 (a : AsconState) (i : Nat) (v : BitVec 64) : AsconState := ⟨xorAt a.mem (8 * i) v⟩
/-- `s64[i] = v`. -/
def setS64 (a : AsconState) (i : Nat) (v : BitVec 64) : AsconState := ⟨putAt a.mem (8 * i) v⟩

/-- A 16-byte value XORed in at `s8 + p`. -/
def xorBlock (a : AsconState) (p : Nat) (v : BitVec 128) : AsconState := ⟨xorAt a.mem p v⟩
/-- A 16-byte value stored at `s8 + p`. -/
def setBlock (a : AsconState) (p : Nat) (v : BitVec 128) : AsconState := ⟨putAt a.mem p v⟩

/-- `xorbuf(s8 + p, bs, len)`: byte by byte. -/
def xorbuf (a : AsconState) (p : Nat) (bs : List Byte) : AsconState :=
  ⟨LittleEndian.xorbuf a.mem p bs⟩
/-- `memcpy(s8 + p, bs, len)`. -/
def memcpy (a : AsconState) (p : Nat) (bs : List Byte) : AsconState :=
  ⟨LittleEndian.memcpy a.mem p bs⟩
/-- The `len` bytes at `s8 + p`. -/
def bytes (a : AsconState) (p len : Nat) : List Byte := bytesAt a.mem p len

theorem ext_mem {a b : AsconState} (h : a.mem = b.mem) : a = b := by
  cases a
  cases b
  exact congrArg AsconState.mk h

theorem ext_s8 {a b : AsconState} (h : ∀ i, i < 40 → a.s8 i = b.s8 i) : a = b :=
  ext_mem (ext_byteAt fun i hi => h i (by omega))

theorem ext_s64 {a b : AsconState} (h : ∀ i, i < 5 → a.s64 i = b.s64 i) : a = b :=
  ext_mem (ext_readAt (w := 64) (by decide) 8 rfl fun i hi => h i (by omega))

/-! ### Bytes -/

@[simp] theorem length_bytes (a : AsconState) (p len : Nat) : (a.bytes p len).length = len :=
  length_bytesAt ..

@[simp] theorem bytes_zero_len (a : AsconState) (p : Nat) : a.bytes p 0 = [] := rfl

theorem bytes_succ (a : AsconState) (p len : Nat) :
    a.bytes p (len + 1) = a.s8 p :: a.bytes (p + 1) len := bytesAt_succ ..

theorem bytes_congr {a b : AsconState} {p len : Nat}
    (h : ∀ i, p ≤ i → i < p + len → a.s8 i = b.s8 i) : a.bytes p len = b.bytes p len :=
  bytesAt_congr fun i hi => h (p + i) (by omega) (by omega)

theorem s8_xorS8 (a : AsconState) (j : Nat) (b : Byte) {i : Nat} (hi : i < 40) :
    (a.xorS8 j b).s8 i = a.s8 i ^^^ (if i = j then b else 0#8) := by
  rw [s8, xorS8, byteAt_xorAt _ _ _ (by omega), byteAt_byte]
  congr 1
  by_cases h : i = j
  · rw [if_pos (by omega), if_pos (by omega), if_pos h]
  · by_cases hj : j ≤ i
    · rw [if_pos hj, if_neg (by omega), if_neg h]
    · rw [if_neg hj, if_neg h]

theorem s8_setS8 (a : AsconState) (j : Nat) (b : Byte) {i : Nat} (hi : i < 40) :
    (a.setS8 j b).s8 i = if i = j then b else a.s8 i := by
  rw [s8, setS8, byteAt_putAt _ _ _ (by decide) (by omega), byteAt_byte]
  by_cases h : i = j
  · rw [if_pos (by omega), if_pos (by omega), if_pos h]
  · rw [if_neg (by omega), if_neg h]
    rfl

theorem s8_xorbuf (a : AsconState) (p : Nat) (bs : List Byte) {i : Nat} (hi : i < 40) :
    (a.xorbuf p bs).s8 i = a.s8 i ^^^ (if p ≤ i then bs[i - p]?.getD 0#8 else 0#8) :=
  byteAt_xorbuf _ _ _ (by omega)

/-! ### Words -/

theorem s64_setS64 (a : AsconState) {i j : Nat} (v : BitVec 64) (hi : i < 5) (hj : j < 5) :
    (a.setS64 j v).s64 i = if i = j then v else a.s64 i := by
  by_cases h : i = j
  · subst h
    rw [if_pos rfl]
    exact readAt_putAt_same _ _ _ (by omega)
  · rw [if_neg h]
    exact readAt_putAt_of_disjoint _ _ _ _ _ (by omega) (by omega)

theorem s64_xorS64 (a : AsconState) {i j : Nat} (v : BitVec 64) (hi : i < 5) (hj : j < 5) :
    (a.xorS64 j v).s64 i = if i = j then a.s64 i ^^^ v else a.s64 i := by
  by_cases h : i = j
  · subst h
    rw [if_pos rfl]
    exact readAt_xorAt_same _ _ _ (by omega)
  · rw [if_neg h]
    exact readAt_xorAt_of_disjoint _ _ _ _ _ (by omega) (by omega)

theorem s32_setS32 (a : AsconState) {i j : Nat} (v : BitVec 32) (hi : i < 10) (hj : j < 10) :
    (a.setS32 j v).s32 i = if i = j then v else a.s32 i := by
  by_cases h : i = j
  · subst h
    rw [if_pos rfl]
    exact readAt_putAt_same _ _ _ (by omega)
  · rw [if_neg h]
    exact readAt_putAt_of_disjoint _ _ _ _ _ (by omega) (by omega)

/-- `s64[i] ^= w[0]; s64[i + 1] ^= w[1];`. -/
theorem xorS64_xorS64 (a : AsconState) (i : Nat) (v : BitVec 128) :
    (a.xorS64 i (readAt v 0 64)).xorS64 (i + 1) (readAt v 8 64) = a.xorBlock (8 * i) v :=
  congrArg AsconState.mk (xorAt_readAt_readAt a.mem (by decide) (8 * i) v)

/-- `s64[i] = w[0]; s64[i + 1] = w[1];`. -/
theorem setS64_setS64 (a : AsconState) (i : Nat) (v : BitVec 128) :
    (a.setS64 i (readAt v 0 64)).setS64 (i + 1) (readAt v 8 64) = a.setBlock (8 * i) v :=
  congrArg AsconState.mk (putAt_readAt_readAt a.mem (by decide) (8 * i) v)

theorem memcpy_eq_setBlock (a : AsconState) (p : Nat) {bs : List Byte} (h : bs.length = 16) :
    a.memcpy p bs = a.setBlock p (loadLE 128 bs) :=
  congrArg AsconState.mk (memcpy_eq_putAt a.mem (by decide) p bs (by omega))

theorem xorbuf_eq_xorBlock (a : AsconState) (p : Nat) {bs : List Byte} (h : bs.length = 16) :
    a.xorbuf p bs = a.xorBlock p (loadLE 128 bs) :=
  congrArg AsconState.mk (xorbuf_eq_xorAt a.mem (by decide) p bs (by omega))

/-- A word is its high half before its low half. -/
theorem s64_eq_append (a : AsconState) (i : Nat) : a.s64 i = a.s32 (2 * i + 1) ++ a.s32 (2 * i) := by
  apply BitVec.eq_of_getLsbD_eq
  intro j hj
  rw [s64, getLsbD_readAt _ _ hj, BitVec.getLsbD_append]
  by_cases h : j < 32
  · rw [if_pos h, s32, getLsbD_readAt _ _ h]
    congr 1
    omega
  · rw [if_neg h, s32, getLsbD_readAt _ _ (by omega)]
    congr 1
    omega

end AsconState

end AsconDtls
