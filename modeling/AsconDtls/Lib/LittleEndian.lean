import Mathlib.Data.List.Basic
import Mathlib.Tactic.Common

/-!
# Little-endian memory

A block of memory of `n` bits is one `BitVec n`.  Byte `i` is bits `8 i` to
`8 i + 7`, so a word read at byte `p` has the byte at `p` as its low byte: the
views of a C union on a little-endian machine are the reads of one bit vector.

* `readAt`, `xorAt`, `putAt`: a `w`-bit value at a byte offset is read, XORed
  in, or written.
* `byteAt`: the byte view.  `ext_byteAt` says that memory is its bytes, and
  `byteAt_xorAt`, `byteAt_putAt` say what the other views do to them.
* `xorbuf`, `memcpy`, `bytesAt`, `loadLE`: the same for a list of bytes.
-/

namespace LittleEndian

abbrev Byte := BitVec 8

variable {n w : Nat}

/-- The `w`-bit value at byte offset `p`. -/
def readAt (m : BitVec n) (p w : Nat) : BitVec w := m.extractLsb' (8 * p) w

/-- `m` with `v` XORed in at byte offset `p`. -/
def xorAt (m : BitVec n) (p : Nat) (v : BitVec w) : BitVec n := m ^^^ (v.setWidth n <<< (8 * p))

/-- `m` with `v` stored at byte offset `p`. -/
def putAt (m : BitVec n) (p : Nat) (v : BitVec w) : BitVec n :=
  (m &&& ~~~((BitVec.allOnes w).setWidth n <<< (8 * p))) ||| (v.setWidth n <<< (8 * p))

def byteAt (m : BitVec n) (i : Nat) : Byte := readAt m i 8

theorem getLsbD_readAt (m : BitVec n) (p : Nat) {j : Nat} (hj : j < w) :
    (readAt m p w).getLsbD j = m.getLsbD (8 * p + j) := by
  simp [readAt, hj]

theorem getLsbD_xorAt (m : BitVec n) (p : Nat) (v : BitVec w) {j : Nat} (hj : j < n) :
    (xorAt m p v).getLsbD j = (m.getLsbD j ^^ (decide (8 * p ≤ j) && v.getLsbD (j - 8 * p))) := by
  by_cases hp : 8 * p ≤ j
  · simp [xorAt, hj, hp, Nat.not_lt.mpr hp]
  · simp [xorAt, hj, hp, Nat.not_le.mp hp]

theorem getLsbD_putAt (m : BitVec n) (p : Nat) (v : BitVec w) {j : Nat} (hj : j < n) :
    (putAt m p v).getLsbD j =
      if 8 * p ≤ j ∧ j - 8 * p < w then v.getLsbD (j - 8 * p) else m.getLsbD j := by
  by_cases hp : 8 * p ≤ j
  · by_cases hw : j - 8 * p < w
    · simp [putAt, hj, hp, hw, Nat.not_lt.mpr hp]
    · have hv : v.getLsbD (j - 8 * p) = false := BitVec.getLsbD_of_ge _ _ (by omega)
      simp [putAt, hj, hp, hw, hv]
  · simp [putAt, hj, hp, Nat.not_le.mp hp]

/-! ### The byte view -/

theorem getLsbD_byteAt (m : BitVec n) (i : Nat) {j : Nat} (hj : j < 8) :
    (byteAt m i).getLsbD j = m.getLsbD (8 * i + j) := getLsbD_readAt m i hj

/-- **Memory is its bytes.** -/
theorem ext_byteAt {m m' : BitVec n} (h : ∀ i, 8 * i < n → byteAt m i = byteAt m' i) :
    m = m' := by
  apply BitVec.eq_of_getLsbD_eq
  intro j hj
  have hb := congrArg (fun b : Byte => b.getLsbD (j % 8)) (h (j / 8) (by omega))
  rw [getLsbD_byteAt _ _ (by omega), getLsbD_byteAt _ _ (by omega)] at hb
  rwa [show 8 * (j / 8) + j % 8 = j by omega] at hb

theorem byteAt_of_ge (m : BitVec n) {i : Nat} (h : n ≤ 8 * i) : byteAt m i = 0#8 := by
  apply BitVec.eq_of_getLsbD_eq
  intro j hj
  rw [getLsbD_byteAt _ _ hj, BitVec.getLsbD_of_ge _ _ (by omega)]
  simp

theorem byteAt_zero_mem (i : Nat) : byteAt (0 : BitVec n) i = 0#8 := by
  apply BitVec.eq_of_getLsbD_eq
  intro j hj
  rw [getLsbD_byteAt _ _ hj]
  simp

/-- A wider value is read byte by byte. -/
theorem byteAt_readAt (m : BitVec n) (p : Nat) {i : Nat} (h : 8 * i + 8 ≤ w) :
    byteAt (readAt m p w) i = byteAt m (p + i) := by
  apply BitVec.eq_of_getLsbD_eq
  intro j hj
  rw [getLsbD_byteAt _ _ hj, getLsbD_byteAt _ _ hj, getLsbD_readAt _ _ (by omega)]
  congr 1
  omega

theorem byteAt_xorAt (m : BitVec n) (p : Nat) (v : BitVec w) {i : Nat} (hi : 8 * i + 8 ≤ n) :
    byteAt (xorAt m p v) i = byteAt m i ^^^ (if p ≤ i then byteAt v (i - p) else 0#8) := by
  apply BitVec.eq_of_getLsbD_eq
  intro j hj
  rw [BitVec.getLsbD_xor, getLsbD_byteAt _ _ hj, getLsbD_byteAt _ _ hj,
    getLsbD_xorAt _ _ _ (by omega)]
  by_cases hp : p ≤ i
  · rw [if_pos hp, getLsbD_byteAt _ _ hj, show 8 * i + j - 8 * p = 8 * (i - p) + j by omega]
    simp [show 8 * p ≤ 8 * i + j by omega]
  · rw [if_neg hp]
    simp [show ¬ 8 * p ≤ 8 * i + j by omega]

theorem byteAt_putAt (m : BitVec n) (p : Nat) (v : BitVec w) (hw : 8 ∣ w) {i : Nat}
    (hi : 8 * i + 8 ≤ n) :
    byteAt (putAt m p v) i =
      if p ≤ i ∧ 8 * (i - p) < w then byteAt v (i - p) else byteAt m i := by
  apply BitVec.eq_of_getLsbD_eq
  intro j hj
  rw [getLsbD_byteAt _ _ hj, getLsbD_putAt _ _ _ (by omega)]
  by_cases hp : p ≤ i ∧ 8 * (i - p) < w
  · rw [if_pos hp, if_pos (by omega), getLsbD_byteAt _ _ hj,
      show 8 * i + j - 8 * p = 8 * (i - p) + j by omega]
  · rw [if_neg hp, if_neg (by omega), getLsbD_byteAt _ _ hj]

theorem byteAt_xor (m m' : BitVec n) (i : Nat) :
    byteAt (m ^^^ m') i = byteAt m i ^^^ byteAt m' i := by
  apply BitVec.eq_of_getLsbD_eq
  intro j hj
  simp only [getLsbD_byteAt _ _ hj, BitVec.getLsbD_xor]

/-- A byte is its own only byte. -/
theorem byteAt_byte (b : Byte) (i : Nat) : byteAt b i = if i = 0 then b else 0#8 := by
  by_cases hi : i = 0
  · subst hi
    rw [if_pos rfl]
    apply BitVec.eq_of_getLsbD_eq
    intro j hj
    rw [getLsbD_byteAt _ _ hj, Nat.mul_zero, Nat.zero_add]
  · rw [if_neg hi]
    exact byteAt_of_ge _ (by omega)

/-! ### Reads of other widths -/

theorem ext_readAt {m m' : BitVec n} (hw : 0 < w) (k : Nat) (hk : w = 8 * k)
    (h : ∀ i, w * i < n → readAt m (k * i) w = readAt m' (k * i) w) : m = m' := by
  apply BitVec.eq_of_getLsbD_eq
  intro j hj
  have hlt : j % w < w := Nat.mod_lt _ hw
  have hdm : w * (j / w) + j % w = j := Nat.div_add_mod j w
  have hb := congrArg (fun b : BitVec w => b.getLsbD (j % w)) (h (j / w) (by omega))
  rw [getLsbD_readAt _ _ hlt, getLsbD_readAt _ _ hlt] at hb
  have he : 8 * (k * (j / w)) + j % w = j := by rw [← Nat.mul_assoc, ← hk, hdm]
  rwa [he] at hb

theorem readAt_putAt_same (m : BitVec n) (p : Nat) (v : BitVec w) (h : 8 * p + w ≤ n) :
    readAt (putAt m p v) p w = v := by
  apply BitVec.eq_of_getLsbD_eq
  intro j hj
  rw [getLsbD_readAt _ _ hj, getLsbD_putAt _ _ _ (by omega), if_pos (by omega),
    Nat.add_sub_cancel_left]

theorem readAt_putAt_of_disjoint (m : BitVec n) (p q u : Nat) (v : BitVec w) (hq : 8 * q + u ≤ n)
    (h : 8 * q + u ≤ 8 * p ∨ 8 * p + w ≤ 8 * q) :
    readAt (putAt m p v) q u = readAt m q u := by
  apply BitVec.eq_of_getLsbD_eq
  intro j hj
  rw [getLsbD_readAt _ _ hj, getLsbD_readAt _ _ hj, getLsbD_putAt _ _ _ (by omega),
    if_neg (by omega)]

theorem readAt_xorAt_same (m : BitVec n) (p : Nat) (v : BitVec w) (h : 8 * p + w ≤ n) :
    readAt (xorAt m p v) p w = readAt m p w ^^^ v := by
  apply BitVec.eq_of_getLsbD_eq
  intro j hj
  rw [getLsbD_readAt _ _ hj, getLsbD_xorAt _ _ _ (by omega), BitVec.getLsbD_xor,
    getLsbD_readAt _ _ hj, Nat.add_sub_cancel_left]
  simp

theorem readAt_xorAt_of_disjoint (m : BitVec n) (p q u : Nat) (v : BitVec w) (hq : 8 * q + u ≤ n)
    (h : 8 * q + u ≤ 8 * p ∨ 8 * p + w ≤ 8 * q) :
    readAt (xorAt m p v) q u = readAt m q u := by
  apply BitVec.eq_of_getLsbD_eq
  intro j hj
  rw [getLsbD_readAt _ _ hj, getLsbD_readAt _ _ hj, getLsbD_xorAt _ _ _ (by omega)]
  by_cases hp : 8 * p ≤ 8 * q + j
  · have hv : v.getLsbD (8 * q + j - 8 * p) = false := BitVec.getLsbD_of_ge _ _ (by omega)
    simp [hv]
  · simp [hp]

/-- Stores to disjoint places commute. -/
theorem putAt_comm_of_disjoint {w' : Nat} (m : BitVec n) (p q : Nat) (v : BitVec w)
    (v' : BitVec w') (h : 8 * q + w' ≤ 8 * p ∨ 8 * p + w ≤ 8 * q) :
    putAt (putAt m p v) q v' = putAt (putAt m q v') p v := by
  apply BitVec.eq_of_getLsbD_eq
  intro j hj
  simp only [getLsbD_putAt _ _ _ hj]
  by_cases hp : 8 * p ≤ j ∧ j - 8 * p < w
  · rw [if_pos hp, if_neg (by omega), if_pos hp]
  · rw [if_neg hp, if_neg hp]

/-! ### Lists of bytes -/

/-- `for (i = 0; i < len; i++) m[p + i] ^= bs[i]`. -/
def xorbuf (m : BitVec n) (p : Nat) : List Byte → BitVec n
  | [] => m
  | b :: bs => xorbuf (xorAt m p b) (p + 1) bs

/-- `for (i = 0; i < len; i++) m[p + i] = bs[i]`. -/
def memcpy (m : BitVec n) (p : Nat) : List Byte → BitVec n
  | [] => m
  | b :: bs => memcpy (putAt m p b) (p + 1) bs

/-- The `len` bytes from byte `p` on. -/
def bytesAt (m : BitVec n) (p len : Nat) : List Byte :=
  (List.range len).map fun i => byteAt m (p + i)

/-- The `w`-bit value whose bytes, low byte first, are those of the list. -/
def loadLE (w : Nat) (bs : List Byte) : BitVec w := memcpy 0 0 (bs.take (w / 8))

@[simp] theorem xorbuf_nil (m : BitVec n) (p : Nat) : xorbuf m p [] = m := rfl
@[simp] theorem memcpy_nil (m : BitVec n) (p : Nat) : memcpy m p [] = m := rfl

@[simp] theorem length_bytesAt (m : BitVec n) (p len : Nat) : (bytesAt m p len).length = len := by
  simp [bytesAt]

@[simp] theorem bytesAt_zero_len (m : BitVec n) (p : Nat) : bytesAt m p 0 = [] := rfl

theorem bytesAt_succ (m : BitVec n) (p len : Nat) :
    bytesAt m p (len + 1) = byteAt m p :: bytesAt m (p + 1) len := by
  simp only [bytesAt, List.range_succ_eq_map, List.map_cons, List.map_map, Nat.add_zero,
    List.cons.injEq, true_and]
  apply List.map_congr_left
  intro i _
  simp only [Function.comp, Nat.succ_eq_add_one]
  congr 1
  omega

theorem bytesAt_add (m : BitVec n) (p len len' : Nat) :
    bytesAt m p (len + len') = bytesAt m p len ++ bytesAt m (p + len) len' := by
  induction len generalizing p with
  | zero => simp
  | succ len ih =>
      rw [Nat.add_right_comm, bytesAt_succ, bytesAt_succ, ih, List.cons_append,
        show p + 1 + len = p + (len + 1) by omega]

theorem bytesAt_congr {k : Nat} {m : BitVec n} {m' : BitVec k} {p q len : Nat}
    (h : ∀ i, i < len → byteAt m (p + i) = byteAt m' (q + i)) : bytesAt m p len = bytesAt m' q len :=
  List.map_congr_left fun i hi => h i (List.mem_range.mp hi)

theorem getElem_bytesAt (m : BitVec n) (p : Nat) {len i : Nat} (h : i < (bytesAt m p len).length) :
    (bytesAt m p len)[i] = byteAt m (p + i) := by
  simp [bytesAt]

theorem byteAt_xorbuf (m : BitVec n) (p : Nat) (bs : List Byte) {i : Nat} (hi : 8 * i + 8 ≤ n) :
    byteAt (xorbuf m p bs) i = byteAt m i ^^^ (if p ≤ i then bs[i - p]?.getD 0#8 else 0#8) := by
  induction bs generalizing m p with
  | nil => simp
  | cons b bs ih =>
      rw [xorbuf, ih, byteAt_xorAt _ _ _ hi, BitVec.xor_assoc]
      congr 1
      rcases Nat.lt_trichotomy i p with h | h | h
      · rw [if_neg (by omega), if_neg (by omega), if_neg (by omega)]
        simp
      · subst h
        rw [if_pos (Nat.le_refl _), if_neg (by omega), if_pos (Nat.le_refl _), byteAt_byte]
        simp
      · rw [if_pos (by omega), if_pos (by omega), if_pos (by omega), byteAt_byte,
          if_neg (by omega), show i - p = i - (p + 1) + 1 by omega]
        simp

theorem byteAt_memcpy (m : BitVec n) (p : Nat) (bs : List Byte) {i : Nat} (hi : 8 * i + 8 ≤ n) :
    byteAt (memcpy m p bs) i =
      if p ≤ i ∧ i < p + bs.length then bs[i - p]?.getD 0#8 else byteAt m i := by
  induction bs generalizing m p with
  | nil => rw [memcpy_nil, if_neg (by rw [List.length_nil]; omega)]
  | cons b bs ih =>
      rw [memcpy, ih, byteAt_putAt _ _ _ (by decide) hi, List.length_cons]
      rcases Nat.lt_trichotomy i p with h | h | h
      · rw [if_neg (by omega), if_neg (by omega), if_neg (by omega)]
      · subst h
        rw [if_neg (by omega), if_pos (by omega), if_pos (by omega), byteAt_byte]
        simp
      · rw [show i - p = i - (p + 1) + 1 by omega, List.getElem?_cons_succ,
          if_neg (show ¬ (p ≤ i ∧ 8 * (i - (p + 1) + 1) < 8) by omega)]
        by_cases hb : i < p + (bs.length + 1)
        · rw [if_pos (by omega), if_pos (by omega)]
        · rw [if_neg (by omega), if_neg (by omega)]

theorem memcpy_append (m : BitVec n) (p : Nat) (bs bs' : List Byte) :
    memcpy m p (bs ++ bs') = memcpy (memcpy m p bs) (p + bs.length) bs' := by
  induction bs generalizing m p with
  | nil => rfl
  | cons b bs ih =>
      simp only [List.cons_append, memcpy, ih, List.length_cons]
      rw [show p + 1 + bs.length = p + (bs.length + 1) by omega]

theorem byteAt_loadLE {w : Nat} (bs : List Byte) {i : Nat} (hi : 8 * i + 8 ≤ w) :
    byteAt (loadLE w bs) i = bs[i]?.getD 0#8 := by
  rw [loadLE, byteAt_memcpy _ _ _ hi, byteAt_zero_mem, Nat.sub_zero, Nat.zero_add,
    List.length_take, List.getElem?_take_of_lt (by omega)]
  by_cases hl : i < bs.length
  · rw [if_pos (by omega)]
  · rw [if_neg (by omega), List.getElem?_eq_none (by omega), Option.getD_none]

/-! ### Two words at once -/

theorem byteAt_half (v : BitVec 128) {i : Nat} (hi : i < 16) :
    byteAt v i = if i < 8 then byteAt (readAt v 0 64) i else byteAt (readAt v 8 64) (i - 8) := by
  by_cases h : i < 8
  · rw [if_pos h, byteAt_readAt _ _ (by omega), Nat.zero_add]
  · rw [if_neg h, byteAt_readAt _ _ (by omega), show 8 + (i - 8) = i by omega]

/-- XORing in the two words of a 16-byte block is XORing in the block. -/
theorem xorAt_readAt_readAt (m : BitVec n) (hn : 8 ∣ n) (p : Nat) (v : BitVec 128) :
    xorAt (xorAt m p (readAt v 0 64)) (p + 8) (readAt v 8 64) = xorAt m p v := by
  apply ext_byteAt
  intro i hi
  rw [byteAt_xorAt _ _ _ (by omega), byteAt_xorAt _ _ _ (by omega), byteAt_xorAt _ _ _ (by omega),
    BitVec.xor_assoc]
  congr 1
  rcases (by omega : i < p ∨ (p ≤ i ∧ i < p + 8) ∨ (p + 8 ≤ i ∧ i < p + 16) ∨ p + 16 ≤ i)
    with h | ⟨h, h'⟩ | ⟨h, h'⟩ | h
  · rw [if_neg (by omega), if_neg (by omega), if_neg (by omega), BitVec.xor_zero]
  · rw [if_pos h, if_neg (by omega), if_pos h, BitVec.xor_zero, byteAt_half v (by omega),
      if_pos (by omega)]
  · rw [if_pos (by omega), if_pos h, if_pos (by omega), byteAt_half v (by omega),
      if_neg (by omega), byteAt_of_ge _ (by omega), BitVec.zero_xor]
    congr 1
  · rw [if_pos (by omega), if_pos (by omega), if_pos (by omega), byteAt_of_ge _ (by omega),
      byteAt_of_ge _ (by omega), byteAt_of_ge _ (by omega), BitVec.xor_zero]

/-- Storing the two words of a 16-byte block is storing the block. -/
theorem putAt_readAt_readAt (m : BitVec n) (hn : 8 ∣ n) (p : Nat) (v : BitVec 128) :
    putAt (putAt m p (readAt v 0 64)) (p + 8) (readAt v 8 64) = putAt m p v := by
  apply ext_byteAt
  intro i hi
  rw [byteAt_putAt _ _ _ (by decide) (by omega), byteAt_putAt _ _ _ (by decide) (by omega),
    byteAt_putAt _ _ _ (by decide) (by omega)]
  rcases (by omega : i < p ∨ (p ≤ i ∧ i < p + 8) ∨ (p + 8 ≤ i ∧ i < p + 16) ∨ p + 16 ≤ i)
    with h | ⟨h, h'⟩ | ⟨h, h'⟩ | h
  · rw [if_neg (by omega), if_neg (by omega), if_neg (by omega)]
  · rw [if_neg (by omega), if_pos (by omega), if_pos (by omega), byteAt_half v (by omega),
      if_pos (by omega)]
  · rw [if_pos (by omega), if_pos (by omega), byteAt_half v (by omega), if_neg (by omega)]
    congr 1
  · rw [if_neg (by omega), if_neg (by omega), if_neg (by omega)]

/-- A copy of a whole value is one store. -/
theorem memcpy_eq_putAt (m : BitVec n) (hn : 8 ∣ n) (p : Nat) (bs : List Byte)
    (hw : w = 8 * bs.length) : memcpy m p bs = putAt m p (loadLE w bs) := by
  apply ext_byteAt
  intro i hi
  rw [byteAt_memcpy _ _ _ (by omega), byteAt_putAt _ _ _ (by omega) (by omega)]
  by_cases h : p ≤ i ∧ i < p + bs.length
  · rw [if_pos h, if_pos (by omega), byteAt_loadLE _ (by omega)]
  · rw [if_neg h, if_neg (by omega)]

/-- A byte-wise XOR of a whole value is one XOR. -/
theorem xorbuf_eq_xorAt (m : BitVec n) (hn : 8 ∣ n) (p : Nat) (bs : List Byte)
    (hw : w = 8 * bs.length) : xorbuf m p bs = xorAt m p (loadLE w bs) := by
  apply ext_byteAt
  intro i hi
  rw [byteAt_xorbuf _ _ _ (by omega), byteAt_xorAt _ _ _ (by omega)]
  congr 1
  by_cases h : p ≤ i
  · rw [if_pos h, if_pos h]
    by_cases h' : i - p < bs.length
    · rw [byteAt_loadLE _ (by omega)]
    · rw [byteAt_of_ge _ (by omega), List.getElem?_eq_none (by omega), Option.getD_none]
  · rw [if_neg h, if_neg h]

/-- Overwriting all of a value leaves nothing of it. -/
theorem memcpy_zero_eq_loadLE (m : BitVec n) (hn : 8 ∣ n) (bs : List Byte)
    (hw : n = 8 * bs.length) : memcpy m 0 bs = loadLE n bs := by
  apply ext_byteAt
  intro i hi
  rw [byteAt_memcpy _ _ _ (by omega), if_pos (by omega), byteAt_loadLE _ (by omega), Nat.sub_zero]

/-- What has just been copied in. -/
theorem bytesAt_memcpy (m : BitVec n) (bs : List Byte) (h : 8 * bs.length ≤ n) :
    bytesAt (memcpy m 0 bs) 0 bs.length = bs := by
  apply List.ext_getElem (length_bytesAt ..)
  intro i h1 h2
  rw [getElem_bytesAt, byteAt_memcpy _ _ _ (by omega), Nat.zero_add, if_pos (by omega), Nat.sub_zero,
    List.getElem?_eq_getElem h2, Option.getD_some]

theorem bytesAt_xor (m m' : BitVec n) (p len : Nat) :
    bytesAt (m ^^^ m') p len = List.zipWith (· ^^^ ·) (bytesAt m p len) (bytesAt m' p len) := by
  apply List.ext_getElem (by simp)
  intro i h1 h2
  rw [List.getElem_zipWith, getElem_bytesAt, getElem_bytesAt, getElem_bytesAt, byteAt_xor]

theorem bytesAt_loadLE (bs : List Byte) (hw : w = 8 * bs.length) :
    bytesAt (loadLE w bs) 0 bs.length = bs := by
  apply List.ext_getElem (length_bytesAt ..)
  intro i h1 h2
  rw [getElem_bytesAt, byteAt_loadLE _ (by omega), Nat.zero_add, List.getElem?_eq_getElem h2,
    Option.getD_some]

/-- Bytes determine the value loaded from them. -/
theorem loadLE_injective {bs bs' : List Byte} (hw : w = 8 * bs.length) (hw' : w = 8 * bs'.length)
    (h : loadLE w bs = loadLE w bs') : bs = bs' := by
  have hlen : bs.length = bs'.length := by omega
  rw [← bytesAt_loadLE bs hw, ← bytesAt_loadLE bs' hw', h, hlen]

theorem loadLE_bytesAt (v : BitVec w) (hw : 8 ∣ w) : loadLE w (bytesAt v 0 (w / 8)) = v := by
  apply ext_byteAt
  intro i hi
  have hlen : i < (bytesAt v 0 (w / 8)).length := by
    rw [length_bytesAt]
    omega
  rw [byteAt_loadLE _ (by omega), List.getElem?_eq_getElem hlen, Option.getD_some,
    getElem_bytesAt, Nat.zero_add]

/-! ### Values one after another -/

/-- A value at the head of the bytes. -/
theorem loadLE_bytesAt_append (v : BitVec w) (hw : 8 ∣ w) (rest : List Byte) :
    loadLE w (bytesAt v 0 (w / 8) ++ rest) = v := by
  have htake : (bytesAt v 0 (w / 8) ++ rest).take (w / 8) =
      (bytesAt v 0 (w / 8)).take (w / 8) := by
    rw [List.take_append_of_le_length (Nat.le_of_eq (length_bytesAt ..).symm)]
  rw [loadLE, htake, ← loadLE, loadLE_bytesAt v hw]

theorem drop_bytesAt_append (v : BitVec w) (len k : Nat) (rest : List Byte) :
    (bytesAt v 0 len ++ rest).drop (len + k) = rest.drop k := by
  rw [← List.drop_drop, List.drop_left' (length_bytesAt ..)]

theorem bytesAt_zero_mem (len : Nat) : bytesAt (0 : BitVec w) 0 len = List.replicate len 0 := by
  apply List.ext_getElem (by simp)
  intro i h1 h2
  rw [getElem_bytesAt, byteAt_zero_mem, List.getElem_replicate]
  rfl

end LittleEndian
