import AsconDtls.Provider.Cipher
import AsconDtls.Provider.Stream
import AsconDtls.Wolf.InPlace

/-!
# The provider on one buffer

`ascon_aead128_encrypt_update` and `decrypt_update` with the pointers `out` and `in` into one
memory.  The byte loops and the word loops write each byte or word before they read the next one;
decryption works from the copy in `ct`.

* `xorStoreAt_eq`, `encryptBlockAt_does`: such a loop reads what was there at the start.
* `encryptUpdateAt_streams`, `decryptUpdateAt_streams`: an update on a window does what the
  update on a list does.
* `updates_inPlace`: both libraries, in place and with two buffers.
-/

namespace AsconDtls.Provider

open LittleEndian
open InPlace (Mem Window Does SameInPlace Streams load store store_append load_congr take_load
  whileBlocksAt whileBlocksAt_eq length_load length_whileBlocks sameInPlace)
open Duplex (whileBlocks)
open Run (run)

/-! ### Inside a block -/

/-- `for (i = 0; i < n; i++) { s8[p + i] ^= in[i]; out[i] = s8[p + i]; }`. -/
def xorStoreAt (s : AsconState) (p : Nat) (m : Mem Byte) (out inp : Nat) :
    Nat → AsconState × Mem Byte
  | 0 => (s, m)
  | n + 1 =>
    let s := s.xorS8 p (m inp)
    let m := Function.update m out (s.s8 p)
    xorStoreAt s (p + 1) m (out + 1) (inp + 1) n

/-- `for (i = 0; i < n; i++) { out[i] = s8[p + i] ^ ct[i]; s8[p + i] = ct[i]; }`. -/
def putStoreAt (s : AsconState) (p : Nat) (m : Mem Byte) (out : Nat) :
    List Byte → AsconState × Mem Byte
  | [] => (s, m)
  | b :: ct =>
    let m := Function.update m out (s.s8 p ^^^ b)
    putStoreAt (s.setS8 p b) (p + 1) m (out + 1) ct

/-- `((const uint64_t *)p)[i]`. -/
def wordAt (m : Mem Byte) (p i : Nat) : BitVec 64 := loadLE 64 (load m (p + 8 * i) 8)

def encryptBytesAt (a : Ctx) (i : Nat) (w : Window Byte) (n : Nat) : Ctx × Mem Byte :=
  let t := xorStoreAt a.s i w.mem w.out w.inp n
  ({ a with s := t.1 }, t.2)

def encryptBlockAt (a : Ctx) (w : Window Byte) : Ctx × Mem Byte :=
  let s := a.s.xorS64 0 (wordAt w.mem w.inp 0)
  let m := store w.mem w.out (wordBytes (s.s64 0))
  let s := s.xorS64 1 (wordAt m w.inp 1)
  let m := store m (w.out + 8) (wordBytes (s.s64 1))
  ({ a with s := s }, m)

def decryptBytesAt (a : Ctx) (i : Nat) (w : Window Byte) (n : Nat) : Ctx × Mem Byte :=
  let a := { a with ct := memcpy a.ct 0 (load w.mem w.inp n) }
  let t := putStoreAt a.s i w.mem w.out (bytesAt a.ct 0 n)
  ({ a with s := t.1 }, t.2)

def decryptBlockAt (a : Ctx) (w : Window Byte) : Ctx × Mem Byte :=
  let a := { a with ct := memcpy a.ct 0 (load w.mem w.inp ASCON_AEAD128_RATE) }
  let m := store w.mem w.out (wordBytes (a.s.s64 0 ^^^ a.ctWord 0))
  let s := a.s.setS64 0 (a.ctWord 0)
  let m := store m (w.out + 8) (wordBytes (s.s64 1 ^^^ a.ctWord 1))
  let s := s.setS64 1 (a.ctWord 1)
  ({ a with s := s }, m)

/-- By induction on the bytes: the one that is written is not read again. -/
theorem xorStoreAt_eq (s : AsconState) (p : Nat) (m : Mem Byte) {out inp n : Nat}
    (h : out ≤ inp ∨ inp + n ≤ out) :
    xorStoreAt s p m out inp n =
      ((xorStore s p (load m inp n)).1, store m out (xorStore s p (load m inp n)).2) := by
  induction n generalizing s p m out inp with
  | zero => rfl
  | succ n ih =>
      have hlater : load (Function.update m out ((s.xorS8 p (m inp)).s8 p)) (inp + 1) n =
          load m (inp + 1) n := by
        refine load_congr fun a _ _ => ?_
        rw [Function.update_of_ne (by omega)]
      rw [xorStoreAt, ih _ _ _ (by omega), hlater]
      rfl

theorem putStoreAt_eq (s : AsconState) (p : Nat) (m : Mem Byte) (out : Nat) (ct : List Byte) :
    putStoreAt s p m out ct = ((putStore s p ct).1, store m out (putStore s p ct).2) := by
  induction ct generalizing s p m out with
  | nil => rfl
  | cons b ct ih =>
      rw [putStoreAt, ih]
      rfl

theorem length_xorStore (s : AsconState) (p : Nat) (bs : List Byte) :
    (xorStore s p bs).2.length = bs.length := by
  induction bs generalizing s p with
  | nil => rfl
  | cons b bs ih => rw [xorStore, List.length_cons, ih, List.length_cons]

theorem length_putStore (s : AsconState) (p : Nat) (bs : List Byte) :
    (putStore s p bs).2.length = bs.length := by
  induction bs generalizing s p with
  | nil => rfl
  | cons b bs ih => rw [putStore, List.length_cons, ih, List.length_cons]

theorem length_wordBytes (v : BitVec 64) : (wordBytes v).length = 8 := length_bytesAt ..

/-- A word of a block in memory is a word of the block. -/
theorem wordAt_eq (m : Mem Byte) (p : Nat) {i : Nat} (hi : i < 2) :
    wordAt m p i = wordOf (load m p ASCON_AEAD128_RATE) i := by
  have h16 : ASCON_AEAD128_RATE = 16 := rfl
  rw [wordOf, InPlace.drop_load _ _ (by omega), wordAt, loadLE, loadLE, take_load _ _ (by omega),
    take_load _ _ (by omega)]

/-! ### One update -/

section Stream

variable (bytes : Ctx → Nat → Window Byte → Nat → Ctx × Mem Byte)
  (block : Ctx → Window Byte → Ctx × Mem Byte)

/-- `if (lastBlkSz > 0)`. -/
def fillBlockAt (a : Ctx) (w : Window Byte) : (Ctx × Nat) × Window Byte :=
  if 0 < a.lastBlkSz then
    let n := min (ASCON_AEAD128_RATE - a.lastBlkSz) w.size
    let t := bytes a a.lastBlkSz w n
    let a := { t.1 with lastBlkSz := u8 (t.1.lastBlkSz + u8 n) }
    let a :=
      if a.lastBlkSz = ASCON_AEAD128_RATE then
        { a with s := asconPermute a.s ASCON_AEAD128_PB, lastBlkSz := 0 }
      else a
    ((a, n), w.advance t.2 n)
  else ((a, 0), w)

/-- One round of `while (inSz >= ASCON_AEAD128_RATE)`. -/
def blockRoundAt (t : Ctx × Nat) (w : Window Byte) : (Ctx × Nat) × Mem Byte :=
  let u := block t.1 w
  (({ u.1 with s := asconPermute u.1.s ASCON_AEAD128_PB }, t.2 + ASCON_AEAD128_RATE), u.2)

/-- The full blocks and `if (inSz > 0)`. -/
def blocksAndRestAt (t : Ctx × Nat) (w : Window Byte) : (Ctx × Nat) × Window Byte :=
  let r := whileBlocksAt ASCON_AEAD128_RATE (blockRoundAt block) t w
  if 0 < r.2.size then
    let t := bytes r.1.1 0 r.2 r.2.size
    (({ t.1 with lastBlkSz := u8 r.2.size }, r.1.2 + r.2.size), r.2.advance t.2 r.2.size)
  else (r.1, r.2)

/-- The context and `total`; the pointers are left where the input ends. -/
def streamUpdateAt (a : Ctx) (w : Window Byte) : (Ctx × Nat) × Window Byte :=
  let a := aadFinalize .ascon a
  let r := fillBlockAt bytes a w
  blocksAndRestAt bytes block r.1 r.2

end Stream

/-- `ascon_aead128_encrypt_update`. -/
def encryptUpdateAt (a : Ctx) (w : Window Byte) : (Ctx × Nat) × Window Byte :=
  streamUpdateAt encryptBytesAt encryptBlockAt a w

/-- `ascon_aead128_decrypt_update`. -/
def decryptUpdateAt (a : Ctx) (w : Window Byte) : (Ctx × Nat) × Window Byte :=
  streamUpdateAt decryptBytesAt decryptBlockAt a w

/-- An update on a list, `total` and the output. -/
def onList (update : Ctx → List Byte → Ctx × List Byte × Nat) (a : Ctx) (bs : List Byte) :
    Ctx × Nat × List Byte :=
  let r := update a bs
  (r.1, r.2.2, r.2.1)

/-- What is done with a partial and with a full block, on a window and on a list. -/
structure DoesBlocks (bytesAt : Ctx → Nat → Window Byte → Nat → Ctx × Mem Byte)
    (blockAt : Ctx → Window Byte → Ctx × Mem Byte)
    (bytes : Ctx → Nat → List Byte → Ctx × List Byte)
    (block : Ctx → List Byte → Ctx × List Byte) : Prop where
  bytes_does : ∀ i n, Does n (fun a w => bytesAt a i w n) (fun bs a => bytes a i bs)
  block_does : Does ASCON_AEAD128_RATE blockAt (fun blk a => block a blk)

theorem encrypt_does : DoesBlocks encryptBytesAt encryptBlockAt encryptBytes encryptBlock where
  bytes_does i n a w hw hn := by
    have hdata : w.data.take n = load w.mem w.inp n := take_load _ _ hn
    refine ⟨?_, (length_xorStore ..).trans ?_⟩
    · rw [hdata]
      simp only [encryptBytesAt, xorStoreAt_eq a.s i w.mem (show w.out ≤ w.inp ∨
        w.inp + n ≤ w.out by simp only [Window.Ahead] at hw; omega)]
      rfl
    · rw [hdata, length_load]
  block_does a w hw hn := by
    have h16 : ASCON_AEAD128_RATE = 16 := rfl
    have hdata : w.data.take ASCON_AEAD128_RATE = load w.mem w.inp ASCON_AEAD128_RATE :=
      take_load _ _ hn
    refine ⟨?_, ?_⟩
    · -- the first word of output leaves the second one of the input as it is
      have hsecond : ∀ v, wordAt (store w.mem w.out (wordBytes v)) w.inp 1 =
          wordAt w.mem w.inp 1 := by
        intro v
        rw [wordAt, InPlace.load_store_apart, wordAt]
        rw [length_wordBytes]
        simp only [Window.Ahead] at hw
        omega
      rw [hdata]
      simp only [encryptBlockAt, encryptBlock, hsecond, wordAt_eq _ _ (show 0 < 2 by decide),
        wordAt_eq _ _ (show 1 < 2 by decide)]
      rw [← store_append, length_wordBytes]
    · simp only [encryptBlock, List.length_append, length_wordBytes]
      rfl

theorem decrypt_does : DoesBlocks decryptBytesAt decryptBlockAt decryptBytes decryptBlock where
  bytes_does i n a w hw hn := by
    have hdata : w.data.take n = load w.mem w.inp n := take_load _ _ hn
    refine ⟨?_, (length_putStore ..).trans ?_⟩
    · rw [hdata]
      simp only [decryptBytesAt, decryptBytes, putStoreAt_eq, length_load]
    · rw [hdata, length_bytesAt, length_load]
  block_does a w hw hn := by
    have hdata : w.data.take ASCON_AEAD128_RATE = load w.mem w.inp ASCON_AEAD128_RATE :=
      take_load _ _ hn
    refine ⟨?_, ?_⟩
    · rw [hdata]
      simp only [decryptBlockAt, decryptBlock]
      rw [← store_append, length_wordBytes]
    · simp only [decryptBlock, List.length_append, length_wordBytes]
      rfl

section Stream

variable {bytesAt : Ctx → Nat → Window Byte → Nat → Ctx × Mem Byte}
  {blockAt : Ctx → Window Byte → Ctx × Mem Byte}
  {bytes : Ctx → Nat → List Byte → Ctx × List Byte}
  {block : Ctx → List Byte → Ctx × List Byte} (hdoes : DoesBlocks bytesAt blockAt bytes block)
include hdoes

theorem fillBlockAt_eq (a : Ctx) {w : Window Byte} (hw : w.Ahead) :
    let r := fillBlock bytes a w.data
    fillBlockAt bytesAt a w = (r.1, w.put r.2.1) ∧ (w.put r.2.1).data = r.2.2 ∧
      r.2.1.length ≤ w.size := by
  rw [fillBlockAt, fillBlock]
  split
  · simp only [Window.length_data]
    obtain ⟨n, hn⟩ : ∃ n, n = min (ASCON_AEAD128_RATE - a.lastBlkSz) w.size := ⟨_, rfl⟩
    have hle : n ≤ w.size := hn ▸ Nat.min_le_right ..
    have hlen : (bytes a a.lastBlkSz (w.data.take n)).2.length = n :=
      (hdoes.bytes_does a.lastBlkSz n a w hw hle).2
    obtain ⟨hstate, hadvance⟩ := (hdoes.bytes_does a.lastBlkSz n).advance a hw hle
    rw [← hn, hstate, hadvance]
    refine ⟨rfl, ?_, by omega⟩
    rw [Window.put_data hw (by omega), hlen]
  · exact ⟨rfl, rfl, Nat.zero_le _⟩

theorem blocksAndRestAt_eq (t : Ctx × Nat) {w : Window Byte} (hw : w.Ahead) :
    let r := blocksAndRest bytes block t w.data
    blocksAndRestAt bytesAt blockAt t w = ((r.1, r.2.2), w.put r.2.1) ∧
      r.2.1.length = w.size := by
  have hround : Does ASCON_AEAD128_RATE (blockRoundAt blockAt) (blockRound block) := by
    intro t w hw hn
    obtain ⟨hstep, hlen⟩ := hdoes.block_does t.1 w hw hn
    refine ⟨?_, hlen⟩
    rw [blockRoundAt, hstep]
    rfl
  obtain ⟨hloop, hrest, hout⟩ := whileBlocksAt_eq hround t hw
  obtain ⟨v, hv⟩ : ∃ v, v = whileBlocks ASCON_AEAD128_RATE (blockRound block) t w.data := ⟨_, rfl⟩
  rw [← hv] at hloop hrest hout
  have hahead := hw.put hout
  have hsize : (w.put v.2.1).size = v.2.2.length := by rw [← hrest, Window.length_data]
  have hdoesrest := hdoes.bytes_does 0 (w.put v.2.1).size
  have hlen := (hdoesrest v.1.1 _ hahead (Nat.le_refl _)).2
  obtain ⟨hstate, hadvance⟩ := hdoesrest.advance v.1.1 hahead (Nat.le_refl _)
  rw [← Window.length_data, List.take_length, hrest] at hstate hadvance hlen
  rw [Window.put_put] at hadvance
  have htotal : v.2.1.length + v.2.2.length = w.size := by
    rw [← hsize]
    show _ + (w.size - _) = w.size
    omega
  rw [blocksAndRestAt, hloop, blocksAndRest, ← hv]
  simp only [hsize]
  split
  · rw [hstate, hadvance]
    refine ⟨rfl, ?_⟩
    simp only [List.length_append]
    rw [hlen, htotal]
  · next hzero =>
      refine ⟨rfl, ?_⟩
      simp only
      omega

theorem streamUpdateAt_streams :
    Streams (fun _ => True) (streamUpdateAt bytesAt blockAt)
      (onList (streamUpdate bytes block)) := by
  intro a w _ hw
  obtain ⟨hfill, hrest, hle⟩ := fillBlockAt_eq hdoes (aadFinalize .ascon a) hw
  obtain ⟨hblocks, hlen⟩ := blocksAndRestAt_eq hdoes
    (fillBlock bytes (aadFinalize .ascon a) w.data).1 (hw.put hle)
  rw [hrest] at hblocks hlen
  rw [Window.put_put] at hblocks
  rw [streamUpdateAt, hfill]
  simp only
  rw [hblocks]
  refine ⟨rfl, ?_, trivial⟩
  simp only [onList, streamUpdate, List.length_append]
  rw [hlen]
  show _ + (w.size - _) = w.size
  omega

end Stream

theorem encryptUpdateAt_streams :
    Streams (fun _ => True) encryptUpdateAt (onList encryptUpdate) :=
  streamUpdateAt_streams encrypt_does

theorem decryptUpdateAt_streams :
    Streams (fun _ => True) decryptUpdateAt (onList decryptUpdate) :=
  streamUpdateAt_streams decrypt_does

/-- **In place as with two buffers**, for both libraries and both directions: after the calls
that bring key, nonce and associated data, updates with any chunks on one buffer leave the bytes
that they write to a buffer of their own, and every later call, the final among them, replies the
same. -/
theorem updates_inPlace :
    (∀ (B : Wolf.Build) (a : Wolf.AsconAEAD128) (keyFirst : Bool) (key nonce : Vector Byte 16)
        (ad : List Byte),
      let c := (run (Wolf.step B) a (Wolf.setupCalls keyFirst key nonce ad)).1
      let close := fun (a : Wolf.AsconAEAD128) cs => (run (Wolf.step B) a cs).2
      SameInPlace (Wolf.AsconAEAD128.encryptUpdateAt B)
          (Wolf.AsconAEAD128.onList (Wolf.AsconAEAD128.encryptUpdate B)) close c ∧
        SameInPlace (Wolf.AsconAEAD128.decryptUpdateAt B)
          (Wolf.AsconAEAD128.onList (Wolf.AsconAEAD128.decryptUpdate B)) close c) ∧
    (∀ calls : List Call,
      let c := (run step newctx calls).1
      let close := fun (a : Ctx) cs => (run step a cs).2
      SameInPlace encryptUpdateAt (onList encryptUpdate) close c ∧
        SameInPlace decryptUpdateAt (onList decryptUpdate) close c) := by
  constructor
  · intro B a keyFirst key nonce ad c close
    have hc : c = Wolf.ready a.iv (loadLE 128 key.toList) .notSet
        (aeadStart (loadLE 128 key.toList) (loadLE 128 nonce.toList) ad, 0) :=
      congrArg Prod.fst (Wolf.run_setup B a keyFirst key nonce ad)
    rw [hc]
    exact ⟨sameInPlace (Wolf.AsconAEAD128.encryptUpdateAt_streams B) close
        (Wolf.AsconAEAD128.accepts_ready ..),
      sameInPlace (Wolf.AsconAEAD128.decryptUpdateAt_streams B) close
        (Wolf.AsconAEAD128.accepts_ready ..)⟩
  · intro calls c close
    exact ⟨sameInPlace encryptUpdateAt_streams close trivial,
      sameInPlace decryptUpdateAt_streams close trivial⟩

end AsconDtls.Provider
