import AsconDtls.Lib.InPlace
import AsconDtls.Wolf.Invariant
import AsconDtls.Wolf.Stream

/-!
# The wolfSSL AEAD on one buffer

`wc_AsconAEAD128_EncryptUpdate` and `DecryptUpdate` with the pointers `out` and `in` into one
memory.  A block of encryption is read into the state before the output is copied out of it; one
of decryption is first copied to `ct`.

* `encryptUpdateAt_streams`, `decryptUpdateAt_streams`: on a window, an update does what the update
  on a list does.
-/

namespace AsconDtls.Wolf

open LittleEndian
open InPlace (Mem Window Does Streams load store take_load threePhaseAt threePhaseAt_eq
  length_threePhase)
open Duplex (threePhase)

namespace AsconAEAD128

/-- `xorbuf(&s8[i], in, n)` and `XMEMCPY(out, &s8[i], n)`. -/
def encryptPartAt (i n : Nat) (s : AsconState) (w : Window Byte) : AsconState × Mem Byte :=
  let s := s.xorbuf i (load w.mem w.inp n)
  (s, store w.mem w.out (s.bytes i n))

/-- `XMEMCPY(ct, in, n)`, `xorbufout(out, &s8[i], ct, n)` and `XMEMCPY(&s8[i], ct, n)`. -/
def decryptPartAt (i n : Nat) (s : AsconState) (w : Window Byte) : AsconState × Mem Byte :=
  let ct := load w.mem w.inp n
  let m := store w.mem w.out (xorbufout (s.bytes i n) ct)
  (s.memcpy i ct, m)

def processAt (B : Build) (part : Nat → Nat → AsconState → Window Byte → AsconState × Mem Byte)
    (a : AsconAEAD128) (w : Window Byte) : (AsconAEAD128 × Ret) × Window Byte :=
  let r := threePhaseAt ASCON_AEAD128_RATE
    (fun s => B.permutation s ASCON_AEAD128_ROUNDS_PB) part (a.state, a.lastBlkSz) w
  (({ a with state := r.1.1, lastBlkSz := r.1.2 }, .ok), r.2)

/-- An update with pointers that are not null. -/
def updateAt (B : Build) (dir : Op)
    (part : Nat → Nat → AsconState → Window Byte → AsconState × Mem Byte) (a : AsconAEAD128)
    (w : Window Byte) : (AsconAEAD128 × Ret) × Window Byte :=
  if !a.keySet || !a.nonceSet || !a.adSet then ((a, .badStateE), w)
  else if a.op = .notSet then processAt B part { a with op := dir } w
  else if a.op ≠ dir then ((a, .badStateE), w)
  else processAt B part a w

/-- `wc_AsconAEAD128_EncryptUpdate`. -/
def encryptUpdateAt (B : Build) (a : AsconAEAD128) (w : Window Byte) :
    (AsconAEAD128 × Ret) × Window Byte := updateAt B .encrypt encryptPartAt a w

/-- `wc_AsconAEAD128_DecryptUpdate`. -/
def decryptUpdateAt (B : Build) (a : AsconAEAD128) (w : Window Byte) :
    (AsconAEAD128 × Ret) × Window Byte := updateAt B .decrypt decryptPartAt a w

/-- An update on a list, the return code and the output apart. -/
def onList (update : AsconAEAD128 → Src → AsconAEAD128 × Reply) (a : AsconAEAD128)
    (bs : List Byte) : AsconAEAD128 × Ret × List Byte :=
  let r := update a (.ptr bs)
  (r.1, r.2.ret, r.2.out)

theorem encryptPartAt_does (i n : Nat) : Does n (encryptPartAt i n) (encryptPart i) := by
  intro s w _ hn
  have hdata : w.data.take n = load w.mem w.inp n := take_load _ _ hn
  rw [encryptPart, hdata, InPlace.length_load]
  exact ⟨rfl, AsconState.length_bytes ..⟩

theorem decryptPartAt_does (i n : Nat) : Does n (decryptPartAt i n) (decryptPart i) := by
  intro s w _ hn
  have hdata : w.data.take n = load w.mem w.inp n := take_load _ _ hn
  rw [decryptPart, hdata, InPlace.length_load]
  refine ⟨rfl, ?_⟩
  simp [xorbufout]

theorem length_encryptPart (i : Nat) (bs : List Byte) (s : AsconState) :
    (encryptPart i bs s).2.length = bs.length := AsconState.length_bytes ..

theorem length_decryptPart (i : Nat) (bs : List Byte) (s : AsconState) :
    (decryptPart i bs s).2.length = bs.length := by
  simp [decryptPart, xorbufout]

/-- The contexts that go on with the data of this direction. -/
structure Accepts (dir : Op) (a : AsconAEAD128) : Prop where
  keySet : a.keySet = true
  nonceSet : a.nonceSet = true
  adSet : a.adSet = true
  op : a.op = .notSet ∨ a.op = dir
  lastBlkSz : a.lastBlkSz < ASCON_AEAD128_RATE

theorem accepts_ready (dir : Op) (iv : Vector (BitVec 64) 2) (key : BitVec 128) (s : AsconState) :
    Accepts dir (ready iv key .notSet (s, 0)) :=
  ⟨rfl, rfl, rfl, Or.inl rfl, Nat.zero_lt_succ 15⟩

section Update

variable (B : Build) {dir : Op}
  {partAt : Nat → Nat → AsconState → Window Byte → AsconState × Mem Byte}
  {part : Nat → List Byte → AsconState → AsconState × List Byte}
  (hpart : ∀ i n, Does n (partAt i n) (part i))
  (hlen : ∀ i bs s, (part i bs s).2.length = bs.length)
include hpart hlen

theorem processAt_eq {a : AsconAEAD128} (h : a.lastBlkSz < ASCON_AEAD128_RATE) {w : Window Byte}
    (hw : w.Ahead) :
    processAt B partAt a w =
        (((process B part a w.data).1, .ok), w.put (process B part a w.data).2.out) ∧
      (process B part a w.data).2.ret = .ok ∧
      (process B part a w.data).2.out.length = w.size ∧
      (process B part a w.data).1.lastBlkSz < ASCON_AEAD128_RATE := by
  have hr : 0 < ASCON_AEAD128_RATE := Nat.zero_lt_succ 15
  have hphase := threePhaseAt_eq (fun s => B.permutation s ASCON_AEAD128_ROUNDS_PB) hr
    (fun i n _ => hpart i n) (c := (a.state, a.lastBlkSz)) h hw
  have hout := length_threePhase ASCON_AEAD128_RATE
    (fun s => B.permutation s ASCON_AEAD128_ROUNDS_PB) hlen (a.state, a.lastBlkSz) w.data
  refine ⟨?_, rfl, hout.trans w.length_data, ?_⟩
  · rw [processAt, hphase]
    rfl
  · rw [process_eq_log]
    exact (processLog_inside B part h w.data).2

/-- Past its checks, an update on a window does what the update on a list does. -/
theorem updateAt_streams :
    Streams (Accepts dir) (updateAt B dir partAt) (onList (update B dir part)) := by
  intro a w ha hw
  obtain ⟨hkey, hnonce, had, hop, hlt⟩ := ha
  have hguard : ¬ (!a.keySet || !a.nonceSet || !a.adSet) = true := by
    rw [hkey, hnonce, had]
    exact Bool.false_ne_true
  have hbad : ¬ (Src.ptr w.data).bad = true := Bool.false_ne_true
  rw [updateAt, onList, update, if_neg hguard, if_neg hbad, if_neg hguard]
  by_cases h0 : a.op = .notSet
  · obtain ⟨hproc, hret, hout, hend⟩ :=
      processAt_eq B hpart hlen (a := { a with op := dir }) hlt hw
    rw [if_pos h0, if_pos h0, hproc]
    exact ⟨by rw [← hret]; rfl, hout, hkey, hnonce, had, Or.inr rfl, hend⟩
  · have hdir : a.op = dir := hop.resolve_left h0
    obtain ⟨hproc, hret, hout, hend⟩ := processAt_eq B hpart hlen hlt hw
    rw [if_neg h0, if_neg h0, if_neg (not_not.mpr hdir), if_neg (not_not.mpr hdir), hproc]
    exact ⟨by rw [← hret]; rfl, hout, hkey, hnonce, had, Or.inr hdir, hend⟩

end Update

theorem encryptUpdateAt_streams (B : Build) :
    Streams (Accepts .encrypt) (encryptUpdateAt B) (onList (encryptUpdate B)) :=
  updateAt_streams B encryptPartAt_does length_encryptPart

theorem decryptUpdateAt_streams (B : Build) :
    Streams (Accepts .decrypt) (decryptUpdateAt B) (onList (decryptUpdate B)) :=
  updateAt_streams B decryptPartAt_does length_decryptPart

end AsconAEAD128

end AsconDtls.Wolf
