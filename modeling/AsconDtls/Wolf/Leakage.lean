import AsconDtls.Lib.Leakage
import AsconDtls.Wolf.Hash
import AsconDtls.Wolf.InPlace

/-!
# What `ascon.c` lets an observer see

The functions of the AEAD API once more, with a note of each permutation, of each place of the
state whose index or length is not a constant, of the comparison of the tags, and of the return
that is taken.  The permutation is straight-line code and its only table is indexed by the round,
so the number of rounds is all that there is to see of it.

`leakStep_fst`: the notes change nothing.  `leaks_eq_iff`: two runs whose calls have arguments of
equal lengths, on contexts with equal flags and positions, differ in what is seen only where a
`DecryptFinal` answers differently; keys, nonces and data are not seen.
-/

namespace AsconDtls.Wolf

open LittleEndian
open Duplex (threePhase whileBlocks emit emitPart)
open Run (run run_cons run_nil)

/-- What an observer sees. -/
inductive Leak
  /-- `s8[pos]`, …, `s8[pos + len - 1]`. -/
  | touch (pos len : Nat)
  | permutation (rounds : Rounds)
  /-- `ConstantCompare` of the tags. -/
  | compare
  | ret (ret : Ret)
deriving DecidableEq

namespace AsconAEAD128

/-- A return, after what has been seen. -/
def returns (a : AsconAEAD128) (r : Reply) (log : List Leak) :
    (AsconAEAD128 × Reply) × List Leak := ((a, r), log ++ [.ret r.ret])

section Leak

variable (B : Build)

def permutationLeak (rounds : Rounds) : AsconState × List Leak → AsconState × List Leak :=
  emit (fun s => B.permutation s rounds) (.permutation rounds)

/-- The two words of the key, added at `s64[i]` and `s64[i + 1]`. -/
def keyLeak (a : AsconAEAD128) (i : Nat) (s : AsconState × List Leak) : AsconState × List Leak :=
  emit (fun s => (s.xorS64 i (a.keyWord 0)).xorS64 (i + 1) (a.keyWord 1)) (.touch (8 * i) 16) s

def initLeak (a : AsconAEAD128) : (AsconAEAD128 × Reply) × List Leak :=
  returns a.init.1 a.init.2 []

def setKeyLeak (a : AsconAEAD128) (key : Option (Vector Byte 16)) :
    (AsconAEAD128 × Reply) × List Leak :=
  match key with
  | none => returns a (.fail .badFuncArg) []
  | some key =>
    if a.keySet then returns a (.fail .badStateE) []
    else
      let a := { a with key := memcpy a.key 0 key.toList }
      let a := { a with state := a.state.setS64 1 (a.keyWord 0) }
      let a := { a with state := a.state.setS64 2 (a.keyWord 1) }
      returns { a with keySet := true } (.ok []) [.touch 8 16]

def setNonceLeak (a : AsconAEAD128) (nonce : Option (Vector Byte 16)) :
    (AsconAEAD128 × Reply) × List Leak :=
  match nonce with
  | none => returns a (.fail .badFuncArg) []
  | some nonce =>
    if a.nonceSet then returns a (.fail .badStateE) []
    else
      let a := { a with state := a.state.memcpy 24 nonce.toList }
      returns { a with nonceSet := true } (.ok []) [.touch 24 16]

def xorPart (i : Nat) (bs : List Byte) (s : AsconState) : AsconState × List Byte :=
  (s.xorbuf i bs, [])

/-- `absorbAD`, seen. -/
def absorbADLeak (s : AsconState × List Leak) (ad : List Byte) : AsconState × List Leak :=
  let body (blk : List Byte) (s : AsconState × List Leak) :
      (AsconState × List Leak) × List Byte :=
    (permutationLeak B ASCON_AEAD128_ROUNDS_PB (emitPart xorPart .touch 0 blk s).1, [])
  let r := whileBlocks ASCON_AEAD128_RATE body s ad
  let s := (emitPart xorPart .touch 0 r.2.2 r.1).1
  let s := emit (fun s => s.xorS8 r.2.2.length 1) (.touch r.2.2.length 1) s
  permutationLeak B ASCON_AEAD128_ROUNDS_PB s

def setADLeak (a : AsconAEAD128) (ad : Src) : (AsconAEAD128 × Reply) × List Leak :=
  if ad.bad then returns a (.fail .badFuncArg) []
  else if !a.keySet || !a.nonceSet then returns a (.fail .badStateE) []
  else
    let s := permutationLeak B ASCON_AEAD128_ROUNDS_PA (a.state, [])
    let s := keyLeak a 3 s
    let s := if 0 < ad.data.length then absorbADLeak B s ad.data else s
    let s := emit (fun s => s.xorS64 4 (1#64 <<< 63)) (.touch 32 8) s
    returns { a with state := s.1, adSet := true } (.ok []) s.2

/-- `process`, seen. -/
def processLeak (part : Nat → List Byte → AsconState → AsconState × List Byte)
    (a : AsconAEAD128) (data : List Byte) : (AsconAEAD128 × Reply) × List Leak :=
  let r := threePhase ASCON_AEAD128_RATE (permutationLeak B ASCON_AEAD128_ROUNDS_PB)
    (emitPart part .touch) ((a.state, []), a.lastBlkSz) data
  returns { a with state := r.1.1.1, lastBlkSz := r.1.2 } (.ok r.2) r.1.1.2

def updateLeak (dir : Op) (part : Nat → List Byte → AsconState → AsconState × List Byte)
    (a : AsconAEAD128) (inp : Src) : (AsconAEAD128 × Reply) × List Leak :=
  if inp.bad then returns a (.fail .badFuncArg) []
  else if !a.keySet || !a.nonceSet || !a.adSet then returns a (.fail .badStateE) []
  else if a.op = .notSet then processLeak B part { a with op := dir } inp.data
  else if a.op ≠ dir then returns a (.fail .badStateE) []
  else processLeak B part a inp.data

/-- `finalize`, seen. -/
def finalizeLeak (a : AsconAEAD128) : AsconAEAD128 × List Leak :=
  let s := emit (fun s => s.xorS8 a.lastBlkSz 1) (.touch a.lastBlkSz 1) (a.state, [])
  let s := keyLeak a 2 s
  let s := permutationLeak B ASCON_AEAD128_ROUNDS_PA s
  let s := keyLeak a 3 s
  ({ a with state := s.1 }, s.2)

def encryptFinalLeak (a : AsconAEAD128) (tag : Dst) : (AsconAEAD128 × Reply) × List Leak :=
  if tag = .null then returns a (.fail .badFuncArg) []
  else if !a.keySet || !a.nonceSet || !a.adSet then returns a (.fail .badStateE) []
  else if a.op ≠ .encrypt then returns a (.fail .badStateE) []
  else
    let r := finalizeLeak B a
    returns r.1 (.ok r.1.tag) r.2

def decryptFinalLeak (a : AsconAEAD128) (tag : Option (Vector Byte 16)) :
    (AsconAEAD128 × Reply) × List Leak :=
  match tag with
  | none => returns a (.fail .badFuncArg) []
  | some tag =>
    if !a.keySet || !a.nonceSet || !a.adSet then returns a (.fail .badStateE) []
    else if a.op ≠ .decrypt then returns a (.fail .badStateE) []
    else
      let r := finalizeLeak B a
      let log := r.2 ++ [.compare]
      if B.constantCompare tag.toList r.1.tag ≠ 0 then returns r.1 (.fail .asconAuthE) log
      else returns r.1 (.ok []) log

def maskLeak (a : AsconAEAD128) (ciphertext : Option (Vector Byte 16)) (mask : Dst) :
    (AsconAEAD128 × Reply) × List Leak :=
  match ciphertext, mask with
  | some ct, .ptr =>
    if !a.keySet then returns a (.fail .badStateE) []
    else returns a (.ok (MaskPrf.maskPrfDerive a.keyBytes ct (MaskPrf.domsepTable .dtls)))
      [.permutation .r12]
  | _, _ => returns a (.fail .badFuncArg) []

end Leak

end AsconAEAD128

open AsconAEAD128 in
/-- One call, its reply and what is seen of it. -/
def leakStep (B : Build) (a : AsconAEAD128) : Call → (AsconAEAD128 × Reply) × List Leak
  | .init => initLeak a
  | .setKey key => setKeyLeak a key
  | .setNonce nonce => setNonceLeak a nonce
  | .setAD ad => setADLeak B a ad
  | .encryptUpdate inp => updateLeak B .encrypt encryptPart a inp
  | .encryptFinal tag => encryptFinalLeak B a tag
  | .decryptUpdate inp => updateLeak B .decrypt decryptPart a inp
  | .decryptFinal tag => decryptFinalLeak B a tag
  | .mask ciphertext mask => maskLeak a ciphertext mask

/-! ### The notes change nothing -/

namespace AsconAEAD128

section Erase

variable (B : Build)

theorem absorbADLeak_fst (s : AsconState × List Leak) (ad : List Byte) :
    (absorbADLeak B s ad).1 = absorbAD B s.1 ad := by
  let body (blk : List Byte) (s : AsconState) : AsconState × List Byte :=
    (B.permutation (s.xorbuf 0 blk) ASCON_AEAD128_ROUNDS_PB, [])
  let body' (blk : List Byte) (s : AsconState × List Leak) :
      (AsconState × List Leak) × List Byte :=
    (permutationLeak B ASCON_AEAD128_ROUNDS_PB (emitPart xorPart .touch 0 blk s).1, [])
  have hloop : (whileBlocks ASCON_AEAD128_RATE body' s ad).1.1 =
        (whileBlocks ASCON_AEAD128_RATE body s.1 ad).1 ∧
      (whileBlocks ASCON_AEAD128_RATE body' s ad).2 =
        (whileBlocks ASCON_AEAD128_RATE body s.1 ad).2 :=
    Duplex.whileBlocks_emit (fun _ _ => ⟨rfl, rfl⟩) s ad
  obtain ⟨hstate, hrest⟩ := hloop
  simp only [body, body'] at hstate hrest
  simp only [absorbADLeak, absorbAD, permutationLeak, emit, emitPart, xorPart] at hstate hrest ⊢
  rw [hstate, hrest]

theorem setADLeak_fst (a : AsconAEAD128) (ad : Src) : (setADLeak B a ad).1 = setAD B a ad := by
  simp only [setADLeak, setAD]
  split
  · rfl
  split
  · rfl
  simp only [returns, keyLeak, permutationLeak, emit]
  split
  · rw [absorbADLeak_fst]
  · rfl

theorem processLeak_fst (part : Nat → List Byte → AsconState → AsconState × List Byte)
    (a : AsconAEAD128) (data : List Byte) :
    (processLeak B part a data).1 = process B part a data := by
  have hphase := Duplex.threePhase_emit ASCON_AEAD128_RATE
    (fun s => B.permutation s ASCON_AEAD128_ROUNDS_PB) part (.permutation ASCON_AEAD128_ROUNDS_PB)
    Leak.touch ((a.state, []), a.lastBlkSz) data
  simp only [process, hphase]
  rfl

theorem updateLeak_fst (dir : Op) (part : Nat → List Byte → AsconState → AsconState × List Byte)
    (a : AsconAEAD128) (inp : Src) : (updateLeak B dir part a inp).1 = update B dir part a inp := by
  simp only [updateLeak, update, ← processLeak_fst]
  split
  · rfl
  split
  · rfl
  split
  · rfl
  split
  · rfl
  · rfl

theorem finalizeLeak_fst (a : AsconAEAD128) : (finalizeLeak B a).1 = finalize B a := rfl

end Erase

end AsconAEAD128

open AsconAEAD128 in
theorem leakStep_fst (B : Build) (a : AsconAEAD128) (c : Call) :
    (leakStep B a c).1 = step B a c := by
  cases c with
  | init => rfl
  | setKey key =>
    cases key with
    | none => rfl
    | some key =>
      simp only [leakStep, step, setKeyLeak, setKey]
      split
      · rfl
      · rfl
  | setNonce nonce =>
    cases nonce with
    | none => rfl
    | some nonce =>
      simp only [leakStep, step, setNonceLeak, setNonce]
      split
      · rfl
      · rfl
  | setAD ad => exact setADLeak_fst B a ad
  | encryptUpdate inp => exact updateLeak_fst B .encrypt encryptPart a inp
  | encryptFinal tag =>
    simp only [leakStep, step, encryptFinalLeak, encryptFinal, finalizeLeak_fst]
    split
    · rfl
    split
    · rfl
    split
    · rfl
    · rfl
  | decryptUpdate inp => exact updateLeak_fst B .decrypt decryptPart a inp
  | decryptFinal tag =>
    cases tag with
    | none => rfl
    | some tag =>
      simp only [leakStep, step, decryptFinalLeak, decryptFinal]
      split
      · rfl
      split
      · rfl
      by_cases hcmp : B.constantCompare tag.toList (finalizeLeak B a).1.tag ≠ 0
      · rw [if_pos hcmp]
        exact (if_pos hcmp).symm
      · rw [if_neg hcmp]
        exact (if_neg hcmp).symm
  | mask ciphertext mask =>
    cases ciphertext with
    | none => rfl
    | some ct =>
      cases mask with
      | null => rfl
      | ptr =>
        simp only [leakStep, step, maskLeak, AsconAEAD128.mask]
        split
        · rfl
        · rfl

/-! ### What is public -/

/-- The lengths of an argument. -/
def Src.shape : Src → Src
  | .null sz => .null sz
  | .ptr data => .ptr (List.replicate data.length 0#8)

/-- A call without its keys, nonces, tags and data. -/
def Call.shape : Call → Call
  | .init => .init
  | .setKey key => .setKey (key.map fun _ => Vector.replicate 16 0#8)
  | .setNonce nonce => .setNonce (nonce.map fun _ => Vector.replicate 16 0#8)
  | .setAD ad => .setAD ad.shape
  | .encryptUpdate inp => .encryptUpdate inp.shape
  | .encryptFinal tag => .encryptFinal tag
  | .decryptUpdate inp => .decryptUpdate inp.shape
  | .decryptFinal tag => .decryptFinal (tag.map fun _ => Vector.replicate 16 0#8)
  | .mask ciphertext dst => .mask (ciphertext.map fun _ => Vector.replicate 16 0#8) dst

/-- The return code without the verdict on a tag. -/
def Ret.hide : Ret → Ret
  | .asconAuthE => .ok
  | r => r

namespace AsconAEAD128

/-- Equal flags and positions. -/
structure Alike (a a' : AsconAEAD128) : Prop where
  lastBlkSz : a.lastBlkSz = a'.lastBlkSz
  op : a.op = a'.op
  keySet : a.keySet = a'.keySet
  nonceSet : a.nonceSet = a'.nonceSet
  adSet : a.adSet = a'.adSet

/-- The same is seen of two calls up to the return code, and the codes differ in the verdict only. -/
structure Twins (x x' : (AsconAEAD128 × Reply) × List Leak) : Prop where
  alike : Alike x.1.1 x'.1.1
  length_out : x.1.2.out.length = x'.1.2.out.length
  hide : x.1.2.ret.hide = x'.1.2.ret.hide
  events : ∃ log, x.2 = log ++ [.ret x.1.2.ret] ∧ x'.2 = log ++ [.ret x'.1.2.ret]

theorem Src.bad_eq_of_shape {s s' : Src} (h : s.shape = s'.shape) :
    s.bad = s'.bad ∧ s.data.length = s'.data.length := by
  cases s with
  | null sz =>
    cases s' with
    | null sz' => cases h; exact ⟨rfl, rfl⟩
    | ptr data' => cases h
  | ptr data =>
    cases s' with
    | null sz' => cases h
    | ptr data' =>
      have hlen := congrArg List.length (Src.ptr.inj h)
      rw [List.length_replicate, List.length_replicate] at hlen
      exact ⟨rfl, hlen⟩

theorem twins_ok {a a' : AsconAEAD128} (ha : Alike a a') {out out' : List Byte}
    (hout : out.length = out'.length) {log log' : List Leak} (hlog : log = log') :
    Twins (returns a (.ok out) log) (returns a' (.ok out') log') := by
  subst hlog
  exact ⟨ha, hout, rfl, log, rfl, rfl⟩

theorem twins_code {a a' : AsconAEAD128} (ha : Alike a a') {ret ret' : Ret}
    (hret : ret.hide = ret'.hide) {log log' : List Leak} (hlog : log = log') :
    Twins (returns a (.fail ret) log) (returns a' (.fail ret') log') := by
  subst hlog
  exact ⟨ha, rfl, hret, log, rfl, rfl⟩

/-- Refusals look alike. -/
theorem twins_fail {a a' : AsconAEAD128} (ha : Alike a a') (ret : Ret) :
    Twins (returns a (.fail ret) []) (returns a' (.fail ret) []) := twins_code ha rfl rfl

theorem twins_init (a a' : AsconAEAD128) : Twins (initLeak a) (initLeak a') := by
  have hinit : Alike a.init.1 a'.init.1 := ⟨rfl, rfl, rfl, rfl, rfl⟩
  exact twins_ok hinit rfl rfl

theorem twins_setKey {a a' : AsconAEAD128} (ha : Alike a a') (key key' : Vector Byte 16) :
    Twins (setKeyLeak a (some key)) (setKeyLeak a' (some key')) := by
  have hset : ∀ s s' k k', Alike { a with state := s, key := k, keySet := true }
      { a' with state := s', key := k', keySet := true } := fun _ _ _ _ =>
    ⟨ha.lastBlkSz, ha.op, rfl, ha.nonceSet, ha.adSet⟩
  simp only [setKeyLeak, ha.keySet]
  split
  · exact twins_fail ha _
  · exact twins_ok (hset _ _ _ _) rfl rfl

theorem twins_setNonce {a a' : AsconAEAD128} (ha : Alike a a') (nonce nonce' : Vector Byte 16) :
    Twins (setNonceLeak a (some nonce)) (setNonceLeak a' (some nonce')) := by
  have hset : ∀ s s', Alike { a with state := s, nonceSet := true }
      { a' with state := s', nonceSet := true } := fun _ _ =>
    ⟨ha.lastBlkSz, ha.op, ha.keySet, rfl, ha.adSet⟩
  simp only [setNonceLeak, ha.nonceSet]
  split
  · exact twins_fail ha _
  · exact twins_ok (hset _ _) rfl rfl

section Seen

variable (B : Build)

theorem absorbADLeak_events {s s' : AsconState × List Leak} (hlog : s.2 = s'.2)
    {ad ad' : List Byte} (hlen : ad.length = ad'.length) :
    (absorbADLeak B s ad).2 = (absorbADLeak B s' ad').2 := by
  let body (blk : List Byte) (s : AsconState × List Leak) :
      (AsconState × List Leak) × List Byte :=
    (permutationLeak B ASCON_AEAD128_ROUNDS_PB (emitPart xorPart .touch 0 blk s).1, [])
  have hbody : ∀ blk blk' s s', blk.length = blk'.length → s.2 = s'.2 →
      (body blk s).1.2 = (body blk' s').1.2 ∧ (body blk s).2.length = (body blk' s').2.length := by
    intro blk blk' s s' hblk hs
    refine ⟨?_, rfl⟩
    simp only [body, permutationLeak, emit, emitPart, hs, hblk]
  have hloop : (whileBlocks ASCON_AEAD128_RATE body s ad).1.2 =
        (whileBlocks ASCON_AEAD128_RATE body s' ad').1.2 ∧
      (whileBlocks ASCON_AEAD128_RATE body s ad).2.2.length =
        (whileBlocks ASCON_AEAD128_RATE body s' ad').2.2.length :=
    Duplex.whileBlocks_events hbody hlog hlen
  obtain ⟨hevents, hrest⟩ := hloop
  simp only [body, permutationLeak, emit, emitPart] at hevents hrest
  simp only [absorbADLeak, permutationLeak, emit, emitPart, hevents, hrest]

theorem twins_setAD {a a' : AsconAEAD128} (ha : Alike a a') {ad ad' : Src}
    (hbad : ad.bad = ad'.bad) (hlen : ad.data.length = ad'.data.length) :
    Twins (setADLeak B a ad) (setADLeak B a' ad') := by
  have hguard : (!a.keySet || !a.nonceSet) = (!a'.keySet || !a'.nonceSet) := by
    rw [ha.keySet, ha.nonceSet]
  have hset : ∀ s s', Alike { a with state := s, adSet := true }
      { a' with state := s', adSet := true } := fun _ _ =>
    ⟨ha.lastBlkSz, ha.op, ha.keySet, ha.nonceSet, rfl⟩
  have hkeyed : (keyLeak a 3 (permutationLeak B ASCON_AEAD128_ROUNDS_PA (a.state, []))).2 =
      (keyLeak a' 3 (permutationLeak B ASCON_AEAD128_ROUNDS_PA (a'.state, []))).2 := by
    simp only [keyLeak, permutationLeak, emit]
  simp only [setADLeak, hbad, hguard, hlen]
  split
  · exact twins_fail ha _
  split
  · exact twins_fail ha _
  split
  · exact twins_ok (hset _ _) rfl
      (congrArg (· ++ [Leak.touch 32 8]) (absorbADLeak_events B hkeyed hlen))
  · exact twins_ok (hset _ _) rfl (congrArg (· ++ [Leak.touch 32 8]) hkeyed)

theorem twins_process {part : Nat → List Byte → AsconState → AsconState × List Byte}
    (hpart : ∀ i bs s, (part i bs s).2.length = bs.length) {a a' : AsconAEAD128}
    (ha : Alike a a') {data data' : List Byte} (hlen : data.length = data'.length) :
    Twins (processLeak B part a data) (processLeak B part a' data') := by
  have hout : ∀ i (bs bs' : List Byte) s s', bs.length = bs'.length →
      (part i bs s).2.length = (part i bs' s').2.length := by
    intro i bs bs' s s' h
    rw [hpart, hpart, h]
  have hset : ∀ (s s' : AsconState) {n n' : Nat}, n = n' →
      Alike { a with state := s, lastBlkSz := n } { a' with state := s', lastBlkSz := n' } :=
    fun _ _ _ _ hn => ⟨hn, ha.op, ha.keySet, ha.nonceSet, ha.adSet⟩
  obtain ⟨hlog, hpos, hlen'⟩ := Duplex.threePhase_events ASCON_AEAD128_RATE
    (fun s => B.permutation s ASCON_AEAD128_ROUNDS_PB) part
    (.permutation ASCON_AEAD128_ROUNDS_PB) Leak.touch hout
    (show ((a.state, ([] : List Leak)), a.lastBlkSz).1.2 =
      ((a'.state, []), a'.lastBlkSz).1.2 from rfl) ha.lastBlkSz hlen
  exact twins_ok (hset _ _ hpos) hlen' hlog

theorem twins_update {part : Nat → List Byte → AsconState → AsconState × List Byte}
    (hpart : ∀ i bs s, (part i bs s).2.length = bs.length) (dir : Op) {a a' : AsconAEAD128}
    (ha : Alike a a') {inp inp' : Src} (hbad : inp.bad = inp'.bad)
    (hlen : inp.data.length = inp'.data.length) :
    Twins (updateLeak B dir part a inp) (updateLeak B dir part a' inp') := by
  have hguard : (!a.keySet || !a.nonceSet || !a.adSet) =
      (!a'.keySet || !a'.nonceSet || !a'.adSet) := by
    rw [ha.keySet, ha.nonceSet, ha.adSet]
  have hdir : Alike { a with op := dir } { a' with op := dir } :=
    ⟨ha.lastBlkSz, rfl, ha.keySet, ha.nonceSet, ha.adSet⟩
  simp only [updateLeak, hbad, hguard, ha.op]
  split
  · exact twins_fail ha _
  split
  · exact twins_fail ha _
  split
  · exact twins_process B hpart hdir hlen
  split
  · exact twins_fail ha _
  · exact twins_process B hpart ha hlen

theorem finalizeLeak_alike {a a' : AsconAEAD128} (ha : Alike a a') :
    Alike (finalizeLeak B a).1 (finalizeLeak B a').1 ∧
      (finalizeLeak B a).2 = (finalizeLeak B a').2 := by
  refine ⟨⟨ha.lastBlkSz, ha.op, ha.keySet, ha.nonceSet, ha.adSet⟩, ?_⟩
  simp only [finalizeLeak, keyLeak, permutationLeak, emit, ha.lastBlkSz]

theorem length_tag (a : AsconAEAD128) : a.tag.length = 16 := AsconState.length_bytes ..

theorem twins_encryptFinal {a a' : AsconAEAD128} (ha : Alike a a') (tag : Dst) :
    Twins (encryptFinalLeak B a tag) (encryptFinalLeak B a' tag) := by
  have hguard : (!a.keySet || !a.nonceSet || !a.adSet) =
      (!a'.keySet || !a'.nonceSet || !a'.adSet) := by
    rw [ha.keySet, ha.nonceSet, ha.adSet]
  obtain ⟨hfinal, hlog⟩ := finalizeLeak_alike B ha
  simp only [encryptFinalLeak, hguard, ha.op]
  split
  · exact twins_fail ha _
  split
  · exact twins_fail ha _
  split
  · exact twins_fail ha _
  · exact twins_ok hfinal ((length_tag _).trans (length_tag _).symm) hlog

/-- Only the verdict can differ. -/
theorem twins_decryptFinal {a a' : AsconAEAD128} (ha : Alike a a') (tag tag' : Vector Byte 16) :
    Twins (decryptFinalLeak B a (some tag)) (decryptFinalLeak B a' (some tag')) := by
  have hguard : (!a.keySet || !a.nonceSet || !a.adSet) =
      (!a'.keySet || !a'.nonceSet || !a'.adSet) := by
    rw [ha.keySet, ha.nonceSet, ha.adSet]
  obtain ⟨hfinal, hlog⟩ := finalizeLeak_alike B ha
  simp only [decryptFinalLeak, hguard, ha.op]
  split
  · exact twins_fail ha _
  split
  · exact twins_fail ha _
  have hcompare := congrArg (· ++ [Leak.compare]) hlog
  have hverdict : Ret.hide .asconAuthE = Ret.hide .ok := rfl
  split
  · split
    · exact twins_code hfinal rfl hcompare
    · exact twins_code hfinal hverdict hcompare
  · split
    · exact twins_code hfinal hverdict.symm hcompare
    · exact twins_ok hfinal rfl hcompare

theorem twins_mask {a a' : AsconAEAD128} (ha : Alike a a') (ct ct' : Vector Byte 16) :
    Twins (maskLeak a (some ct) .ptr) (maskLeak a' (some ct') .ptr) := by
  simp only [maskLeak, ha.keySet]
  split
  · exact twins_fail ha _
  · exact twins_ok ha
      ((MaskPrf.length_maskPrfDerive ..).trans (MaskPrf.length_maskPrfDerive ..).symm) rfl

end Seen

end AsconAEAD128

open AsconAEAD128 in
/-- **One call shows lengths, flags and positions, and the verdict.** -/
theorem leakStep_twins (B : Build) {a a' : AsconAEAD128} (ha : Alike a a') {c c' : Call}
    (hc : c.shape = c'.shape) : Twins (leakStep B a c) (leakStep B a' c') := by
  cases c with
  | init =>
    cases c' with
    | init => exact twins_init a a'
    | _ => cases hc
  | setKey key =>
    cases c' with
    | setKey key' =>
      have hkey := Call.setKey.inj hc
      cases key with
      | none =>
        cases key' with
        | none => exact twins_fail ha _
        | some key' => cases hkey
      | some key =>
        cases key' with
        | none => cases hkey
        | some key' => exact twins_setKey ha key key'
    | _ => cases hc
  | setNonce nonce =>
    cases c' with
    | setNonce nonce' =>
      have hnonce := Call.setNonce.inj hc
      cases nonce with
      | none =>
        cases nonce' with
        | none => exact twins_fail ha _
        | some nonce' => cases hnonce
      | some nonce =>
        cases nonce' with
        | none => cases hnonce
        | some nonce' => exact twins_setNonce ha nonce nonce'
    | _ => cases hc
  | setAD ad =>
    cases c' with
    | setAD ad' =>
      obtain ⟨hbad, hlen⟩ := Src.bad_eq_of_shape (Call.setAD.inj hc)
      exact twins_setAD B ha hbad hlen
    | _ => cases hc
  | encryptUpdate inp =>
    cases c' with
    | encryptUpdate inp' =>
      obtain ⟨hbad, hlen⟩ := Src.bad_eq_of_shape (Call.encryptUpdate.inj hc)
      exact twins_update B length_encryptPart .encrypt ha hbad hlen
    | _ => cases hc
  | encryptFinal tag =>
    cases c' with
    | encryptFinal tag' =>
      obtain rfl := Call.encryptFinal.inj hc
      exact twins_encryptFinal B ha tag
    | _ => cases hc
  | decryptUpdate inp =>
    cases c' with
    | decryptUpdate inp' =>
      obtain ⟨hbad, hlen⟩ := Src.bad_eq_of_shape (Call.decryptUpdate.inj hc)
      exact twins_update B length_decryptPart .decrypt ha hbad hlen
    | _ => cases hc
  | decryptFinal tag =>
    cases c' with
    | decryptFinal tag' =>
      have htag := Call.decryptFinal.inj hc
      cases tag with
      | none =>
        cases tag' with
        | none => exact twins_fail ha _
        | some tag' => cases htag
      | some tag =>
        cases tag' with
        | none => cases htag
        | some tag' => exact twins_decryptFinal B ha tag tag'
    | _ => cases hc
  | mask ciphertext dst =>
    cases c' with
    | mask ciphertext' dst' =>
      obtain ⟨hct, rfl⟩ := Call.mask.inj hc
      cases ciphertext with
      | none =>
        cases ciphertext' with
        | none => exact twins_fail ha _
        | some ct' => cases hct
      | some ct =>
        cases ciphertext' with
        | none => cases hct
        | some ct' =>
          cases dst with
          | null => exact twins_fail ha _
          | ptr => exact twins_mask ha ct ct'
    | _ => cases hc

/-! ### Runs -/

/-- What is seen of each call of a run. -/
def leaks (B : Build) : AsconAEAD128 → List Call → List (List Leak)
  | _, [] => []
  | a, c :: cs => (leakStep B a c).2 :: leaks B (step B a c).1 cs

def returnCodes (B : Build) (a : AsconAEAD128) (cs : List Call) : List Ret :=
  (run (step B) a cs).2.map Reply.ret

theorem returnCodes_cons (B : Build) (a : AsconAEAD128) (c : Call) (cs : List Call) :
    returnCodes B a (c :: cs) = (step B a c).2.ret :: returnCodes B (step B a c).1 cs := rfl

/-- A call that is seen alike returns alike, and conversely. -/
theorem Twins.events_eq_iff {x x' : (AsconAEAD128 × Reply) × List Leak}
    (h : AsconAEAD128.Twins x x') : x.2 = x'.2 ↔ x.1.2.ret = x'.1.2.ret := by
  obtain ⟨log, hx, hx'⟩ := h.events
  rw [hx, hx', List.append_cancel_left_eq, List.cons.injEq, Leak.ret.injEq]
  exact and_iff_left rfl

open AsconAEAD128 in
/-- **Runs differ in what is seen only where a tag is accepted in one and refused in the other.**
Calls with arguments of equal lengths, on contexts with equal flags and positions: the return codes
are the same but for the verdicts, the outputs have the same lengths, and the same is seen of the
two runs if and only if the codes are the same. -/
theorem leaks_eq_iff (B : Build) {a a' : AsconAEAD128} (ha : Alike a a') {cs cs' : List Call}
    (hcs : cs.map Call.shape = cs'.map Call.shape) :
    (returnCodes B a cs).map Ret.hide = (returnCodes B a' cs').map Ret.hide ∧
      (run (step B) a cs).2.map (·.out.length) = (run (step B) a' cs').2.map (·.out.length) ∧
      (leaks B a cs = leaks B a' cs' ↔ returnCodes B a cs = returnCodes B a' cs') := by
  induction cs generalizing a a' cs' with
  | nil =>
    obtain rfl : cs' = [] := List.map_eq_nil_iff.1 hcs.symm
    exact ⟨rfl, rfl, iff_of_true rfl rfl⟩
  | cons c cs ih =>
    cases cs' with
    | nil => cases hcs
    | cons c' cs' =>
      obtain ⟨hc, hcs⟩ := List.cons.inj hcs
      have htwins := leakStep_twins B ha hc
      have hevents := Twins.events_eq_iff htwins
      have halike := htwins.alike
      have hhide := htwins.hide
      have hout := htwins.length_out
      simp only [leakStep_fst] at halike hhide hout hevents
      obtain ⟨hhides, houts, hiff⟩ := ih halike hcs
      refine ⟨?_, ?_, ?_⟩
      · rw [returnCodes_cons, returnCodes_cons, List.map_cons, List.map_cons, hhide, hhides]
      · simp only [run_cons, List.map_cons, hout, houts]
      · rw [leaks, leaks, returnCodes_cons, returnCodes_cons, List.cons.injEq, List.cons.injEq,
          hevents, hiff]

/-- One byte under two keys. -/
theorem leaks_eq_iff_encrypt :
    let B : Build := ⟨.looped, fun x y => if x = y then 0 else 1⟩
    let key : Vector Byte 16 := Vector.replicate 16 1#8
    let key' : Vector Byte 16 := Vector.replicate 16 2#8
    let cs := encryptCalls true key key [] [[1#8]]
    let cs' := encryptCalls true key' key' [] [[2#8]]
    (returnCodes B .zero cs).map Ret.hide = (returnCodes B .zero cs').map Ret.hide ∧
      (run (step B) .zero cs).2.map (·.out.length) = (run (step B) .zero cs').2.map (·.out.length) ∧
      (leaks B .zero cs = leaks B .zero cs' ↔ returnCodes B .zero cs = returnCodes B .zero cs') := by
  intro B key key' cs cs'
  exact leaks_eq_iff B ⟨rfl, rfl, rfl, rfl, rfl⟩ rfl

end AsconDtls.Wolf
