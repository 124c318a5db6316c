import AsconDtls.Lib.Checked
import AsconDtls.Provider.Cipher
import AsconDtls.Provider.Hash

/-!
# The provider stays inside its buffers

The functions of `ascon_local.h` that count bytes, with a check in front of every copy into
`adPart` and `ct`, every byte of the state that is addressed through `lastBlkSz`, every
difference `RATE - sz` and every store to a `uint8_t`; a loop that does not end stops as well.
`Guarded.step` and `Guarded.hashStep` make the calls of the cipher and the digest with these.

* `absorbAad_ok`, `encryptUpdate_ok`, `decryptUpdate_ok`, `final_ok`: below the rate no check
  fails, and the result is that of the function without them.
* `provider_guarded`: so it is in every context that calls reach from a zeroed one.
-/

namespace AsconDtls.Provider

open LittleEndian
open Checked (Fault inside sub toByte inside_ok sub_ok toByte_ok ok_bind)
open Duplex (length_whileBlocks_rest)
open Run (run)

/-- What holds of a cipher context between calls. -/
structure AsconAead128Ctx.Below {σ : Type} (a : AsconAead128Ctx σ) : Prop where
  lastBlkSz : a.lastBlkSz < ASCON_AEAD128_RATE
  adPartSz : a.adPartSz < ASCON_AEAD128_RATE

open AsconAead128Ctx (Below)

namespace Guarded

/-- Filling a block up from `pos`: the difference, the copy and both stores pass. -/
theorem fill_ok {rate pos n : Nat} (hrate : rate ≤ 16) (hpos : pos < rate) (len : Nat)
    (hn : n = min (rate - pos) len) :
    sub rate pos = .ok (rate - pos) ∧ inside rate pos n = .ok () ∧ toByte n = .ok n ∧
      toByte (pos + n) = .ok (pos + n) ∧ u8 (pos + u8 n) = pos + n := by
  refine ⟨sub_ok (by omega), inside_ok (by omega), toByte_ok (by omega), toByte_ok (by omega), ?_⟩
  simp only [u8]
  omega

/-! ### Associated data -/

section Aad

variable {σ : Type} (ops : StateOps σ)

/-- `while (adPartSz > 0 && adSz > 0)`. -/
def refill (a : AsconAead128Ctx σ) (ad : List Byte) :
    Nat → Except Fault (AsconAead128Ctx σ × List Byte)
  | 0 => if 0 < a.adPartSz ∧ 0 < ad.length then .error .unfinished else .ok (a, ad)
  | fuel + 1 =>
    if 0 < a.adPartSz ∧ 0 < ad.length then do
      let room ← sub ASCON_AEAD128_RATE a.adPartSz
      let n := min room ad.length
      inside ASCON_AEAD128_RATE a.adPartSz n
      let a := { a with adPart := memcpy a.adPart a.adPartSz (ad.take n) }
      let n8 ← toByte n
      let sz ← toByte (a.adPartSz + n8)
      let a := { a with adPartSz := sz }
      let a :=
        if a.adPartSz = ASCON_AEAD128_RATE then
          { a with s := xorPermute ops a.s a.adPartWord, adPartSz := 0 }
        else a
      refill a (ad.drop n) fuel
    else .ok (a, ad)

/-- `ascon_aead128_absorb_aad`. -/
def absorbAad (a : AsconAead128Ctx σ) (ad : List Byte) :
    Except Fault (AsconAead128Ctx σ) := do
  let a := if !a.adStarted then { keyed ops a with adStarted := true } else a
  let r ← refill ops a ad (ad.length + 1)
  let body (blk : List Byte) (s : σ) : Except Fault (σ × List Byte) :=
    .ok (xorPermute ops s (wordOf blk), [])
  let w ← Checked.whileBlocks ASCON_AEAD128_RATE body r.1.s r.2 r.2.length
  let a := { r.1 with s := w.1 }
  if 0 < w.2.2.length then do
    inside ASCON_AEAD128_RATE 0 w.2.2.length
    let sz ← toByte w.2.2.length
    .ok { a with adPart := memcpy a.adPart 0 w.2.2, adPartSz := sz }
  else .ok a

/-- `if (adPartSz > 0)` of `ascon_aead128_aad_finalize`. -/
def padAad (a : AsconAead128Ctx σ) : Except Fault (AsconAead128Ctx σ) :=
  if 0 < a.adPartSz then do
    inside ASCON_AEAD128_RATE a.adPartSz 1
    let a := { a with adPart := xorAt a.adPart a.adPartSz (1 : Byte) }
    .ok { a with s := xorPermute ops a.s a.adPartWord, adPartSz := 0 }
  else .ok a

/-- `ascon_aead128_aad_finalize`. -/
def aadFinalize (a : AsconAead128Ctx σ) : Except Fault (AsconAead128Ctx σ) :=
  if a.adDone then .ok a
  else do
    let a ← padAad ops (keyedUnlessStarted ops a)
    .ok { a with s := ops.xorWord a.s 4 (1#64 <<< 63), adDone := true }

theorem refill_ok {a : AsconAead128Ctx σ} (h : a.adPartSz < ASCON_AEAD128_RATE) {ad : List Byte}
    {fuel : Nat} (hfuel : ad.length ≤ fuel) :
    refill ops a ad fuel = .ok (Provider.refill ops a ad fuel) ∧
      (Provider.refill ops a ad fuel).1.adPartSz < ASCON_AEAD128_RATE ∧
      (Provider.refill ops a ad fuel).1.lastBlkSz = a.lastBlkSz := by
  induction fuel generalizing a ad with
  | zero =>
      rw [refill, if_neg (by omega), Provider.refill]
      exact ⟨rfl, h, rfl⟩
  | succ fuel ih =>
      rw [refill, Provider.refill]
      by_cases hguard : 0 < a.adPartSz ∧ 0 < ad.length
      · rw [if_pos hguard, if_pos hguard]
        obtain ⟨hpos, hne⟩ := hguard
        have h16 : ASCON_AEAD128_RATE = 16 := rfl
        obtain ⟨n, hn⟩ : ∃ n, n = min (ASCON_AEAD128_RATE - a.adPartSz) ad.length := ⟨_, rfl⟩
        obtain ⟨hroom, hinside, hn8, hsz, hsum⟩ := fill_ok (by omega) h ad.length hn
        have hdrop : (ad.drop n).length ≤ fuel := by
          rw [List.length_drop]
          omega
        rw [hroom, ok_bind]
        simp only [← hn]
        rw [hinside, ok_bind, hn8, ok_bind, hsz, ok_bind, hsum]
        by_cases hfull : a.adPartSz + n = ASCON_AEAD128_RATE
        · simp only [if_pos hfull]
          exact ih (show 0 < ASCON_AEAD128_RATE by omega) hdrop
        · simp only [if_neg hfull]
          exact ih (show a.adPartSz + n < ASCON_AEAD128_RATE by omega) hdrop
      · rw [if_neg hguard, if_neg hguard]
        exact ⟨rfl, h, rfl⟩

theorem absorbAad_ok {a : AsconAead128Ctx σ} (h : Below a) (ad : List Byte) :
    absorbAad ops a ad = .ok (Provider.absorbAad ops a ad) ∧
      Below (Provider.absorbAad ops a ad) := by
  have h16 : ASCON_AEAD128_RATE = 16 := rfl
  obtain ⟨b, hb⟩ : ∃ b, b = if !a.adStarted then { keyed ops a with adStarted := true } else a :=
    ⟨_, rfl⟩
  have hbelow : Below b := by
    rw [hb]
    split <;> exact ⟨h.lastBlkSz, h.adPartSz⟩
  have hr : 0 < ASCON_AEAD128_RATE := by omega
  let body (blk : List Byte) (s : σ) : σ × List Byte := (xorPermute ops s (wordOf blk), [])
  let checked (blk : List Byte) (s : σ) : Except Fault (σ × List Byte) := .ok (body blk s)
  have hbody : ∀ blk s, blk.length = ASCON_AEAD128_RATE → checked blk s = .ok (body blk s) :=
    fun _ _ _ => rfl
  have hfuel : ad.length ≤ ad.length + 1 := Nat.le_succ _
  obtain ⟨hrefill, hpart, hlast⟩ := refill_ok ops hbelow.adPartSz hfuel
  have hblocks := Checked.whileBlocks_ok hr hbody (Provider.refill ops b ad (ad.length + 1)).1.s
    (Nat.le_refl (Provider.refill ops b ad (ad.length + 1)).2.length)
  have hrest := length_whileBlocks_rest hr body (Provider.refill ops b ad (ad.length + 1)).1.s
    (Provider.refill ops b ad (ad.length + 1)).2
  simp only [body] at hblocks hrest
  have hlt : (Provider.refill ops b ad (ad.length + 1)).1.lastBlkSz < ASCON_AEAD128_RATE :=
    hlast ▸ hbelow.lastBlkSz
  simp only [absorbAad, Provider.absorbAad, ← hb]
  rw [hrefill, ok_bind, hblocks, ok_bind]
  split
  · rw [inside_ok (by omega), ok_bind, toByte_ok (by omega), ok_bind, u8,
      Nat.mod_eq_of_lt (by omega)]
    exact ⟨rfl, hlt, hrest⟩
  · exact ⟨rfl, hlt, hpart⟩

theorem padAad_ok {a : AsconAead128Ctx σ} (h : Below a) :
    padAad ops a = .ok (Provider.padAad ops a) ∧ Below (Provider.padAad ops a) := by
  rw [padAad, Provider.padAad]
  split
  · rw [inside_ok h.adPartSz, ok_bind]
    exact ⟨rfl, h.lastBlkSz, Nat.zero_lt_succ 15⟩
  · exact ⟨rfl, h⟩

theorem aadFinalize_ok {a : AsconAead128Ctx σ} (h : Below a) :
    aadFinalize ops a = .ok (Provider.aadFinalize ops a) ∧ Below (Provider.aadFinalize ops a) := by
  rw [aadFinalize, Provider.aadFinalize]
  split
  · exact ⟨rfl, h⟩
  · have hkeyed : Below (keyedUnlessStarted ops a) := by
      rw [keyedUnlessStarted]
      split <;> exact ⟨h.lastBlkSz, h.adPartSz⟩
    obtain ⟨hpad, hbelow⟩ := padAad_ok ops hkeyed
    rw [hpad, ok_bind]
    exact ⟨rfl, hbelow.lastBlkSz, hbelow.adPartSz⟩

end Aad

/-! ### Data -/

/-- A partial block of encryption. -/
def encryptBytes (a : Ctx) (i : Nat) (bs : List Byte) : Except Fault (Ctx × List Byte) := do
  inside ASCON_AEAD128_RATE i bs.length
  .ok (Provider.encryptBytes a i bs)

/-- A full block of encryption. -/
def encryptBlock (a : Ctx) (blk : List Byte) : Except Fault (Ctx × List Byte) := do
  inside ASCON_AEAD128_RATE 0 blk.length
  .ok (Provider.encryptBlock a blk)

/-- A partial block of decryption, by way of `ct`. -/
def decryptBytes (a : Ctx) (i : Nat) (bs : List Byte) : Except Fault (Ctx × List Byte) := do
  inside ASCON_AEAD128_RATE 0 bs.length
  inside ASCON_AEAD128_RATE i bs.length
  .ok (Provider.decryptBytes a i bs)

/-- A full block of decryption. -/
def decryptBlock (a : Ctx) (blk : List Byte) : Except Fault (Ctx × List Byte) := do
  inside ASCON_AEAD128_RATE 0 blk.length
  .ok (Provider.decryptBlock a blk)

section Stream

variable (bytes : Ctx → Nat → List Byte → Except Fault (Ctx × List Byte))
  (block : Ctx → List Byte → Except Fault (Ctx × List Byte))

/-- `if (lastBlkSz > 0)`. -/
def fillBlock (a : Ctx) (inp : List Byte) :
    Except Fault ((Ctx × Nat) × List Byte × List Byte) :=
  if 0 < a.lastBlkSz then do
    let room ← sub ASCON_AEAD128_RATE a.lastBlkSz
    let n := min room inp.length
    let t ← bytes a a.lastBlkSz (inp.take n)
    let n8 ← toByte n
    let sz ← toByte (t.1.lastBlkSz + n8)
    let a := { t.1 with lastBlkSz := sz }
    let a :=
      if a.lastBlkSz = ASCON_AEAD128_RATE then
        { a with s := asconPermute a.s ASCON_AEAD128_PB, lastBlkSz := 0 }
      else a
    .ok ((a, n), t.2, inp.drop n)
  else .ok ((a, 0), [], inp)

/-- One round of `while (inSz >= ASCON_AEAD128_RATE)`. -/
def blockRound (blk : List Byte) (t : Ctx × Nat) : Except Fault ((Ctx × Nat) × List Byte) := do
  let u ← block t.1 blk
  .ok (({ u.1 with s := asconPermute u.1.s ASCON_AEAD128_PB }, t.2 + ASCON_AEAD128_RATE), u.2)

/-- The full blocks and `if (inSz > 0)`. -/
def blocksAndRest (t : Ctx × Nat) (inp : List Byte) :
    Except Fault (Ctx × List Byte × Nat) := do
  let w ← Checked.whileBlocks ASCON_AEAD128_RATE (blockRound block) t inp inp.length
  if 0 < w.2.2.length then do
    let t ← bytes w.1.1 0 w.2.2
    let sz ← toByte w.2.2.length
    .ok ({ t.1 with lastBlkSz := sz }, w.2.1 ++ t.2, w.1.2 + w.2.2.length)
  else .ok (w.1.1, w.2.1, w.1.2)

/-- `ascon_aead128_encrypt_update` and `decrypt_update`. -/
def streamUpdate (a : Ctx) (inp : List Byte) : Except Fault (Ctx × List Byte × Nat) := do
  let a ← aadFinalize .ascon a
  let r ← fillBlock bytes a inp
  let t ← blocksAndRest bytes block r.1 r.2.2
  .ok (t.1, r.2.1 ++ t.2.1, t.2.2)

end Stream

/-- `ascon_aead128_encrypt_update`. -/
def encryptUpdate (a : Ctx) (inp : List Byte) : Except Fault (Ctx × List Byte × Nat) :=
  streamUpdate encryptBytes encryptBlock a inp

/-- `ascon_aead128_decrypt_update`. -/
def decryptUpdate (a : Ctx) (inp : List Byte) : Except Fault (Ctx × List Byte × Nat) :=
  streamUpdate decryptBytes decryptBlock a inp

/-- `ascon_aead128_final`. -/
def final (a : Ctx) : Except Fault (Ctx × Bool) := do
  let a ← aadFinalize .ascon a
  inside ASCON_AEAD128_RATE a.lastBlkSz 1
  let s := a.s.xorS8 a.lastBlkSz 1
  let s := s.xorS64 2 (a.keyWord 0)
  let s := s.xorS64 3 (a.keyWord 1)
  let s := asconPermute s ASCON_AEAD128_PA
  let s := s.xorS64 3 (a.keyWord 0)
  let s := s.xorS64 4 (a.keyWord 1)
  let a := { a with s := s }
  let computed : BitVec 128 := loadLE 128 (a.s.bytes 24 16)
  if a.enc then .ok ({ a with tag := computed }, true)
  else .ok (a, decide (tagDiff computed a.tag = 0))

/-- A partial and a full block pass in front of the end of the rate, and leave the counters. -/
structure Passes (bytes : Ctx → Nat → List Byte → Except Fault (Ctx × List Byte))
    (block : Ctx → List Byte → Except Fault (Ctx × List Byte))
    (bytes' : Ctx → Nat → List Byte → Ctx × List Byte)
    (block' : Ctx → List Byte → Ctx × List Byte) : Prop where
  bytes_ok : ∀ a i bs, i + bs.length ≤ ASCON_AEAD128_RATE → bytes a i bs = .ok (bytes' a i bs)
  block_ok : ∀ a blk, blk.length = ASCON_AEAD128_RATE → block a blk = .ok (block' a blk)
  bytes_sizes : ∀ a i bs, (bytes' a i bs).1.lastBlkSz = a.lastBlkSz ∧
    (bytes' a i bs).1.adPartSz = a.adPartSz
  block_sizes : ∀ a blk, (block' a blk).1.lastBlkSz = a.lastBlkSz ∧
    (block' a blk).1.adPartSz = a.adPartSz

theorem passes_encrypt :
    Passes encryptBytes encryptBlock Provider.encryptBytes Provider.encryptBlock where
  bytes_ok a i bs h := by rw [encryptBytes, inside_ok h, ok_bind]
  block_ok a blk h := by rw [encryptBlock, inside_ok (by omega), ok_bind]
  bytes_sizes _ _ _ := ⟨rfl, rfl⟩
  block_sizes _ _ := ⟨rfl, rfl⟩

theorem passes_decrypt :
    Passes decryptBytes decryptBlock Provider.decryptBytes Provider.decryptBlock where
  bytes_ok a i bs h := by
    rw [decryptBytes, inside_ok (by omega), ok_bind, inside_ok h, ok_bind]
  block_ok a blk h := by rw [decryptBlock, inside_ok (by omega), ok_bind]
  bytes_sizes _ _ _ := ⟨rfl, rfl⟩
  block_sizes _ _ := ⟨rfl, rfl⟩

section Stream

variable {bytes : Ctx → Nat → List Byte → Except Fault (Ctx × List Byte)}
  {block : Ctx → List Byte → Except Fault (Ctx × List Byte)}
  {bytes' : Ctx → Nat → List Byte → Ctx × List Byte}
  {block' : Ctx → List Byte → Ctx × List Byte} (hpass : Passes bytes block bytes' block')
include hpass

theorem fillBlock_ok {a : Ctx} (h : Below a) (inp : List Byte) :
    fillBlock bytes a inp = .ok (Provider.fillBlock bytes' a inp) ∧
      Below (Provider.fillBlock bytes' a inp).1.1 := by
  have h16 : ASCON_AEAD128_RATE = 16 := rfl
  have hlt := h.lastBlkSz
  rw [fillBlock, Provider.fillBlock]
  split
  · obtain ⟨n, hn⟩ : ∃ n, n = min (ASCON_AEAD128_RATE - a.lastBlkSz) inp.length := ⟨_, rfl⟩
    obtain ⟨hsame, hpart⟩ := hpass.bytes_sizes a a.lastBlkSz (inp.take n)
    obtain ⟨hroom, -, hn8, hsz, hsum⟩ := fill_ok (by omega) hlt inp.length hn
    have htake : (inp.take n).length = n := by
      rw [List.length_take]
      omega
    rw [hroom, ok_bind]
    simp only [← hn]
    rw [hpass.bytes_ok _ _ _ (by omega), ok_bind, hn8, ok_bind, hsame, hsz, ok_bind, hsum]
    refine ⟨rfl, ?_⟩
    split
    · exact ⟨Nat.zero_lt_succ 15, hpart ▸ h.adPartSz⟩
    · next hfull => exact ⟨by simp only at hfull ⊢; omega, hpart ▸ h.adPartSz⟩
  · exact ⟨rfl, h⟩

theorem blocksAndRest_ok {t : Ctx × Nat} (h : Below t.1) (inp : List Byte) :
    blocksAndRest bytes block t inp = .ok (Provider.blocksAndRest bytes' block' t inp) ∧
      Below (Provider.blocksAndRest bytes' block' t inp).1 := by
  have h16 : ASCON_AEAD128_RATE = 16 := rfl
  have hround : ∀ blk t, blk.length = ASCON_AEAD128_RATE →
      blockRound block blk t = .ok (Provider.blockRound block' blk t) := by
    intro blk t hlen
    rw [blockRound, hpass.block_ok _ _ hlen, ok_bind]
    rfl
  have hr : 0 < ASCON_AEAD128_RATE := by omega
  have hloop := Checked.whileBlocks_ok hr hround t (Nat.le_refl inp.length)
  have hrest := length_whileBlocks_rest hr (Provider.blockRound block') t inp
  have hbelow : Below (Duplex.whileBlocks ASCON_AEAD128_RATE (Provider.blockRound block') t
      inp).1.1 := by
    refine Duplex.whileBlocks_invariant (fun t : Ctx × Nat => Below t.1) ?_ h inp
    intro blk t _ ht
    obtain ⟨hsz, hpart⟩ := hpass.block_sizes t.1 blk
    exact ⟨hsz ▸ ht.lastBlkSz, hpart ▸ ht.adPartSz⟩
  rw [blocksAndRest, hloop, ok_bind, Provider.blocksAndRest]
  simp only
  split
  · rw [hpass.bytes_ok _ _ _ (by omega), ok_bind, toByte_ok (by omega), ok_bind, u8,
      Nat.mod_eq_of_lt (by omega)]
    exact ⟨rfl, hrest, lt_of_eq_of_lt (hpass.bytes_sizes _ 0 _).2 hbelow.adPartSz⟩
  · exact ⟨rfl, hbelow⟩

theorem streamUpdate_ok {a : Ctx} (h : Below a) (inp : List Byte) :
    streamUpdate bytes block a inp = .ok (Provider.streamUpdate bytes' block' a inp) ∧
      Below (Provider.streamUpdate bytes' block' a inp).1 := by
  obtain ⟨haad, hbelow⟩ := aadFinalize_ok .ascon h
  obtain ⟨hfill, hfilled⟩ := fillBlock_ok hpass hbelow inp
  obtain ⟨hblocks, hend⟩ := blocksAndRest_ok hpass hfilled
    (Provider.fillBlock bytes' (Provider.aadFinalize .ascon a) inp).2.2
  refine ⟨?_, hend⟩
  rw [streamUpdate, haad, ok_bind, hfill, ok_bind, hblocks, ok_bind]
  rfl

end Stream

theorem encryptUpdate_ok {a : Ctx} (h : Below a) (inp : List Byte) :
    encryptUpdate a inp = .ok (Provider.encryptUpdate a inp) ∧
      Below (Provider.encryptUpdate a inp).1 := streamUpdate_ok passes_encrypt h inp

theorem decryptUpdate_ok {a : Ctx} (h : Below a) (inp : List Byte) :
    decryptUpdate a inp = .ok (Provider.decryptUpdate a inp) ∧
      Below (Provider.decryptUpdate a inp).1 := streamUpdate_ok passes_decrypt h inp

theorem final_ok {a : Ctx} (h : Below a) :
    final a = .ok (Provider.final a) ∧ Below (Provider.final a).1 := by
  obtain ⟨haad, hbelow⟩ := aadFinalize_ok .ascon h
  rw [final, haad, ok_bind, inside_ok hbelow.lastBlkSz, ok_bind, Provider.final]
  simp only
  split
  · exact ⟨rfl, hbelow.lastBlkSz, hbelow.adPartSz⟩
  · exact ⟨rfl, hbelow.lastBlkSz, hbelow.adPartSz⟩

/-! ### The calls of the cipher -/

/-- `ascon128_update`. -/
def update (ctx : Ctx) (out : Option Nat) (inp : List Byte) : Except Fault (Ctx × Reply) :=
  if inp.length = 0 then .ok (ctx, .wrote [] 0)
  else
    match out with
    | none => do
      let ctx ← absorbAad .ascon ctx inp
      .ok (ctx, .wrote [] 0)
    | some outsize =>
      if outsize < inp.length then .ok (ctx, .error .outputBufferTooSmall)
      else do
        let r ← if ctx.enc then encryptUpdate ctx inp else decryptUpdate ctx inp
        .ok (r.1, .wrote r.2.1 r.2.2)

/-- `ascon128_final_fn`. -/
def finalFn (ctx : Ctx) : Except Fault (Ctx × Reply) := do
  let r ← final ctx
  if !r.2 then .ok (r.1, { ret := 0 }) else .ok (r.1, .wrote [] 0)

/-- The other calls count no bytes. -/
def step (ctx : Ctx) : Call → Except Fault (Ctx × Reply)
  | .update out inp => update ctx out inp
  | .final => finalFn ctx
  | c => .ok (Provider.step ctx c)

theorem update_ok {a : Ctx} (h : Below a) (out : Option Nat) (inp : List Byte) :
    update a out inp = .ok (Provider.update a out inp) ∧ Below (Provider.update a out inp).1 := by
  unfold update Provider.update
  split
  · exact ⟨rfl, h⟩
  · cases out with
    | none =>
        obtain ⟨haad, hbelow⟩ := absorbAad_ok .ascon h inp
        simp only
        rw [haad, ok_bind]
        exact ⟨rfl, hbelow⟩
    | some outsize =>
        simp only
        split
        · exact ⟨rfl, h⟩
        · split
          · obtain ⟨henc, hbelow⟩ := encryptUpdate_ok h inp
            rw [henc, ok_bind]
            exact ⟨rfl, hbelow⟩
          · obtain ⟨hdec, hbelow⟩ := decryptUpdate_ok h inp
            rw [hdec, ok_bind]
            exact ⟨rfl, hbelow⟩

theorem finalFn_ok {a : Ctx} (h : Below a) :
    finalFn a = .ok (Provider.finalFn a) ∧ Below (Provider.finalFn a).1 := by
  obtain ⟨hfinal, hbelow⟩ := final_ok h
  rw [finalFn, hfinal, ok_bind, Provider.finalFn]
  split <;> exact ⟨rfl, hbelow⟩

/-- `reset` empties both buffers, and the other fields that an `init` sets are no counters. -/
theorem below_setCtxParams {a : Ctx} (h : Below a) (params : Params) :
    Below (setCtxParams a params).1 := by
  rw [setCtxParams]
  split
  · exact h
  · split
    · exact h
    · cases params.tag with
      | none => exact h
      | some tag =>
          cases tag with
          | otherType => exact h
          | octets data =>
              simp only
              split
              · exact h
              · exact ⟨h.lastBlkSz, h.adPartSz⟩

theorem below_initIv {a : Ctx} (h : Below a) (iv : Option (List Byte)) :
    Below (initIv a iv).1 := by
  cases iv with
  | none => exact h
  | some iv =>
      rw [initIv]
      split
      · exact h
      · exact ⟨Nat.zero_lt_succ 15, Nat.zero_lt_succ 15⟩

theorem below_initKey {a : Ctx} (h : Below a) (key iv : Option (List Byte)) :
    Below (initKey a key iv).1 := by
  cases key with
  | none => exact below_initIv h iv
  | some key =>
      rw [initKey]
      split
      · exact h
      · refine below_initIv ?_ iv
        exact ⟨h.lastBlkSz, h.adPartSz⟩

theorem below_init {a : Ctx} (h : Below a) (key iv : Option (List Byte)) (params : Params)
    (enc : Bool) : Below (init a key iv params enc).1 := by
  have hparams := below_setCtxParams h params
  rw [init]
  split
  · exact hparams
  · refine below_initKey ?_ key iv
    exact ⟨hparams.lastBlkSz, hparams.adPartSz⟩

theorem step_ok (a : Ctx) (c : Call) (h : Below a) :
    step a c = .ok (Provider.step a c) ∧ Below (Provider.step a c).1 := by
  cases c with
  | einit key iv params => exact ⟨rfl, below_init h key iv params true⟩
  | dinit key iv params => exact ⟨rfl, below_init h key iv params false⟩
  | update out inp => exact update_ok h out inp
  | final => exact finalFn_ok h
  | setCtxParams params => exact ⟨rfl, below_setCtxParams h params⟩
  | getCtxParams params => exact ⟨rfl, h⟩

/-! ### The digest -/

/-- `while (dataSz > 0)` of `ascon_hash256_core_update`. -/
def coreUpdateLoop (h : AsconHash256Ctx) (data : List Byte) :
    Nat → Except Fault AsconHash256Ctx
  | 0 => if 0 < data.length then .error .unfinished else .ok h
  | fuel + 1 =>
    if 0 < data.length then do
      let room ← sub ASCON_HASH256_RATE h.lastBlkSz
      let n := min room data.length
      inside ASCON_HASH256_RATE h.lastBlkSz n
      let h := { h with s := h.s.xorbuf h.lastBlkSz (data.take n) }
      let n8 ← toByte n
      let sz ← toByte (h.lastBlkSz + n8)
      let h := { h with lastBlkSz := sz }
      let h :=
        if h.lastBlkSz = ASCON_HASH256_RATE then
          { s := asconPermute h.s ASCON_HASH256_ROUNDS, lastBlkSz := 0 }
        else h
      coreUpdateLoop h (data.drop n) fuel
    else .ok h

/-- `ascon_hash256_core_final`. -/
def coreFinal (h : AsconHash256Ctx) : Except Fault (AsconHash256Ctx × List Byte) := do
  inside ASCON_HASH256_RATE h.lastBlkSz 1
  let h := { h with s := h.s.xorS8 h.lastBlkSz 1 }
  let r := squeeze (fun s => asconPermute s ASCON_HASH256_ROUNDS) ASCON_HASH256_RATE
    (ASCON_HASH256_SZ / ASCON_HASH256_RATE) h.s
  .ok ({ h with s := r.1 }, r.2)

def hashStep (h : AsconHash256Ctx) : HashCall → Except Fault (AsconHash256Ctx × HashReply)
  | .init => .ok (h.coreInit, { ret := 1 })
  | .update data => do
    let h ← coreUpdateLoop h data data.length
    .ok (h, { ret := 1 })
  | .final => do
    let r ← coreFinal h
    .ok (r.1, { ret := 1, out := r.2 })

theorem coreUpdateLoop_ok {h : AsconHash256Ctx} (hlt : h.lastBlkSz < ASCON_HASH256_RATE)
    {data : List Byte} {fuel : Nat} (hfuel : data.length ≤ fuel) :
    coreUpdateLoop h data fuel = .ok (h.coreUpdateLoop data fuel) ∧
      (h.coreUpdateLoop data fuel).lastBlkSz < ASCON_HASH256_RATE := by
  induction fuel generalizing h data with
  | zero =>
      rw [coreUpdateLoop, if_neg (by omega), AsconHash256Ctx.coreUpdateLoop]
      exact ⟨rfl, hlt⟩
  | succ fuel ih =>
      rw [coreUpdateLoop, AsconHash256Ctx.coreUpdateLoop]
      split
      · have h8 : ASCON_HASH256_RATE = 8 := rfl
        obtain ⟨n, hn⟩ : ∃ n, n = min (ASCON_HASH256_RATE - h.lastBlkSz) data.length := ⟨_, rfl⟩
        obtain ⟨hroom, hinside, hn8, hsz, hsum⟩ := fill_ok (by omega) hlt data.length hn
        have hdrop : (data.drop n).length ≤ fuel := by
          rw [List.length_drop]
          omega
        rw [hroom, ok_bind]
        simp only [← hn]
        rw [hinside, ok_bind, hn8, ok_bind, hsz, ok_bind, hsum]
        by_cases hfull : h.lastBlkSz + n = ASCON_HASH256_RATE
        · simp only [if_pos hfull]
          exact ih (show 0 < ASCON_HASH256_RATE by omega) hdrop
        · simp only [if_neg hfull]
          exact ih (show h.lastBlkSz + n < ASCON_HASH256_RATE by omega) hdrop
      · exact ⟨rfl, hlt⟩

theorem hashStep_ok (h : AsconHash256Ctx) (c : HashCall)
    (hlt : h.lastBlkSz < ASCON_HASH256_RATE) :
    hashStep h c = .ok (Provider.hashStep h c) ∧
      (Provider.hashStep h c).1.lastBlkSz < ASCON_HASH256_RATE := by
  cases c with
  | init => exact ⟨rfl, Nat.zero_lt_succ 7⟩
  | update data =>
      obtain ⟨hloop, hend⟩ := coreUpdateLoop_ok hlt (Nat.le_refl data.length)
      rw [hashStep, hloop, ok_bind]
      exact ⟨rfl, hend⟩
  | final =>
      rw [hashStep, coreFinal, inside_ok hlt, ok_bind, ok_bind]
      exact ⟨rfl, hlt⟩

end Guarded

/-- In every context that calls reach from a zeroed one, the counters are below the rate, and the
functions with the checks do what those without do: no copy and no byte index leaves its block,
no difference falls below zero, no store to a `uint8_t` loses bits, and every loop ends. -/
theorem provider_guarded :
    (∀ calls : List Call,
      Checked.run Guarded.step newctx calls = .ok (run step newctx calls) ∧
        (run step newctx calls).1.Below) ∧
    (∀ calls : List HashCall,
      Checked.run Guarded.hashStep ⟨.zero, 0⟩ calls = .ok (run hashStep ⟨.zero, 0⟩ calls) ∧
        (run hashStep ⟨.zero, 0⟩ calls).1.lastBlkSz < ASCON_HASH256_RATE) := by
  constructor
  · intro calls
    refine Checked.run_ok AsconAead128Ctx.Below Guarded.step_ok ?_ calls
    exact ⟨Nat.zero_lt_succ 15, Nat.zero_lt_succ 15⟩
  · intro calls
    refine Checked.run_ok (fun h : AsconHash256Ctx => h.lastBlkSz < ASCON_HASH256_RATE)
      Guarded.hashStep_ok ?_ calls
    exact Nat.zero_lt_succ 7

end AsconDtls.Provider
