import Mathlib.Logic.Function.Iterate
import AsconDtls.Lib.Collision
import AsconDtls.Lib.Recorder
import AsconDtls.Provider.Hash

/-!
# Which messages have the same digest

`hashSponge` is the hash on padded messages, a block being a word; its inner part is the 32 bytes
that no block touches.  A digest is what is squeezed out of the state after the last block, so two
messages have the same digest for one of two reasons only (`digests_eq_iff`): their blocks meet, or
two states are squeezed alike.  The first takes a collision on the inner part on the way, and
any such collision gives two messages that can be continued at will.
-/

namespace AsconDtls.Provider

open LittleEndian
open Duplex (Machine)
open Collision (Sponge)
open Padding (pad10 pad10_injective length_pad10_mod)
open Recording (bytes bytes_append)
open Run (run run_append run_cons run_nil)

/-! ### The sponge -/

theorem s8_xorS64_zero (s : AsconState) (b : BitVec 64) {i : Nat} (hi : i < 40) :
    (s.xorS64 0 b).s8 i = s.s8 i ^^^ byteAt b i := by
  have hbyte := byteAt_xorAt s.mem 0 b (i := i) (by omega)
  rwa [if_pos (Nat.zero_le i)] at hbyte

/-- Bytes behind the block stay. -/
theorem bytes_inner_xorS64 (s : AsconState) (b : BitVec 64) :
    (s.xorS64 0 b).bytes 8 32 = s.bytes 8 32 := by
  refine AsconState.bytes_congr fun i hi hi' => ?_
  rw [s8_xorS64_zero s b hi', byteAt_of_ge b (by omega), BitVec.xor_zero]

theorem xorS64_zero_injective (s : AsconState) : Function.Injective (s.xorS64 0) := by
  intro b c h
  apply ext_byteAt
  intro i hi
  have hbyte := congrArg (AsconState.s8 · i) h
  simp only [s8_xorS64_zero s _ (show i < 40 by omega)] at hbyte
  exact (BitVec.xor_right_inj _).mp hbyte

theorem exists_xorS64 (s t : AsconState) (h : s.bytes 8 32 = t.bytes 8 32) :
    ∃ b, s.xorS64 0 b = t := by
  refine ⟨s.s64 0 ^^^ t.s64 0, ?_⟩
  apply AsconState.ext_s8
  intro i hi
  rw [s8_xorS64_zero s _ hi, byteAt_xor]
  by_cases hi8 : i < 8
  · have hword : ∀ u : AsconState, byteAt (u.s64 0) i = u.s8 i := by
      intro u
      rw [AsconState.s64, byteAt_readAt _ _ (by omega), Nat.mul_zero, Nat.zero_add]
      rfl
    rw [hword, hword, ← BitVec.xor_assoc, BitVec.xor_self, BitVec.zero_xor]
  · rw [byteAt_of_ge _ (by omega), byteAt_of_ge _ (by omega), BitVec.xor_zero, BitVec.xor_zero]
    have hget := congrArg (fun bs => bs[i - 8]?) h
    simp only [AsconState.bytes] at hget
    rw [List.getElem?_eq_getElem (by rw [length_bytesAt]; omega),
      List.getElem?_eq_getElem (by rw [length_bytesAt]; omega), getElem_bytesAt, getElem_bytesAt,
      Option.some.injEq, Nat.add_sub_cancel' (by omega)] at hget
    exact hget

/-- Absorbing blocks from the initial state on. -/
def hashSponge : Sponge AsconState (BitVec 64) (List Byte) where
  start := hashStart
  permute := permutePA
  absorb s b := s.xorS64 0 b
  inner s := s.bytes 8 32
  inner_absorb := bytes_inner_xorS64
  absorb_injective := xorS64_zero_injective
  exists_absorb := exists_xorS64

/-! ### Messages in blocks -/

theorem bytes_singleton (b : BitVec 64) : bytes [b] = bytesAt b 0 8 := List.append_nil _

theorem length_bytes (bs : List (BitVec 64)) : (bytes bs).length = 8 * bs.length := by
  induction bs with
  | nil => rfl
  | cons b bs ih =>
      have hcons : bytes (b :: bs) = bytesAt b 0 8 ++ bytes bs := rfl
      rw [hcons, List.length_append, length_bytesAt, ih, List.length_cons]
      omega

theorem bytes_injective {bs cs : List (BitVec 64)} (h : bytes bs = bytes cs) : bs = cs := by
  have hlen : bs.length = cs.length := by
    have hbytes := congrArg List.length h
    rw [length_bytes, length_bytes] at hbytes
    omega
  induction bs generalizing cs with
  | nil => exact (List.eq_nil_of_length_eq_zero hlen.symm).symm
  | cons b bs ih =>
      cases cs with
      | nil => cases hlen
      | cons c cs =>
          obtain ⟨hhead, htail⟩ : bytesAt b 0 8 = bytesAt c 0 8 ∧ bytes bs = bytes cs :=
            List.append_inj h (by rw [length_bytesAt, length_bytesAt])
          have hword := congrArg (loadLE 64) hhead
          rw [show (8 : Nat) = 64 / 8 from rfl, loadLE_bytesAt b (by decide),
            loadLE_bytesAt c (by decide)] at hword
          rw [hword, ih htail (Nat.succ.inj hlen)]

/-- Bytes up to the end of a block are blocks. -/
theorem exists_bytes (xs : List Byte) (h : xs.length % 8 = 0) :
    ∃ bs : List (BitVec 64), bytes bs = xs := by
  induction hn : xs.length using Nat.strongRecOn generalizing xs with
  | ind n ih =>
    by_cases h0 : xs.length = 0
    · exact ⟨[], (List.eq_nil_of_length_eq_zero h0).symm⟩
    · have htake : (xs.take 8).length = 8 := by
        rw [List.length_take]
        omega
      have hdrop : (xs.drop 8).length = xs.length - 8 := List.length_drop
      obtain ⟨bs, hbs⟩ := ih (n - 8) (by omega) (xs.drop 8) (by omega) (by omega)
      have hblock : bytesAt (loadLE 64 (xs.take 8)) 0 8 = xs.take 8 := by
        have hload := bytesAt_loadLE (w := 64) (xs.take 8) (by rw [htake])
        rwa [htake] at hload
      refine ⟨loadLE 64 (xs.take 8) :: bs, ?_⟩
      show bytesAt (loadLE 64 (xs.take 8)) 0 8 ++ bytes bs = xs
      rw [hblock, hbs, List.take_append_drop]

theorem exists_padded (msg : List Byte) :
    ∃ bs : List (BitVec 64), bytes bs = pad10 1 0 ASCON_HASH256_RATE msg := by
  have hlen : (pad10 (1 : Byte) 0 ASCON_HASH256_RATE msg).length % ASCON_HASH256_RATE = 0 :=
    length_pad10_mod (by decide) msg
  exact exists_bytes _ hlen

theorem xorbuf_bytesAt (s : AsconState) (b : BitVec 64) :
    s.xorbuf 0 (bytesAt b 0 8) = s.xorS64 0 b := by
  apply AsconState.ext_mem
  show LittleEndian.xorbuf s.mem 0 (bytesAt b 0 8) = xorAt s.mem 0 b
  rw [xorbuf_eq_xorAt (w := 64) s.mem (by decide) 0 _ (by rw [length_bytesAt])]
  exact congrArg (xorAt s.mem 0) (loadLE_bytesAt b (by decide))

theorem feed_block (s : AsconState) (b : BitVec 64) :
    (hashMachine.feed (s, 0) (bytes [b])).1 = (permutePA (s.xorS64 0 b), 0) := by
  have habsorb : (hashMachine.absorb 0 (bytesAt b 0 8) s).1 = s.xorS64 0 b := by
    rw [hashMachine, xorMachine_absorb _ _ _ (by rw [length_bytesAt]; omega), xorbuf_bytesAt]
  have hlen : 0 + (bytesAt b 0 8).length = hashMachine.rate := by
    rw [length_bytesAt]
    rfl
  have hfeed := hashMachine.feed_of_eq (s := s) (by decide) hlen
  rw [bytes_singleton, hfeed, habsorb]
  rfl

theorem feed_blocks (bs : List (BitVec 64)) :
    (hashMachine.feed (hashStart, 0) (bytes bs)).1 = (hashSponge.after bs, 0) := by
  induction bs using List.reverseRecOn with
  | nil => rfl
  | append_singleton bs b ih =>
      rw [bytes_append, hashMachine.feed_append, Sponge.after_append_singleton]
      simp only [ih, feed_block]
      rfl

/-- The pad byte behind the last bytes, and nothing behind that. -/
theorem xorS8_pad (s : AsconState) (rest : List Byte) (k : Nat) :
    (s.xorbuf 0 rest).xorS8 rest.length 1 = s.xorbuf 0 (rest ++ 1 :: List.replicate k 0) := by
  apply AsconState.ext_s8
  intro i hi
  rw [AsconState.s8_xorS8 _ _ _ hi, AsconState.s8_xorbuf _ _ _ hi, AsconState.s8_xorbuf _ _ _ hi,
    if_pos (Nat.zero_le i), if_pos (Nat.zero_le i), Nat.sub_zero]
  rcases Nat.lt_trichotomy i rest.length with hlt | rfl | hgt
  · rw [if_neg (by omega), List.getElem?_append_left hlt, BitVec.xor_zero]
  · rw [if_pos rfl, List.getElem?_eq_none (Nat.le_refl _),
      List.getElem?_append_right (Nat.le_refl _), Nat.sub_self, Option.getD_none, BitVec.xor_zero]
    rfl
  · obtain ⟨j, hj⟩ : ∃ j, i - rest.length = j + 1 := ⟨i - rest.length - 1, by omega⟩
    rw [if_neg (by omega), List.getElem?_eq_none (by omega),
      List.getElem?_append_right (by omega), hj, List.getElem?_cons_succ, List.getElem?_replicate,
      BitVec.xor_zero]
    split
    · rfl
    · rfl

/-- The state that a digest is squeezed out of. -/
def closing (msg : List Byte) : AsconState := pad (hashMachine.feed (hashStart, 0) msg).1

/-- It is the state after the last block of the padded message. -/
theorem lastInput_of_bytes {msg : List Byte} {bs : List (BitVec 64)}
    (h : bytes bs = pad10 1 0 ASCON_HASH256_RATE msg) :
    hashSponge.lastInput bs = some (closing msg) := by
  rcases List.eq_nil_or_concat bs with rfl | ⟨us, b, rfl⟩
  · have hlen := congrArg List.length h
    simp [bytes, pad10] at hlen
  · have hlen := congrArg List.length h
    rw [List.concat_eq_append] at h hlen ⊢
    rw [length_bytes, List.length_append, List.length_singleton, pad10, List.length_append,
      List.length_cons, List.length_replicate] at hlen
    simp only [ASCON_HASH256_RATE] at hlen
    have hle : 8 * us.length ≤ msg.length := by omega
    rw [bytes_append, bytes_singleton, pad10, ← List.take_append_drop (8 * us.length) msg,
      List.append_assoc] at h
    obtain ⟨hus, hb⟩ := List.append_inj h (by rw [length_bytes, List.length_take]; omega)
    obtain ⟨rest, hrest⟩ : ∃ rest, rest = msg.drop (8 * us.length) := ⟨_, rfl⟩
    have hmsg : msg = bytes us ++ rest := by
      rw [hus, hrest, List.take_append_drop]
    have hlt : rest.length < 8 := by
      rw [hrest, List.length_drop]
      omega
    have hfeed : (hashMachine.feed (hashStart, 0) msg).1 =
        ((hashSponge.after us).xorbuf 0 rest, rest.length) := by
      rw [hmsg, hashMachine.feed_append]
      simp only [feed_blocks]
      rw [hashMachine.feed_of_lt (show 0 + rest.length < 8 by omega), hashMachine,
        xorMachine_absorb _ _ _ (by omega), Nat.zero_add]
    rw [Sponge.lastInput_append_singleton, closing, hfeed, pad]
    simp only
    rw [xorS8_pad _ rest, hrest, ← hb, xorbuf_bytesAt]
    rfl

/-! ### Digests -/

/-- The padded blocks of the two messages meet. -/
def Meets (m m' : List Byte) : Prop :=
  ∃ bs cs : List (BitVec 64), bytes bs = pad10 1 0 ASCON_HASH256_RATE m ∧
    bytes cs = pad10 1 0 ASCON_HASH256_RATE m' ∧ hashSponge.Meet bs cs

/-- Two states show the same rate after each of four permutations. -/
def SqueezedAlike (s t : AsconState) : Prop :=
  s ≠ t ∧ ∀ i, i < 4 → (permutePA^[i + 1] s).bytes 0 8 = (permutePA^[i + 1] t).bytes 0 8

theorem closing_eq_iff (m m' : List Byte) : closing m = closing m' ↔ m = m' ∨ Meets m m' := by
  obtain ⟨bs, hbs⟩ := exists_padded m
  obtain ⟨cs, hcs⟩ := exists_padded m'
  have hlast : closing m = closing m' ↔ hashSponge.lastInput bs = hashSponge.lastInput cs := by
    rw [lastInput_of_bytes hbs, lastInput_of_bytes hcs, Option.some.injEq]
  rw [hlast, Sponge.lastInput_eq_iff]
  refine or_congr ⟨?_, ?_⟩ ⟨fun h => ⟨bs, cs, hbs, hcs, h⟩, ?_⟩
  · rintro rfl
    exact pad10_injective (by decide) (hbs.symm.trans hcs)
  · rintro rfl
    exact bytes_injective (hbs.trans hcs.symm)
  · rintro ⟨bs', cs', hbs', hcs', h⟩
    obtain rfl := bytes_injective (hbs.trans hbs'.symm)
    obtain rfl := bytes_injective (hcs.trans hcs'.symm)
    exact h

theorem squeeze_eq_iff (permute : AsconState → AsconState) (rate n : Nat) (s t : AsconState) :
    (squeeze permute rate n s).2 = (squeeze permute rate n t).2 ↔
      ∀ i, i < n → (permute^[i + 1] s).bytes 0 rate = (permute^[i + 1] t).bytes 0 rate := by
  induction n generalizing s t with
  | zero => exact ⟨fun _ i hi => absurd hi (Nat.not_lt_zero i), fun _ => rfl⟩
  | succ n ih =>
      simp only [squeeze]
      refine ⟨?_, ?_⟩
      · intro h i hi
        obtain ⟨hhead, htail⟩ := List.append_inj h (by simp)
        cases i with
        | zero => exact hhead
        | succ i => exact (ih _ _).mp htail i (by omega)
      · intro h
        have hhead := h 0 (Nat.succ_pos n)
        have htail := (ih (permute s) (permute t)).mpr fun i hi => h (i + 1) (by omega)
        simp only [Function.iterate_one, Nat.zero_add] at hhead
        rw [hhead, htail]

theorem hash256_eq_iff (m m' : List Byte) :
    hash256 m = hash256 m' ↔ m = m' ∨ Meets m m' ∨ SqueezedAlike (closing m) (closing m') := by
  have hblocks : ASCON_HASH256_SZ / ASCON_HASH256_RATE = 4 := by decide
  have hsqueeze := squeeze_eq_iff permutePA ASCON_HASH256_RATE 4 (closing m) (closing m')
  simp only [closing] at hsqueeze
  rw [hash256, hash256, hashClose, hashClose, hblocks, hsqueeze, ← or_assoc, ← closing_eq_iff,
    SqueezedAlike, closing, closing, ASCON_HASH256_RATE]
  refine ⟨?_, ?_⟩
  · intro h
    by_cases hsame : closing m = closing m'
    · exact .inl hsame
    · exact .inr ⟨hsame, h⟩
  · rintro (hsame | ⟨-, h⟩)
    · intro i _
      rw [hsame]
    · exact h

/-- Messages that go on after a collision. -/
theorem hash256_of_collide {us vs : List (BitVec 64)} (h : hashSponge.Collide us vs)
    (b : BitVec 64) :
    ∃ c, bytes (us ++ [b]) ≠ bytes (vs ++ [c]) ∧
      ∀ w, hash256 (bytes (us ++ [b]) ++ w) = hash256 (bytes (vs ++ [c]) ++ w) := by
  obtain ⟨c, hmeet⟩ := h.exists_meet b
  refine ⟨c, ?_, ?_⟩
  · intro hbytes
    obtain ⟨hus, -⟩ := List.append_inj' (bytes_injective hbytes) rfl
    exact h.ne hus
  · intro w
    have hafter := Sponge.after_eq_of_lastInput_eq hmeet.lastInput_eq
    simp only [hash256, hashMachine.feed_append, feed_blocks, hafter]

/-- A context of either implementation, with whatever it holds. -/
inductive Hasher
  | wolf (B : Wolf.Build) (a : Wolf.AsconHash256)
  | provider (h : AsconHash256Ctx)

/-- What is written for a message in chunks. -/
def Hasher.digest : Hasher → List (List Byte) → List Byte
  | .wolf B a, chunks =>
    (run (Wolf.hashStep B) a (.init :: Wolf.messageCalls chunks)).2.flatMap (·.out)
  | .provider h, chunks =>
    (run hashStep h (.init :: (chunks.map .update ++ [.final]))).2.flatMap (·.out)

theorem Hasher.digest_wolf (B : Wolf.Build) (a : Wolf.AsconHash256) (chunks : List (List Byte)) :
    (Hasher.wolf B a).digest chunks = hash256 chunks.flatten := by
  have h0 : ((hashStart, 0) : AsconState × Nat).2 < ASCON_HASH256_RATE := Nat.succ_pos 7
  have hrun := Wolf.AsconHash256.run_message B h0 chunks
  have hnone : (chunks.map fun _ => Wolf.Reply.ok []).flatMap (·.out) = [] := by
    rw [List.flatMap_eq_nil_iff]
    intro r hr
    obtain ⟨_, -, rfl⟩ := List.mem_map.mp hr
    rfl
  rw [Hasher.digest, run_cons, Wolf.hashStep, Wolf.AsconHash256.init_eq]
  simp only
  rw [hrun, Wolf.messageReplies, List.flatMap_cons, List.flatMap_append, hnone, List.nil_append,
    List.flatMap_singleton, ← hash256]
  exact List.nil_append _

theorem Hasher.digest_provider (h : AsconHash256Ctx) (chunks : List (List Byte)) :
    (Hasher.provider h).digest chunks = hash256 chunks.flatten := by
  have h0 : ((hashStart, 0) : AsconState × Nat).2 < ASCON_HASH256_RATE := Nat.succ_pos 7
  have hnone : ∀ h : AsconHash256Ctx,
      (run hashStep h (chunks.map .update)).2.flatMap (·.out) = [] := by
    induction chunks with
    | nil => exact fun h => rfl
    | cons bs chunks ih =>
        intro h
        rw [List.map_cons, run_cons, List.flatMap_cons, ih, List.append_nil, hashStep]
  obtain ⟨p, hp⟩ : ∃ p, p = run hashStep (AsconHash256Ctx.absorbing (hashStart, 0))
    (chunks.map .update) := ⟨_, rfl⟩
  have hstate : p.1 =
      AsconHash256Ctx.absorbing (hashMachine.feed (hashStart, 0) chunks.flatten).1 := by
    rw [hp]
    exact AsconHash256Ctx.run_updates h0 chunks
  have hout : p.2.flatMap (·.out) = [] := by
    rw [hp]
    exact hnone _
  have hinit : hashStep h .init = (AsconHash256Ctx.absorbing (hashStart, 0), { ret := 1 }) := by
    rw [hashStep, AsconHash256Ctx.coreInit_eq]
  have hfinal : (hashStep p.1 .final).2.out = hash256 chunks.flatten := by
    rw [hstate]
    exact AsconHash256Ctx.coreFinal_absorbing _
  rw [Hasher.digest, run_cons, hinit]
  simp only
  rw [run_append, ← hp, run_cons, run_nil, List.flatMap_cons, List.flatMap_append, hout,
    List.flatMap_cons, List.flatMap_nil, hfinal, List.append_nil, List.nil_append]
  exact List.nil_append _

theorem Hasher.digest_eq (H : Hasher) (chunks : List (List Byte)) :
    H.digest chunks = hash256 chunks.flatten := by
  cases H with
  | wolf B a => exact Hasher.digest_wolf B a chunks
  | provider h => exact Hasher.digest_provider h chunks

/-- **Which messages have the same digest**, on either implementation and in any chunks: the same
messages, messages that meet, and messages whose last states are squeezed alike.  Where two runs of
whole blocks collide on the inner part, they have continuations that meet, and go on to the same
digest with every ending. -/
theorem digests_eq_iff (H H' : Hasher) (xs ys : List (List Byte)) :
    (H.digest xs = H'.digest ys ↔
      xs.flatten = ys.flatten ∨ Meets xs.flatten ys.flatten ∨
        SqueezedAlike (closing xs.flatten) (closing ys.flatten)) ∧
    ∀ us vs, hashSponge.Collide us vs → ∀ b, ∃ c, bytes (us ++ [b]) ≠ bytes (vs ++ [c]) ∧
      ∀ zs, H.digest (bytes (us ++ [b]) :: zs) = H'.digest (bytes (vs ++ [c]) :: zs) := by
  refine ⟨?_, ?_⟩
  · rw [H.digest_eq, H'.digest_eq]
    exact hash256_eq_iff _ _
  · intro us vs hcollide b
    obtain ⟨c, hne, hsame⟩ := hash256_of_collide hcollide b
    refine ⟨c, hne, fun zs => ?_⟩
    rw [H.digest_eq, H'.digest_eq]
    exact hsame zs.flatten

end AsconDtls.Provider
