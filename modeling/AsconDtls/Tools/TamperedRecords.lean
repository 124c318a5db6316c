import AsconDtls.Tools.ProxyModes
import AsconDtls.Wolf.Stream
import Mathlib.Data.List.GetD

/-!
# What becomes of a record with a corrupted tag

`Corrupt-Tags` meets the records of an application datagram one after another, and the receiver
opens them with wolfSSL.  A `WireRecord` is a record as the client seals it: a header of five bytes
with the length in its last two, the ciphertext and the tag.

* `corruptTags_wire`: every record of a datagram comes out with its header and its ciphertext as
  they were, and with another tag.
* `flood_refused`: so every record that leaves the proxy in a flood is refused by `DecryptFinal`.
-/

namespace AsconDtls.Tools

open LittleEndian
open Run (run)
open Wolf (AsconAEAD128 Build Reply decryptCalls recordReplies)

/-! ### Records -/

/-- What the client seals.  `aad` is what it authenticates beside the data. -/
structure WireRecord where
  /-- The flags, and what stands before the length. -/
  flags : Vector Byte 3
  key : Vector Byte 16
  nonce : Vector Byte 16
  aad : List Byte
  pt : List Byte
  /-- Ciphertext and tag fit the length field. -/
  fits : pt.length + 16 < 65536

namespace WireRecord

variable (r : WireRecord)

/-- Ciphertext and tag. -/
def sealing : List Byte × List Byte :=
  aeadEncrypt (loadLE 128 r.key.toList) (loadLE 128 r.nonce.toList) r.aad r.pt

/-- The five bytes in front: `bytes[3..4]` is the length, big-endian. -/
def header : List Byte :=
  r.flags.toList ++ [BitVec.ofNat 8 ((r.pt.length + 16) / 256), BitVec.ofNat 8 (r.pt.length + 16)]

def wire : List Byte := r.header ++ (r.sealing.1 ++ r.sealing.2)

/-- The last byte of the tag with its lowest bit flipped. -/
def flipLast (tag : List Byte) : List Byte := tag.set 15 (tag.getD 15 0 ^^^ 1)

def tampered : List Byte := r.header ++ (r.sealing.1 ++ flipLast r.sealing.2)

theorem length_header : r.header.length = 5 := by simp [header]

theorem length_sealing_fst : r.sealing.1.length = r.pt.length := by
  rw [sealing, aeadEncrypt, sealFrom]
  exact Duplex.Machine.length_feed ..

theorem length_sealing_snd : r.sealing.2.length = 16 := length_aeadTag ..

end WireRecord

/-! ### The walk over a chain of records -/

/-- One array flips the tags of another in one way only. -/
theorem FlipsTags.unique {arr out out' : List Byte} {s : Nat} (h : FlipsTags arr s out)
    (h' : FlipsTags arr s out') : out = out' := by
  refine List.ext_getElem (h.length.trans h'.length.symm) fun i h1 h2 => ?_
  have hget : out.getD i 0 = out'.getD i 0 := by
    by_cases htag : TagAt arr s i
    · rw [h.tag i htag, h'.tag i htag]
    · rw [h.other i htag, h'.other i htag]
  simpa [List.getD_eq_getElem?_getD, h1, h2] using hget

theorem getD_append_length (pre xs : List Byte) (i : Nat) :
    (pre ++ xs).getD (pre.length + i) 0 = xs.getD i 0 := by
  rw [List.getD_append_right _ _ _ _ (Nat.le_add_right ..), Nat.add_sub_cancel_left]

namespace WireRecord

variable (r : WireRecord) (pre post : List Byte)

theorem length_wire : r.wire.length = 5 + (r.pt.length + 16) := by
  rw [wire, List.length_append, List.length_append, length_header, length_sealing_fst,
    length_sealing_snd]

theorem length_tampered : r.tampered.length = 5 + (r.pt.length + 16) := by
  rw [tampered, flipLast, List.length_append, List.length_append, length_header, List.length_set,
    length_sealing_fst, length_sealing_snd]

theorem bodyLen_wire : bodyLen (pre ++ (r.wire ++ post)) pre.length = r.pt.length + 16 := by
  have hflags : ∀ i xs, (r.flags.toList ++ xs).getD (3 + i) 0 = xs.getD i 0 := by
    intro i xs
    have hget := getD_append_length r.flags.toList xs i
    rwa [Vector.length_toList] at hget
  have hfits := r.fits
  rw [bodyLen, getD_append_length, getD_append_length, wire, header, List.append_assoc,
    List.append_assoc, hflags 0, hflags 1]
  simp only [List.cons_append, List.getD_cons_zero, List.getD_cons_succ, BitVec.toNat_ofNat,
    Nat.shiftLeft_eq]
  omega

theorem recEnd_wire :
    recEnd (pre ++ (r.wire ++ post)) pre.length = (pre ++ r.tampered).length := by
  rw [recEnd, bodyLen_wire, List.length_append, length_tampered]
  omega

theorem flipTag_wire :
    flipTag (pre ++ (r.wire ++ post)) pre.length = (pre ++ r.tampered) ++ post := by
  have hlast : recEnd (pre ++ (r.wire ++ post)) pre.length - 1 =
      pre.length + (r.header.length + (r.sealing.1.length + 15)) := by
    rw [recEnd, bodyLen_wire, length_header, length_sealing_fst]
    omega
  have hset : ∀ (xs ys : List Byte) (i : Nat) (b : Byte),
      (xs ++ ys).set (xs.length + i) b = xs ++ ys.set i b := by
    intro xs ys i b
    rw [List.set_append_right _ _ (Nat.le_add_right ..), Nat.add_sub_cancel_left]
  have htag : 15 < r.sealing.2.length := by
    rw [length_sealing_snd]
    decide
  rw [flipTag, if_pos (by rw [bodyLen_wire]; omega), hlast, getD_append_length, wire, tampered,
    flipLast]
  simp only [List.append_assoc]
  rw [getD_append_length, getD_append_length, hset, hset, hset,
    List.set_append_left _ _ htag, List.getD_append _ _ _ _ htag]

end WireRecord

/-- The walk meets every record of a chain. -/
theorem walk_wire (pre : List Byte) (rs : List WireRecord) :
    Walk (pre ++ rs.flatMap WireRecord.wire) pre.length
      (pre ++ rs.flatMap WireRecord.tampered) := by
  induction rs generalizing pre with
  | nil =>
    apply Walk.done
    simp
  | cons r rs ih =>
    rw [List.flatMap_cons, List.flatMap_cons]
    apply Walk.turn
    · rw [List.length_append, List.length_append, r.length_wire]
      omega
    · rw [r.recEnd_wire, List.length_append, List.length_append, List.length_append,
        r.length_wire, r.length_tampered]
      omega
    · rw [r.flipTag_wire, r.recEnd_wire, ← List.append_assoc]
      exact ih (pre ++ r.tampered)

/-- **Every record of a datagram comes out with another tag**, and with nothing else changed. -/
theorem corruptTags_wire (rs : List WireRecord) :
    corruptTags (rs.flatMap WireRecord.wire) = rs.flatMap WireRecord.tampered :=
  (corruptTags_flips _).unique (walk_flips (walk_wire [] rs))

/-! ### The receiver -/

theorem flipLast_ne {tag : List Byte} (h : tag.length = 16) : WireRecord.flipLast tag ≠ tag := by
  intro heq
  have hlt : 15 < tag.length := by omega
  have hbyte := congrArg (fun l : List Byte => l.getD 15 0) heq
  simp only [WireRecord.flipLast, List.getD_eq_getElem?_getD, List.getElem?_set_self hlt,
    Option.getD_some] at hbyte
  exact xor_one_ne _ hbyte

/-- Opening the tampered record: four calls succeed, the updates still write the plaintext, and the
final refuses it.  On any context, with the key or the nonce first, in any chunks. -/
def WireRecord.Refused (r : WireRecord) : Prop :=
  ∀ (B : Build) (_ : B.ComparesEqual) (a : AsconAEAD128) (keyFirst : Bool)
    (chunks : List (List Byte)) (T : Vector Byte 16), chunks ≠ [] →
    chunks.flatten = r.sealing.1 → T.toList = flipLast r.sealing.2 →
    ∃ outs : List (List Byte), outs.flatten = r.pt ∧
      (run (Wolf.step B) a (decryptCalls keyFirst r.key r.nonce r.aad chunks T)).2 =
        recordReplies outs (.fail .asconAuthE)

theorem WireRecord.refused (r : WireRecord) : r.Refused := by
  intro B hB a keyFirst chunks T hne hchunks hT
  obtain ⟨outs, hrun, hflat, -⟩ := Wolf.run_decrypt B a keyFirst r.key r.nonce r.aad hne T
  have hopen : aeadDecrypt (loadLE 128 r.key.toList) (loadLE 128 r.nonce.toList) r.aad
      r.sealing.1 = (r.pt, r.sealing.2) := openFrom_sealFrom ..
  rw [hchunks, hopen] at hrun hflat
  have hcmp : B.constantCompare T.toList r.sealing.2 ≠ 0 := by
    rw [Ne, hB, hT]
    exact flipLast_ne r.length_sealing_snd
  rw [if_neg hcmp] at hrun
  exact ⟨outs, hflat, hrun⟩

/-! ### A flood -/

/-- What a flood sends of each datagram, the draw being without a meaning. -/
theorem toServer_flood {cfg : Config} (hmode : cfg.mode = .flood) (evs : List Event) :
    toServer (outputs cfg evs) =
      (clientDatagrams cfg evs).map fun d => if isApp d = true then corruptTags d else d := by
  obtain ⟨-, hsent, -⟩ := run_link_from (Or.inr (Or.inr (Or.inr hmode)) : cfg.mode.IsLink) evs {}
  have hlink : ∀ d : List Byte × Bool, link .flood d =
      some (if isApp d.1 = true then corruptTags d.1 else d.1) := by
    intro d
    simp only [link]
    split <;> rfl
  have hfst : clientDatagrams cfg evs = (clientEvents cfg evs).map Prod.fst := by
    rw [clientDatagrams, clientEvents, List.map_filterMap]
    congr 1
    funext e
    cases e with
    | timeout => rfl
    | received src bytes lossDraw =>
      simp only
      split <;> rfl
  rw [outputs, hsent, hmode, hfst, List.map_map]
  exact (List.filterMap_congr fun d _ => hlink d).trans (congrFun List.filterMap_eq_map _)

/-- **No record survives a flood.**  Where the application datagrams of a run are records that were
sealed with wolfSSL, one or many in a datagram and under any keys and nonces: the server gets every
datagram once and in order, those with other records as they are, those with application records with
the same headers and ciphertexts, and refuses every one of these records. -/
theorem flood_refused {cfg : Config} (hmode : cfg.mode = .flood) {evs : List Event}
    (h : ∀ d ∈ clientDatagrams cfg evs, isApp d = true →
      ∃ rs : List WireRecord, d = rs.flatMap WireRecord.wire) :
    List.Forall₂ (fun d sent => (isApp d = false → sent = d) ∧ (isApp d = true →
        ∃ rs : List WireRecord, d = rs.flatMap WireRecord.wire ∧
          sent = rs.flatMap WireRecord.tampered ∧ ∀ r ∈ rs, r.Refused))
      (clientDatagrams cfg evs) (toServer (outputs cfg evs)) := by
  rw [toServer_flood hmode, List.forall₂_map_right_iff, List.forall₂_same]
  intro d hd
  refine ⟨fun happ => if_neg (by simp [happ]), ?_⟩
  intro happ
  obtain ⟨rs, rfl⟩ := h d hd happ
  exact ⟨rs, rfl, by rw [if_pos happ, corruptTags_wire], fun r _ => r.refused⟩

/-- Two bytes in an application record. -/
def floodRecord : WireRecord where
  flags := #v[0x2f, 0, 1]
  key := Vector.replicate 16 1#8
  nonce := Vector.replicate 16 2#8
  aad := []
  pt := [1, 2]
  fits := by decide

theorem flood_refused_record :
    let cfg : Config := ⟨.flood, 11111, 1⟩
    let evs : List Event := [.received ⟨[127, 0, 0, 1], 50000⟩ floodRecord.wire false]
    List.Forall₂ (fun d sent => (isApp d = false → sent = d) ∧ (isApp d = true →
        ∃ rs : List WireRecord, d = rs.flatMap WireRecord.wire ∧
          sent = rs.flatMap WireRecord.tampered ∧ ∀ r ∈ rs, r.Refused))
      [floodRecord.wire] (toServer (outputs cfg evs)) := by
  intro cfg evs
  have hport : (⟨[127, 0, 0, 1], 50000⟩ : EndPoint).port ≠ cfg.serverPort := by decide
  have hds : clientDatagrams cfg evs = [floodRecord.wire] :=
    clientDatagrams_client hport floodRecord.wire false
  rw [← hds]
  refine flood_refused rfl fun d hd _ => ⟨[floodRecord], ?_⟩
  rw [hds, List.mem_singleton] at hd
  rw [hd, List.flatMap_singleton]

end AsconDtls.Tools
