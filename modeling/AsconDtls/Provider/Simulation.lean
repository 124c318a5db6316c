import AsconDtls.Provider.Record
import AsconDtls.Wolf.Stream

/-!
# The data phases of the two stacks

A wolfSSL context and a provider context with the same key and the same sponge at the
start of the data go through the data together, however each side cuts them: the
contexts stay at the same state and position and write the same bytes, and the finals
agree on the tag, or on the verdict.

* `run_processing`: the core updates of the provider are `feedChunks`.
* `data_phases_agree`: both sides, in both directions.
* `final_without_update`: the wolfSSL final wants an update before it.
-/

namespace AsconDtls.Provider

open LittleEndian
open Duplex (Machine)
open Run (run run_cons run_nil)

/-- Contexts of the two stacks at the start of the data of a record. -/
structure AtData (w : Wolf.AsconAEAD128) (a : Ctx) : Prop where
  keySet : w.keySet = true
  nonceSet : w.nonceSet = true
  adSet : w.adSet = true
  op : w.op = .notSet
  adDone : a.adDone = true
  state : w.state = a.s
  key : w.key = a.key
  wolfLastBlkSz : w.lastBlkSz = 0
  lastBlkSz : a.lastBlkSz = 0

/-- The contexts are at the same point of the same data. -/
def SameSponge (w : Wolf.AsconAEAD128) (a : Ctx) : Prop :=
  w.state = a.s ∧ w.lastBlkSz = a.lastBlkSz ∧ w.key = a.key

/-! ### The provider -/

section Provider

variable {D : Machine AsconState Byte} {bytes : Ctx → Nat → List Byte → Ctx × List Byte}
  {block : Ctx → List Byte → Ctx × List Byte} {a : Ctx} {key tag : BitVec 128} {enc : Bool}
  {c : AsconState × Nat}

/-- **The updates of one direction are `feedChunks`**, and each reports what it was given. -/
theorem run_processing (hD : Absorbs D bytes block) (h : Processing a key enc tag c)
    (hc : c.2 < 16) (chunks : List (List Byte)) :
    let r := run (streamUpdate bytes block) a chunks
    Processing r.1 key enc tag (D.feedChunks c chunks).1 ∧
      r.2.map Prod.fst = (D.feedChunks c chunks).2 ∧ r.2.map Prod.snd = chunks.map List.length := by
  induction chunks generalizing a c with
  | nil => exact ⟨h, rfl, rfl⟩
  | cons bs chunks ih =>
      have hdone : Processing (aadFinalize .ascon a) key enc tag c := by
        rw [aadFinalize_done .ascon h.adDone]
        exact h
      obtain ⟨hproc, hout, htotal⟩ := update_processing hD hdone hc bs
      have hlt : (D.feed c bs).1.2 < 16 := by
        have hfeed := D.feed_lt (c := c) (by rw [hD.rate]; exact hc) bs
        rwa [hD.rate] at hfeed
      obtain ⟨hproc', houts, htotals⟩ := ih hproc hlt
      simp only [run_cons, List.map_cons]
      exact ⟨hproc', by rw [hout, houts]; rfl, by rw [htotal, htotals]⟩

theorem AtData.processing {w : Wolf.AsconAEAD128} (h : AtData w a) :
    Processing a a.key a.enc a.tag (a.s, 0) :=
  ⟨rfl, h.lastBlkSz, rfl, rfl, rfl, h.adDone⟩

end Provider

/-! ### wolfSSL -/

theorem AtData.ready {w : Wolf.AsconAEAD128} {a : Ctx} (h : AtData w a) :
    w = Wolf.ready w.iv a.key .notSet (a.s, 0) := by
  obtain ⟨hkey, hnonce, had, hop, -, hs, hk, hsz, -⟩ := h
  cases w
  simp_all [Wolf.ready]

/-- The outputs of wolfSSL updates. -/
def wolfOutputs (rs : List Wolf.Reply) : List Byte := (rs.map Wolf.Reply.out).flatten

theorem wolfOutputs_ok (outs : List (List Byte)) :
    wolfOutputs (outs.map Wolf.Reply.ok) = outs.flatten := by
  have hout : Wolf.Reply.out ∘ Wolf.Reply.ok = id := rfl
  rw [wolfOutputs, List.map_map, hout, List.map_id]

/-! ### Both -/

/-- What the updates of wolfSSL and those of the provider, `given` chunk by chunk, come to. -/
structure UpdatesAgree (W : Wolf.AsconAEAD128 × List Wolf.Reply)
    (P : Ctx × List (List Byte × Nat)) (given : List (List Byte)) : Prop where
  sponge : SameSponge W.1 P.1
  returned : ∀ r ∈ W.2, r.ret = .ok
  output : wolfOutputs W.2 = (P.2.map Prod.fst).flatten
  reported : P.2.map Prod.snd = given.map List.length

section Both

variable (B : Wolf.Build) {D : Machine AsconState Byte}
  {bytes : Ctx → Nat → List Byte → Ctx × List Byte} {block : Ctx → List Byte → Ctx × List Byte}
  {dir : Wolf.Op} {call : List Byte → Wolf.Call} {w : Wolf.AsconAEAD128} {a : Ctx}
  {chunks chunks' : List (List Byte)}

/-- One direction: where the updates lead on both sides. -/
theorem updates_agree (hD : Absorbs D bytes block)
    (hcall : ∀ iv key op c bs, op = .notSet ∨ op = dir → c.2 < 16 →
      Wolf.step B (Wolf.ready iv key op c) (call bs) =
        (Wolf.ready iv key dir (D.feed c bs).1, .ok (D.feed c bs).2))
    (h : AtData w a) (hne : chunks ≠ []) (hflat : chunks.flatten = chunks'.flatten) :
    let W := run (Wolf.step B) w (chunks.map call)
    let P := run (streamUpdate bytes block) a chunks'
    let c := (D.feed (a.s, 0) chunks.flatten).1
    UpdatesAgree W P chunks' ∧ W.1 = Wolf.ready w.iv a.key dir c ∧
      Processing P.1 a.key a.enc a.tag c := by
  intro W P c
  have hpos : (a.s, 0).2 < 16 := Nat.zero_lt_succ 15
  have hW : W = (Wolf.ready w.iv a.key dir (D.feedChunks (a.s, 0) chunks).1,
      (D.feedChunks (a.s, 0) chunks).2.map .ok) := by
    have hrun := Wolf.run_updates B hD.rate (hcall w.iv a.key) (Or.inl rfl : Wolf.Op.notSet = .notSet ∨ _)
      hpos hne
    rwa [← h.ready] at hrun
  obtain ⟨hproc, houts, htotals⟩ := run_processing hD h.processing hpos chunks'
  have hc := D.feedChunks_flatten (a.s, 0) chunks
  have hc' := D.feedChunks_flatten (a.s, 0) chunks'
  have hstate : (D.feedChunks (a.s, 0) chunks').1 = c := by
    simp only [c, hflat, hc']
  have hstateW : (D.feedChunks (a.s, 0) chunks).1 = c := by
    simp only [c, hc]
  rw [hstate] at hproc
  rw [hstateW] at hW
  refine ⟨⟨⟨?_, ?_, ?_⟩, ?_, ?_, htotals⟩, by rw [hW], hproc⟩
  · rw [hW, hproc.s]
    rfl
  · rw [hW, hproc.lastBlkSz]
    rfl
  · rw [hW, hproc.key]
    rfl
  · intro r hr
    rw [hW] at hr
    obtain ⟨out, -, rfl⟩ := List.mem_map.mp hr
    rfl
  · rw [hflat] at hc
    rw [hW, wolfOutputs_ok, houts]
    exact congrArg Prod.snd (hc.symm.trans hc')

end Both

/-- The context that the final takes is past the associated data. -/
theorem Processing.finalized {a : Ctx} {key tag : BitVec 128} {enc : Bool} {c : AsconState × Nat}
    (h : Processing a key enc tag c) : Processing (aadFinalize .ascon a) key enc tag c := by
  rw [aadFinalize_done .ascon h.adDone]
  exact h

/-- **The data phases agree.**  From equal sponges and keys, for all data and any two ways of
cutting them, one chunk at least on the side of wolfSSL: the updates of either direction
lead to equal sponges and write the same bytes, every update of the provider reports as
many bytes as it was given, the encryption finals give the same tag and the decryption
finals the same verdict on every expected tag. -/
theorem data_phases_agree (B : Wolf.Build) (hB : B.ComparesEqual) {w : Wolf.AsconAEAD128} {a : Ctx}
    (h : AtData w a) {chunks chunks' : List (List Byte)} (hne : chunks ≠ [])
    (hflat : chunks.flatten = chunks'.flatten) :
    (let W := run (Wolf.step B) w (chunks.map fun bs => .encryptUpdate (.ptr bs))
      let P := run encryptUpdate a chunks'
      UpdatesAgree W P chunks' ∧
        (a.enc = true → (final P.1).2 = true ∧
          (Wolf.step B W.1 (.encryptFinal .ptr)).2 = .ok (bytesAt (final P.1).1.tag 0 16))) ∧
    (let W := run (Wolf.step B) w (chunks.map fun bs => .decryptUpdate (.ptr bs))
      let P := run decryptUpdate a chunks'
      UpdatesAgree W P chunks' ∧
        (a.enc = false → ∀ T : Vector Byte 16, a.tag = loadLE 128 T.toList →
          (Wolf.step B W.1 (.decryptFinal (some T))).2 =
            .fail (if (final P.1).2 then .ok else .asconAuthE))) := by
  refine ⟨?_, ?_⟩
  · obtain ⟨hagree, hW, hP⟩ := updates_agree B encrypt_absorbs
      (fun iv key op c bs => Wolf.encryptUpdate_ready B iv key op c bs) h hne hflat
    refine ⟨hagree, ?_⟩
    intro henc
    obtain ⟨-, hsealed, -⟩ := final_processing hP.finalized
    obtain ⟨htag, hone⟩ := hsealed henc
    refine ⟨hone, ?_⟩
    have htagBytes := bytesAt_tagValue a.key (encryptMachine.feed (a.s, 0) chunks.flatten).1
    have hfinal := Wolf.encryptFinal_ready B w.iv a.key
      (encryptMachine.feed (a.s, 0) chunks.flatten).1
    rw [← htagBytes, ← htag, ← hW] at hfinal
    exact congrArg Prod.snd hfinal
  · obtain ⟨hagree, hW, hP⟩ := updates_agree B decrypt_absorbs
      (fun iv key op c bs => Wolf.decryptUpdate_ready B iv key op c bs) h hne hflat
    refine ⟨hagree, ?_⟩
    intro henc T hT
    obtain ⟨-, -, hopened⟩ := final_processing hP.finalized
    have hverdict := hopened henc
    rw [hT, tagValue_eq_iff (by simp)] at hverdict
    have hfinal := Wolf.decryptFinal_ready B w.iv a.key
      (decryptMachine.feed (a.s, 0) chunks.flatten).1 T
    rw [← hW] at hfinal
    refine (congrArg Prod.snd hfinal).trans ?_
    have hcmp := hB T.toList (aeadTag a.key (decryptMachine.feed (a.s, 0) chunks.flatten).1)
    simp only [hcmp, ← hverdict]
    rfl

/-- Seventeen bytes from a state in use: cut at 5 on one side, at the block and after nothing on the
other.  They are encrypted to the same tag, and decrypted with the same verdict on a tag. -/
theorem data_phases_agree_example :
    let B : Wolf.Build := ⟨.looped, fun x y => if x = y then 0 else 1⟩
    let s := AsconState.zero.setS64 0 0x0123456789ABCDEF
    let key : BitVec 128 := 0x0F0E0D0C0B0A09080706050403020100
    let T : Vector Byte 16 := Vector.replicate 16 9#8
    let w := Wolf.ready #v[1, 2] key .notSet (s, 0)
    let a : Ctx := { AsconAead128Ctx.zero with enc := true, adDone := true, s := s, key := key }
    let b : Ctx := { a with enc := false, tag := loadLE 128 T.toList }
    let chunks : List (List Byte) := [List.replicate 5 7, List.replicate 12 7]
    let chunks' : List (List Byte) := [[], List.replicate 16 7, [7]]
    (let W := run (Wolf.step B) w (chunks.map fun bs => .encryptUpdate (.ptr bs))
      let P := run encryptUpdate a chunks'
      UpdatesAgree W P chunks' ∧ (final P.1).2 = true ∧
        (Wolf.step B W.1 (.encryptFinal .ptr)).2 = .ok (bytesAt (final P.1).1.tag 0 16)) ∧
    (let W := run (Wolf.step B) w (chunks.map fun bs => .decryptUpdate (.ptr bs))
      let P := run decryptUpdate b chunks'
      UpdatesAgree W P chunks' ∧ (Wolf.step B W.1 (.decryptFinal (some T))).2 =
        .fail (if (final P.1).2 then .ok else .asconAuthE)) := by
  intro B s key T w a b chunks chunks'
  have hB : B.ComparesEqual := by
    intro x y
    by_cases h : x = y
    · simp [B, h]
    · simp [B, h]
  have ha : AtData w a := ⟨rfl, rfl, rfl, rfl, rfl, rfl, rfl, rfl, rfl⟩
  have hb : AtData w b := ⟨rfl, rfl, rfl, rfl, rfl, rfl, rfl, rfl, rfl⟩
  have hne : chunks ≠ [] := List.cons_ne_nil _ _
  have hflat : chunks.flatten = chunks'.flatten := rfl
  obtain ⟨hsealed, hsealedFinal⟩ := (data_phases_agree B hB ha hne hflat).1
  obtain ⟨hopened, hopenedFinal⟩ := (data_phases_agree B hB hb hne hflat).2
  exact ⟨⟨hsealed, hsealedFinal rfl⟩, hopened, hopenedFinal rfl T rfl⟩

/-- No data in no chunk: the final of wolfSSL refuses, the provider gives a tag. -/
theorem final_without_update :
    ¬ ∀ (B : Wolf.Build) (w : Wolf.AsconAEAD128) (a : Ctx), AtData w a → a.enc = true →
      ∀ chunks chunks' : List (List Byte), chunks.flatten = chunks'.flatten →
        (Wolf.step B (run (Wolf.step B) w (chunks.map fun bs => .encryptUpdate (.ptr bs))).1
            (.encryptFinal .ptr)).2 =
          .ok (bytesAt (final (run encryptUpdate a chunks').1).1.tag 0 16) := by
  intro h
  let B : Wolf.Build := ⟨.looped, fun x y => if x = y then 0 else 1⟩
  let w := Wolf.ready #v[0, 0] 0 .notSet (.zero, 0)
  let a : Ctx := { AsconAead128Ctx.zero with enc := true, adDone := true }
  have hrefused : (Wolf.step B w (.encryptFinal .ptr)).2 = .fail .badStateE := rfl
  have hfinal := h B w a ⟨rfl, rfl, rfl, rfl, rfl, rfl, rfl, rfl, rfl⟩ rfl [] [] rfl
  exact absurd (hrefused.symm.trans hfinal) (fun heq => by cases congrArg Wolf.Reply.ret heq)

end AsconDtls.Provider
