import AsconDtls.Lib.Channel
import AsconDtls.Wolf.Stream

/-!
# The record channel over the wolfSSL AEAD

A sender and a receiver run `encryptCalls` and `decryptCalls` on contexts of their own, and
a record number mask is drawn from a key of its own.  The attacker has all three.

`robust_channel` is the composition that `channel_bound` in `robust_channels.v` takes from its
hypotheses `Hhybrid` and `Hchannel`, with the code in place of the channel: the attempts to
decrypt cost one single forgery each, the rest is confidentiality, and the masks cost
nothing.
-/

namespace AsconDtls.Formal

open LittleEndian OracleGame FinDist Wolf
open Run (run run_cons run_nil)

/-- Nonce and associated data. -/
abbrev Header := Vector Byte 16 × List Byte

/-- Ciphertext and tag. -/
abbrev Sealed := List Byte × Vector Byte 16

/-- `byte tag[16]` after the bytes are copied in. -/
def tagBuffer (out : List Byte) : Vector Byte 16 := Vector.ofFn fun i => out.getD i 0

theorem toList_tagBuffer {out : List Byte} (h : out.length = 16) : (tagBuffer out).toList = out := by
  apply List.ext_getElem
  · rw [Vector.length_toList, h]
  · intro i hi hi'
    simp [tagBuffer, List.getElem?_eq_getElem hi']

/-- Ascon-AEAD128 as a scheme. -/
def asconScheme : Channel.Scheme (Vector Byte 16) Header (List Byte) Sealed where
  encrypt key h p :=
    let r := aeadEncrypt (loadLE 128 key.toList) (loadLE 128 h.1.toList) h.2 p
    (r.1, tagBuffer r.2)
  decrypt key h c :=
    let r := aeadDecrypt (loadLE 128 key.toList) (loadLE 128 h.1.toList) h.2 c.1
    if c.2.toList = r.2 then some r.1 else none
  decrypt_encrypt key h p := by
    have hopen := openFrom_sealFrom (loadLE 128 key.toList)
      (aeadStart (loadLE 128 key.toList) (loadLE 128 h.1.toList) h.2) p
    have htag := toList_tagBuffer (length_aeadTag (loadLE 128 key.toList) (encryptMachine.feed
      (aeadStart (loadLE 128 key.toList) (loadLE 128 h.1.toList) h.2, 0) p).1)
    simp only [aeadDecrypt, aeadEncrypt, hopen]
    exact if_pos htag

/-! ### The parties -/

/-- How a party makes its calls: key or nonce first, and the data cut into updates. -/
structure Driver where
  keyFirst : Bool
  cut : Header → List Byte → List (List Byte)
  cut_ne_nil : ∀ h bs, cut h bs ≠ []
  flatten_cut : ∀ h bs, (cut h bs).flatten = bs

/-- What the calls before the last wrote. -/
def written (rs : List Reply) : List Byte := rs.dropLast.flatMap Reply.out

def lastReply (rs : List Reply) : Reply := rs.getLastD (.ok [])

theorem written_recordReplies (outs : List (List Byte)) (f : Reply) :
    written (recordReplies outs f) = outs.flatten := by
  have hok : List.flatMap Reply.out (outs.map .ok) = outs.flatten := by
    rw [List.flatMap_map, List.flatten_eq_flatMap]
    rfl
  rw [written, recordReplies, List.dropLast_concat, List.flatMap_append, hok]
  rfl

theorem lastReply_recordReplies (outs : List (List Byte)) (f : Reply) :
    lastReply (recordReplies outs f) = f := by
  rw [lastReply, recordReplies, List.getLastD_concat]

section

variable (B : Build) (D : Driver) (key : Vector Byte 16) (h : Header) (a : AsconAEAD128)

def sealRecord (p : List Byte) : AsconAEAD128 × Sealed :=
  let r := run (step B) a (encryptCalls D.keyFirst key h.1 h.2 (D.cut h p))
  (r.1, written r.2, tagBuffer (lastReply r.2).out)

/-- The plaintext is the updates' output, and is used only when the final returns 0. -/
def openRecord (c : Sealed) : AsconAEAD128 × Option (List Byte) :=
  let r := run (step B) a (decryptCalls D.keyFirst key h.1 h.2 (D.cut h c.1) c.2)
  (r.1, if (lastReply r.2).ret = .ok then some (written r.2) else none)

/-- The mask of a ciphertext, with the key for record numbers. -/
def maskRecord (ct : Vector Byte 16) : AsconAEAD128 × List Byte :=
  let r := run (step B) a [.init, .setKey (some key), .mask (some ct) .ptr]
  (r.1, (lastReply r.2).out)

theorem sealRecord_snd (p : List Byte) :
    (sealRecord B D key h a p).2 = asconScheme.encrypt key h p := by
  obtain ⟨outs, hrun, hflat, -⟩ :=
    run_encrypt B a D.keyFirst key h.1 h.2 (D.cut_ne_nil h p)
  rw [D.flatten_cut] at hrun hflat
  simp only [sealRecord, hrun, written_recordReplies, lastReply_recordReplies, hflat]
  rfl

theorem openRecord_snd (hB : B.ComparesEqual) (c : Sealed) :
    (openRecord B D key h a c).2 = asconScheme.decrypt key h c := by
  obtain ⟨outs, hrun, hflat, -⟩ :=
    run_decrypt B a D.keyFirst key h.1 h.2 (D.cut_ne_nil h c.1) c.2
  rw [D.flatten_cut] at hrun hflat
  simp only [openRecord, hrun, written_recordReplies, lastReply_recordReplies, hflat]
  exact if_congr (ret_eq_ok.trans (hB _ _)) rfl rfl

/-- The DTLS mask under `key`. -/
def dtlsMask (key ct : Vector Byte 16) : List Byte :=
  MaskPrf.maskPrfDerive key ct (MaskPrf.domsepTable .dtls)

/-- A key that has been copied in is read back. -/
theorem keyBytes_eq (b : AsconAEAD128) {key : Vector Byte 16} (hb : b.key = loadLE 128 key.toList) :
    b.keyBytes = key := by
  apply Vector.ext
  intro i hi
  have hbyte : byteAt b.key i = key.toList[i]?.getD 0#8 := by
    rw [hb, byteAt_loadLE _ (by omega)]
  simp [AsconAEAD128.keyBytes, hbyte, Vector.getElem?_eq_getElem hi]

theorem maskRecord_snd (ct : Vector Byte 16) : (maskRecord B key a ct).2 = dtlsMask key ct := by
  have hmask : ∀ b : AsconAEAD128, b.keySet = true → b.key = loadLE 128 key.toList →
      b.mask (some ct) .ptr = (b, .ok (dtlsMask key ct)) := by
    intro b hset hb
    simp only [AsconAEAD128.mask, dtlsMask, hset, keyBytes_eq b hb, Bool.not_true, Bool.false_eq_true,
      if_false]
  simp only [maskRecord, run_cons, run_nil, step, setKey_fresh a.init.1 key rfl]
  rw [hmask _ rfl rfl]
  rfl

end

/-! ### The channel -/

/-- The attacker's queries: the channel on the left, masks of ciphertexts on the right. -/
abbrev RecordAdv := Adv (Channel.Query Header (List Byte) Sealed ⊕ Vector Byte 16)
  (Channel.Answer (List Byte) Sealed ⊕ List Byte)

/-- At most `q` attempts to decrypt; plaintexts and masks are free. -/
abbrev RecordAdv.AttemptsAtMost (A : RecordAdv) (q : Nat) : Prop :=
  A.AtMostOf (Sum.elim Channel.Query.isDecrypt fun _ => false) q

/-- The libraries and drivers of a sender and a receiver. -/
structure Parties where
  sender : Build × Driver
  receiver : Build × Driver
  masker : Build
  comparesEqual : receiver.1.ComparesEqual

/-- The contexts between records. -/
structure Contexts where
  sender : AsconAEAD128
  receiver : AsconAEAD128
  masker : AsconAEAD128

section

variable (P : Parties) (key : Vector Byte 16)

/-- Sealing alone. -/
def wolfSealing : Oracle (Header × List Byte) Sealed AsconAEAD128 := fun x a =>
  let r := sealRecord P.sender.1 P.sender.2 key x.1 a x.2
  pure (r.2, r.1)

/-- Sealing and opening. -/
def wolfRecords : Oracle (Channel.Query Header (List Byte) Sealed)
    (Channel.Answer (List Byte) Sealed) Contexts
  | .encrypt h p, m =>
    let r := sealRecord P.sender.1 P.sender.2 key h m.sender p
    pure (.encrypted r.2, { m with sender := r.1 })
  | .decrypt h c, m =>
    let r := openRecord P.receiver.1 P.receiver.2 key h m.receiver c
    pure (.decrypted r.2, { m with receiver := r.1 })

/-- Sealing, opening, and masks under a key of their own. -/
def wolfChannel (snKey : Vector Byte 16) :
    Oracle (Channel.Query Header (List Byte) Sealed ⊕ Vector Byte 16)
      (Channel.Answer (List Byte) Sealed ⊕ List Byte) Contexts
  | .inl x, m => do
    let (y, m) ← wolfRecords P key x m
    pure (.inl y, m)
  | .inr ct, m =>
    let r := maskRecord P.masker snKey m.masker ct
    pure (.inr r.2, { m with masker := r.1 })

theorem wolfSealing_answers : Answers (wolfSealing P key) (Channel.encrypting asconScheme key)
    fun _ _ => True := by
  rintro ⟨h, p⟩ a ⟨⟩ -
  refine ⟨_, _, (), certain_pure _, ?_, trivial⟩
  rw [sealRecord_snd]
  exact certain_pure _

theorem wolfRecords_answers : Answers (wolfRecords P key) (Channel.real asconScheme key)
    fun _ _ => True := by
  rintro x m ⟨⟩ -
  cases x with
  | encrypt h p =>
    refine ⟨_, _, (), certain_pure _, ?_, trivial⟩
    rw [sealRecord_snd]
    exact certain_pure _
  | decrypt h c =>
    refine ⟨_, _, (), certain_pure _, ?_, trivial⟩
    rw [openRecord_snd _ _ _ _ _ P.comparesEqual]
    exact certain_pure _

theorem wolfChannel_answers (snKey : Vector Byte 16) : Answers (wolfChannel P key snKey)
    (beside (dtlsMask snKey) (Channel.real asconScheme key)) fun _ _ => True := by
  rintro x m ⟨⟩ -
  cases x with
  | inl x =>
    obtain ⟨y, n, ⟨⟩, hwolf, hreal, -⟩ := wolfRecords_answers P key x m () trivial
    exact ⟨.inl y, n, (), hwolf.bind (certain_pure _), hreal.bind (certain_pure _), trivial⟩
  | inr ct =>
    refine ⟨_, _, (), certain_pure _, ?_, trivial⟩
    rw [maskRecord_snd]
    exact certain_pure _

end

/-- **The channel is as good as its single forgeries and its confidentiality.**  For every attacker
with at most `q` attempts to decrypt, all mask keys and all starting contexts: the channel that runs
the code against the one in which `O` encrypts and nothing else is accepted.  The reductions make at
most one attempt each, or none, and answer the masks themselves. -/
theorem robust_channel {μ : Type} (P : Parties) (dkey dsn : FinDist (Vector Byte 16))
    {A : RecordAdv} {q : Nat} (hA : A.AttemptsAtMost q) (O : Oracle (Header × List Byte) Sealed μ)
    (m : μ) (a : Contexts) :
    (∀ sn i, Channel.AttemptsAtMost (Channel.attempt i (A.answer (dtlsMask sn)) []) 1) ∧
    |(dsn.E fun sn => dkey.E fun key => (A.run (wolfChannel P key sn) a).prob true) -
        (dsn.E fun sn => (A.run (beside (dtlsMask sn) (Channel.closed O)) (m, [])).prob true)| ≤
      (dsn.E fun sn => ∑ i ∈ Finset.range q, dkey.E fun key =>
        (Channel.forges (wolfRecords P key) (Channel.attempt i (A.answer (dtlsMask sn)) []) a
          []).prob true) +
      dsn.E fun sn =>
        |(dkey.E fun key => ((Channel.encryptOnly (A.answer (dtlsMask sn)) []).run
            (wolfSealing P key) a.sender).prob true) -
          ((Channel.encryptOnly (A.answer (dtlsMask sn)) []).run O m).prob true| := by
  refine ⟨fun sn i => Channel.attempt_attemptsAtMost i _ [], ?_⟩
  rw [← E_add]
  apply abs_E_sub_le
  intro sn _
  have hreal : ∀ key, (A.run (wolfChannel P key sn) a).prob true =
      ((A.answer (dtlsMask sn)).run (Channel.real asconScheme key) ()).prob true := by
    intro key
    rw [(wolfChannel_answers P key sn).run_eq trivial, prob_run_beside]
  have hforge : ∀ i key,
      (Channel.forges (wolfRecords P key) (Channel.attempt i (A.answer (dtlsMask sn)) []) a
        []).prob true =
      (Channel.forges (Channel.real asconScheme key)
        (Channel.attempt i (A.answer (dtlsMask sn)) []) () []).prob true := fun i key =>
    Channel.forges_eq (wolfRecords_answers P key) trivial _ []
  have hconf : ∀ key, ((Channel.encryptOnly (A.answer (dtlsMask sn)) []).run
      (wolfSealing P key) a.sender).prob true =
      ((Channel.encryptOnly (A.answer (dtlsMask sn)) []).run
        (Channel.encrypting asconScheme key) ()).prob true := fun key =>
    (wolfSealing_answers P key).run_eq trivial _
  simp only [hreal, hforge, hconf, prob_run_beside]
  exact Channel.channel_le dkey (hA.answer (dtlsMask sn)) O m

/-- One byte is sealed; its ciphertext with another tag is opened. -/
def tagGuess (h : Header) : RecordAdv :=
  .query (.inl (.encrypt h [0#8])) fun
    | .inl (.encrypted c) => .query (.inl (.decrypt h (c.1, Vector.replicate 16 0#8))) fun
      | .inl (.decrypted (some _)) => .ret true
      | _ => .ret false
    | _ => .ret false

theorem robust_channel_tagGuess :
    let B : Build := ⟨.looped, fun x y => if x = y then 0 else 1⟩
    let D : Driver := ⟨true, fun _ bs => [bs], fun _ _ => List.cons_ne_nil _ _, fun _ _ => by simp⟩
    let P : Parties := ⟨(B, D), (B, D), B, fun x y => by by_cases h : x = y <;> simp [B, h]⟩
    let a : Contexts := ⟨.zero, .zero, .zero⟩
    let key : Vector Byte 16 := Vector.replicate 16 1#8
    let A := tagGuess (key, [])
    let O : Oracle (Header × List Byte) Sealed Unit := fun x m =>
      pure ((x.2, Vector.replicate 16 0#8), m)
    |((pure key : FinDist _).E fun sn => (pure key : FinDist _).E fun k =>
          (A.run (wolfChannel P k sn) a).prob true) -
        ((pure key : FinDist _).E fun sn =>
          (A.run (beside (dtlsMask sn) (Channel.closed O)) ((), [])).prob true)| ≤
      ((pure key : FinDist _).E fun sn => ∑ i ∈ Finset.range 1, (pure key : FinDist _).E fun k =>
        (Channel.forges (wolfRecords P k) (Channel.attempt i (A.answer (dtlsMask sn)) []) a
          []).prob true) +
      (pure key : FinDist _).E fun sn =>
        |((pure key : FinDist _).E fun k => ((Channel.encryptOnly (A.answer (dtlsMask sn)) []).run
            (wolfSealing P k) a.sender).prob true) -
          ((Channel.encryptOnly (A.answer (dtlsMask sn)) []).run O ()).prob true| := by
  intro B D P a key A O
  have hA : A.AttemptsAtMost 1 := by
    intro y
    match y with
    | .inl (.encrypted _) =>
      intro z
      match z with
      | .inl (.decrypted (some _)) => trivial
      | .inl (.decrypted none) => trivial
      | .inl (.encrypted _) => trivial
      | .inr _ => trivial
    | .inl (.decrypted _) => trivial
    | .inr _ => trivial
  exact (robust_channel P (pure key) (pure key) hA O () a).2

end AsconDtls.Formal
