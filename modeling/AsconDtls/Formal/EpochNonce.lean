import AsconDtls.Formal.RobustChannel
import Mathlib.Tactic.FinCases

/-!
# The nonces of an epoch

A record's nonce is the epoch's IV with the record's number added into its last eight
bytes (`build_nonce` in `ascon_record_kat.c`).  Which numbers the records get is not decided
here: `OneRecord` says what the record layer has to see to, that a number is that of one
record, which may be sent again.

`epoch_nonces`: whatever an attacker sends, receives and has masked, the reductions of
`robust_channel` then never encrypt two messages under one nonce, and nothing twice where no record
is sent again.
-/

namespace AsconDtls.Formal

open LittleEndian OracleGame OracleGame.Adv

/-- `build_nonce`. -/
def buildNonce (iv : Vector Byte 16) (seq : BitVec 64) : Vector Byte 16 :=
  (List.finRange 8).foldl (fun nonce i => nonce.set (8 + i.val)
    (nonce[8 + i.val] ^^^ (seq >>> (8 * (7 - i.val))).setWidth 8)) iv

theorem getElem_buildNonce (iv : Vector Byte 16) (seq : BitVec 64) (i : Fin 8) :
    (buildNonce iv seq)[8 + i.val] =
      iv[8 + i.val] ^^^ (seq >>> (8 * (7 - i.val))).setWidth 8 := by
  have hrange : List.finRange 8 = [0, 1, 2, 3, 4, 5, 6, 7] := by decide
  rw [buildNonce, hrange]
  fin_cases i <;> simp

/-- **One IV gives every record number its own nonce.** -/
theorem buildNonce_injective (iv : Vector Byte 16) : Function.Injective (buildNonce iv) := by
  intro s s' h
  have hbyte : ∀ i : Fin 8, (s >>> (8 * (7 - i.val))).setWidth 8 =
      (s' >>> (8 * (7 - i.val))).setWidth 8 := by
    intro i
    have hi := congrArg (fun v : Vector Byte 16 => v[8 + i.val]) h
    simp only [getElem_buildNonce] at hi
    exact (BitVec.xor_right_inj _).1 hi
  apply BitVec.eq_of_getLsbD_eq
  intro j hj
  have hj' := congrArg (fun b : Byte => b.getLsbD (j % 8)) (hbyte ⟨7 - j / 8, by omega⟩)
  have hpos : 8 * (7 - (7 - j / 8)) + j % 8 = j := by omega
  have hlt : j % 8 < 8 := Nat.mod_lt _ (by decide)
  simpa [hpos, hlt] using hj'

/-- What an attacker on an epoch asks for; `seq` is the record's number. -/
inductive EpochQuery
  | send (seq : BitVec 64) (aad pt : List Byte)
  | receive (seq : BitVec 64) (aad : List Byte) (c : Sealed)
  | mask (ct : Vector Byte 16)

def EpochQuery.isReceive : EpochQuery → Bool
  | .receive _ _ _ => true
  | _ => false

/-- A record that is sent: its number, associated data and plaintext. -/
abbrev SentRecord := BitVec 64 × List Byte × List Byte

def EpochQuery.record : EpochQuery → Option SentRecord
  | .send seq aad pt => some (seq, aad, pt)
  | _ => none

abbrev EpochAdv := Adv EpochQuery (Channel.Answer (List Byte) Sealed ⊕ List Byte)

/-- Two sends under one number are the same record, sent again. -/
def OneRecord (r' r : SentRecord) : Prop := r'.1 = r.1 → r' = r

/-- Two encryptions under one nonce are of the same message. -/
def OneMessage (x' x : Header × List Byte) : Prop := x'.1.1 = x.1.1 → x' = x

def OtherNumber (r' r : SentRecord) : Prop := r'.1 ≠ r.1

def OtherNonce (x' x : Header × List Byte) : Prop := x'.1.1 ≠ x.1.1

/-- `run_case` and its inverse: the nonce is built from the number, and the rest passed on. -/
def withNonce (iv : Vector Byte 16) :
    EpochQuery → Channel.Query Header (List Byte) Sealed ⊕ Vector Byte 16
  | .send seq aad pt => .inl (.encrypt (buildNonce iv seq, aad) pt)
  | .receive seq aad c => .inl (.decrypt (buildNonce iv seq, aad) c)
  | .mask ct => .inr ct

/-- What is encrypted for a record. -/
def recordMessage (iv : Vector Byte 16) (r : SentRecord) : Header × List Byte :=
  ((buildNonce iv r.1, r.2.1), r.2.2)

theorem withNonce_message (iv : Vector Byte 16) (x : EpochQuery) :
    Sum.elim Channel.Query.message (fun _ => none) (withNonce iv x) =
      x.record.map (recordMessage iv) := by
  cases x with
  | send seq aad pt => rfl
  | receive seq aad c => rfl
  | mask ct => rfl

theorem withNonce_isDecrypt (iv : Vector Byte 16) (x : EpochQuery) :
    Sum.elim Channel.Query.isDecrypt (fun _ => false) (withNonce iv x) = x.isReceive := by
  cases x with
  | send seq aad pt => rfl
  | receive seq aad c => rfl
  | mask ct => rfl

theorem OneRecord.oneMessage (iv : Vector Byte 16) (r' r : SentRecord) (h : OneRecord r' r) :
    OneMessage (recordMessage iv r') (recordMessage iv r) := by
  intro hnonce
  have hseq : r'.1 = r.1 := buildNonce_injective iv hnonce
  exact congrArg (recordMessage iv) (h hseq)

theorem OtherNumber.otherNonce (iv : Vector Byte 16) (r' r : SentRecord) (h : OtherNumber r' r) :
    OtherNonce (recordMessage iv r') (recordMessage iv r) :=
  fun hnonce => h (buildNonce_injective iv hnonce)

/-- What holds between the records holds between the messages that the reductions encrypt. -/
theorem epoch_pairwise (iv snKey : Vector Byte 16) {R : SentRecord → SentRecord → Prop}
    {R' : Header × List Byte → Header × List Byte → Prop}
    (hR : ∀ r' r, R r' r → R' (recordMessage iv r') (recordMessage iv r)) {A : EpochAdv}
    (hA : A.Pairwise R EpochQuery.record []) :
    let P := (A.map (withNonce iv)).answer (dtlsMask snKey)
    (Channel.encryptOnly P []).Pairwise R' some [] ∧
      ∀ i, (Channel.attempt i P []).Pairwise R' Channel.Query.message [] := by
  intro P
  have hmessage : P.Pairwise R' Channel.Query.message [] :=
    (hA.map (withNonce_message iv) hR).answer (dtlsMask snKey)
  exact ⟨Channel.encryptOnly_pairwise hmessage [], fun i => Channel.attempt_pairwise i hmessage []⟩

/-- **The nonces of an epoch.**  Whatever the attacker sends, receives and has masked, in any
order: where a number is that of one record, neither the program that only encrypts nor any of
those with a single attempt encrypts two messages under one nonce, and `q` datagrams received are
at most `q` attempts.  Where besides no record is sent again, they use no nonce twice. -/
theorem epoch_nonces (iv snKey : Vector Byte 16) {A : EpochAdv} {q : Nat}
    (hrecord : A.Pairwise OneRecord EpochQuery.record [])
    (hrecv : A.AtMostOf EpochQuery.isReceive q) :
    let P := (A.map (withNonce iv)).answer (dtlsMask snKey)
    Channel.AttemptsAtMost P q ∧
      ((Channel.encryptOnly P []).Pairwise OneMessage some [] ∧
        ∀ i, (Channel.attempt i P []).Pairwise OneMessage Channel.Query.message []) ∧
      (A.Pairwise OtherNumber EpochQuery.record [] →
        (Channel.encryptOnly P []).Pairwise OtherNonce some [] ∧
          ∀ i, (Channel.attempt i P []).Pairwise OtherNonce Channel.Query.message []) := by
  intro P
  have hattempts : Channel.AttemptsAtMost P q :=
    (hrecv.map (withNonce_isDecrypt iv)).answer (dtlsMask snKey)
  exact ⟨hattempts, epoch_pairwise iv snKey (OneRecord.oneMessage iv) hrecord,
    epoch_pairwise iv snKey (OtherNumber.otherNonce iv)⟩

/-- One plaintext as records 0 and 1 and record 0 again; then record 1 is received. -/
def sendAgain : EpochAdv :=
  .query (.send 0 [] [7#8]) fun _ => .query (.send 1 [] [7#8]) fun
    | .inl (.encrypted c) => .query (.send 0 [] [7#8]) fun _ =>
        .query (.receive 1 [] c) fun _ => .ret true
    | _ => .ret false

theorem epoch_nonces_sendAgain :
    let iv : Vector Byte 16 := Vector.replicate 16 1#8
    let P := (sendAgain.map (withNonce iv)).answer (dtlsMask iv)
    Channel.AttemptsAtMost P 1 ∧ (Channel.encryptOnly P []).Pairwise OneMessage some [] ∧
      ∀ i, (Channel.attempt i P []).Pairwise OneMessage Channel.Query.message [] := by
  intro iv P
  have hsend : ∀ seq, EpochQuery.record (.send seq [] [7#8]) = some (seq, [], [7#8]) :=
    fun _ => rfl
  have hrecord : sendAgain.Pairwise OneRecord EpochQuery.record [] := by
    refine (pairwise_labelled (hsend 0)).2 ⟨nofun, fun _ => ?_⟩
    refine (pairwise_labelled (hsend 1)).2 ⟨by simp [OneRecord], fun y => ?_⟩
    rcases y with (c | p) | bs
    · -- record 0 again, then what was sent last is received
      refine (pairwise_labelled (hsend 0)).2 ⟨by simp [OneRecord], fun _ => ?_⟩
      exact (pairwise_other rfl).2 fun _ => trivial
    · trivial
    · trivial
  have hrecv : sendAgain.AtMostOf EpochQuery.isReceive 1 := by
    intro _ y
    rcases y with (c | p) | bs
    · exact fun _ _ => trivial
    · trivial
    · trivial
  obtain ⟨hattempts, hmessages, -⟩ := epoch_nonces iv iv hrecord hrecv
  exact ⟨hattempts, hmessages⟩

end AsconDtls.Formal
