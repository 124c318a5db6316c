import AsconDtls.Tools.CorruptTarget
import AsconDtls.Tools.TamperedRecords

/-!
# What the server makes of a tamper run

In mode tamper the proxy corrupts the datagrams with the identity that is the target when they
come.  `forwarded` is what a run of a corrupting mode sends, datagram by datagram and with the
datagrams so far in view (`run_forwarded`).

`tamper_verdicts`: where the application datagrams are records sealed with wolfSSL, the server
refuses every record of the datagrams that hit the target, and opens every record of the others to
its plaintext.
-/

namespace AsconDtls.Tools

open LittleEndian
open Run (run run_cons run_nil)
open Wolf (AsconAEAD128 Build Reply decryptCalls recordReplies)

/-! ### What is forwarded -/

/-- The datagrams that leave the proxy for those in the second list, which come after `ds`.  Nothing
follows an exception. -/
def forwarded (cfg : Config) : List (List Byte) → List (List Byte) → List (List Byte)
  | _, [] => []
  | ds, d :: rest =>
    match treated cfg ds d with
    | none => []
    | some out => out :: forwarded cfg (ds ++ [d]) rest

/-- A run of a corrupting mode, from counters that have seen `ds`. -/
theorem run_forwarded {cfg : Config} (hmode : cfg.mode.corrupts = true) (evs : List Event)
    {ds : List (List Byte)} {p : Proxy} (h : Counted cfg ds p) :
    toServer (run (step cfg) (some p) evs).2 = forwarded cfg ds (clientDatagrams cfg evs) := by
  induction evs generalizing ds p with
  | nil => rfl
  | cons e evs ih =>
    rw [run_cons, step, toServer_cons, clientDatagrams_cons]
    rcases clientDatagrams_single cfg e with hc | ⟨src, d, lossDraw, rfl, hport, hc⟩
    · obtain ⟨n, hstate, hsent, -⟩ := iterate_other p hc
      rw [hc, hsent, hstate, List.nil_append, List.nil_append]
      exact ih ⟨h.seen, h.distinctCount, h.targetId⟩
    · obtain ⟨⟨p', hstate, hcounted⟩, hsent⟩ := iterate_counted hmode h hport d lossDraw
      rw [hc, hsent, hstate, List.singleton_append, forwarded]
      cases treated cfg ds d with
      | none =>
        rw [Option.map_none, run_ended]
        rfl
      | some out =>
        rw [Option.map_some, Option.toList_some, List.singleton_append, ih hcounted]

/-- The script goes on as long as no datagram makes it throw. -/
theorem run_alive {cfg : Config} (hmode : cfg.mode.corrupts = true)
    (htreat : ∀ ds d, (treated cfg ds d).isSome = true) (evs : List Event)
    {ds : List (List Byte)} {p : Proxy} (h : Counted cfg ds p) :
    (run (step cfg) (some p) evs).1.isSome = true := by
  induction evs generalizing ds p with
  | nil => rfl
  | cons e evs ih =>
    rw [run_cons, step]
    rcases clientDatagrams_single cfg e with hc | ⟨src, d, lossDraw, rfl, hport, -⟩
    · obtain ⟨n, hstate, -⟩ := iterate_other p hc
      rw [hstate]
      exact ih ⟨h.seen, h.distinctCount, h.targetId⟩
    · obtain ⟨⟨p', hstate, hcounted⟩, -⟩ := iterate_counted hmode h hport d lossDraw
      obtain ⟨out, hout⟩ := Option.isSome_iff_exists.1 (htreat ds d)
      rw [hstate, hout]
      exact ih hcounted

/-- Each datagram leaves in its own place. -/
theorem forwarded_getElem? {cfg : Config} (htreat : ∀ ds d, (treated cfg ds d).isSome = true)
    (rest : List (List Byte)) (ds : List (List Byte)) :
    (forwarded cfg ds rest).length = rest.length ∧
      ∀ pre d post, rest = pre ++ d :: post →
        (forwarded cfg ds rest)[pre.length]? = treated cfg (ds ++ pre) d := by
  induction rest generalizing ds with
  | nil =>
    refine ⟨rfl, fun pre d post hsplit => ?_⟩
    exact absurd hsplit.symm (List.append_ne_nil_of_right_ne_nil pre (List.cons_ne_nil d post))
  | cons d rest ih =>
    obtain ⟨hlen, hget⟩ := ih (ds ++ [d])
    obtain ⟨out, hout⟩ := Option.isSome_iff_exists.1 (htreat ds d)
    have hcons : forwarded cfg ds (d :: rest) = out :: forwarded cfg (ds ++ [d]) rest := by
      rw [forwarded, hout]
    rw [hcons]
    refine ⟨by rw [List.length_cons, hlen, List.length_cons], fun pre d' post hsplit => ?_⟩
    cases pre with
    | nil =>
      obtain ⟨rfl, -⟩ := List.cons.inj hsplit
      rw [List.append_nil, hout]
      rfl
    | cons m pre =>
      rw [List.cons_append] at hsplit
      obtain ⟨rfl, hrest⟩ := List.cons.inj hsplit
      rw [List.length_cons, List.getElem?_cons_succ, hget pre d' post hrest, List.append_assoc]
      rfl

/-- The walk over the tags never throws. -/
theorem treated_tamper {cfg : Config} (hmode : cfg.mode = .tamper) (ds : List (List Byte))
    (d : List Byte) :
    treated cfg ds d =
      some (if isApp d = true ∧ target cfg (ds ++ [d]) = some (recId d) then corruptTags d else d) := by
  rw [treated, hmode]
  split <;> rfl

/-! ### The server's verdicts -/

/-- Opening the record as it was sealed: every call succeeds, and the updates write the plaintext.
On any context, with the key or the nonce first, in any chunks. -/
def WireRecord.Opened (r : WireRecord) : Prop :=
  ∀ (B : Build) (_ : B.ComparesEqual) (a : AsconAEAD128) (keyFirst : Bool)
    (chunks : List (List Byte)) (T : Vector Byte 16), chunks ≠ [] →
    chunks.flatten = r.sealing.1 → T.toList = r.sealing.2 →
    ∃ outs : List (List Byte), outs.flatten = r.pt ∧
      (run (Wolf.step B) a (decryptCalls keyFirst r.key r.nonce r.aad chunks T)).2 =
        recordReplies outs (.fail .ok)

theorem WireRecord.opened (r : WireRecord) : r.Opened := by
  intro B hB a keyFirst chunks T hne hchunks hT
  obtain ⟨outs, hrun, hflat, -⟩ := Wolf.run_decrypt B a keyFirst r.key r.nonce r.aad hne T
  have hopen : aeadDecrypt (loadLE 128 r.key.toList) (loadLE 128 r.nonce.toList) r.aad
      r.sealing.1 = (r.pt, r.sealing.2) := openFrom_sealFrom ..
  rw [hchunks, hopen] at hrun hflat
  have hcmp : B.constantCompare T.toList r.sealing.2 = 0 := by
    rw [hB]
    exact hT
  rw [if_pos hcmp] at hrun
  exact ⟨outs, hflat, hrun⟩

/-- What leaves for a datagram, and what the server makes of it. -/
def Verdict (hit : Prop) (d out : List Byte) : Prop :=
  (isApp d = false → out = d) ∧
    (isApp d = true → ∃ rs : List WireRecord, d = rs.flatMap WireRecord.wire ∧
      (hit → out = rs.flatMap WireRecord.tampered ∧ ∀ r ∈ rs, r.Refused) ∧
      (¬ hit → out = d ∧ ∀ r ∈ rs, r.Opened))

/-- **The verdicts of a tamper run.**  The script never ends, every datagram of the client leaves
once and in order, and an application datagram is refused record by record exactly if its identity
is that of the last datagram that came while N identities were known, itself included; the records
of every other one open. -/
theorem tamper_verdicts {cfg : Config} (hmode : cfg.mode = .tamper) {evs : List Event}
    (h : ∀ d ∈ clientDatagrams cfg evs, isApp d = true →
      ∃ rs : List WireRecord, d = rs.flatMap WireRecord.wire) :
    (run (step cfg) (some {}) evs).1.isSome = true ∧
      (toServer (outputs cfg evs)).length = (clientDatagrams cfg evs).length ∧
      ∀ pre d post, clientDatagrams cfg evs = pre ++ d :: post →
        ∃ out, (toServer (outputs cfg evs))[pre.length]? = some out ∧
          Verdict (target cfg (pre ++ [d]) = some (recId d)) d out := by
  have hcorrupts : cfg.mode.corrupts = true := by
    rw [hmode]
    rfl
  have htreat : ∀ ds d, (treated cfg ds d).isSome = true := by
    intro ds d
    rw [treated_tamper hmode]
    rfl
  have hsent : toServer (outputs cfg evs) = forwarded cfg [] (clientDatagrams cfg evs) :=
    run_forwarded hcorrupts evs (counted_start cfg)
  obtain ⟨hlen, hget⟩ := forwarded_getElem? htreat (clientDatagrams cfg evs) []
  rw [hsent]
  refine ⟨run_alive hcorrupts htreat evs (counted_start cfg), hlen, fun pre d post hsplit => ?_⟩
  have hout := hget pre d post hsplit
  rw [List.nil_append, treated_tamper hmode] at hout
  refine ⟨_, hout, fun happ => if_neg (by simp [happ]), fun happ => ?_⟩
  obtain ⟨rs, hrs⟩ := h d (by simp [hsplit]) happ
  refine ⟨rs, hrs, fun hhit => ?_, fun hmiss => ?_⟩
  · rw [if_pos ⟨happ, hhit⟩, hrs, corruptTags_wire]
    exact ⟨rfl, fun r _ => r.refused⟩
  · rw [if_neg fun hc => hmiss hc.2]
    exact ⟨rfl, fun r _ => r.opened⟩

/-- One record that is the first, and comes twice. -/
theorem tamper_verdicts_first :
    let cfg : Config := ⟨.tamper, 11111, 1⟩
    let evs : List Event := [.received ⟨[127, 0, 0, 1], 50000⟩ floodRecord.wire false,
      .received ⟨[127, 0, 0, 1], 50000⟩ floodRecord.wire false]
    (toServer (outputs cfg evs)).length = 2 ∧
      ∃ out, (toServer (outputs cfg evs))[1]? = some out ∧
        Verdict (target cfg [floodRecord.wire, floodRecord.wire] = some (recId floodRecord.wire))
          floodRecord.wire out := by
  intro cfg evs
  have hport : (⟨[127, 0, 0, 1], 50000⟩ : EndPoint).port ≠ cfg.serverPort := by decide
  have hds : clientDatagrams cfg evs = [floodRecord.wire, floodRecord.wire] := by
    rw [clientDatagrams_cons, clientDatagrams_client hport]
    rfl
  have h : ∀ d ∈ clientDatagrams cfg evs, isApp d = true →
      ∃ rs : List WireRecord, d = rs.flatMap WireRecord.wire := by
    intro d hd _
    refine ⟨[floodRecord], ?_⟩
    rw [hds, List.mem_cons, List.mem_singleton, or_self] at hd
    rw [hd, List.flatMap_singleton]
  have hmode : cfg.mode = .tamper := rfl
  obtain ⟨-, hlen, hverdict⟩ := tamper_verdicts hmode h
  rw [hds] at hlen
  exact ⟨hlen, hverdict [floodRecord.wire] floodRecord.wire [] hds⟩

end AsconDtls.Tools
