import AsconDtls.Tools.WireSound

/-!
# The wire checker, record by record

A payload is whole plaintext records and a rest; a capture is a list of tokens, one for each
record and one for each rest, which ends its datagram.  The checker takes them one at a time, with
`first` and `seen_sh` in between.

* `walk_scan`: what a walk over a datagram comes to.
* `main_scan`: so does the script, over the payloads of a capture.
* `scanPayloads_tokens`: and over its tokens.
-/

namespace AsconDtls.Tools.WireCheck

open LittleEndian

/-! ### The branches -/

/-- What the branch for plaintext records asks of a record, `seen_sh` apart. -/
def plainOk (s : List Byte) : Bool :=
  decide (ver s = [0xfe, 0xfd]) && decide ((record s).length = 13 + rlen s) &&
    !(isHandshake (record s) && !fragmentFits (record s))

/-- What the branch for unified headers asks. -/
def unifiedOk (s : List Byte) (first seenSh : Bool) : Bool :=
  decide (cidBit s = 0) && decide (16 ≤ s.length - hdr s) && (!first || seenSh)

theorem plaintext_toOption (npkt : Nat) (s : List Byte) (seenSh : Bool) :
    (plaintext npkt s seenSh).toOption =
      if !seenSh && plainOk s then some (13 + rlen s, isServerHello (record s)) else none := by
  rw [plaintext, plainOk]
  by_cases hver : ver s = [0xfe, 0xfd]
  · rw [if_neg (not_not.mpr hver), decide_eq_true hver]
    cases seenSh with
    | true => rfl
    | false =>
        rw [if_neg Bool.false_ne_true]
        by_cases hwhole : (record s).length = 13 + rlen s
        · simp only
          rw [if_neg (not_not.mpr hwhole), decide_eq_true hwhole]
          cases isHandshake (record s) && !fragmentFits (record s) with
          | true => rfl
          | false => rfl
        · simp only
          rw [if_pos hwhole, decide_eq_false hwhole]
          rfl
  · rw [if_pos hver, decide_eq_false hver, Bool.false_and, Bool.false_and, Bool.and_false]
    rfl

theorem unified_toOption (npkt : Nat) (s : List Byte) (first seenSh : Bool) :
    (unified npkt s first seenSh).toOption =
      if unifiedOk s first seenSh then some () else none := by
  rw [unified, unifiedOk]
  by_cases hcid : cidBit s = 0
  · rw [if_neg (not_not.mpr hcid), decide_eq_true hcid]
    by_cases hlen : 16 ≤ s.length - hdr s
    · rw [if_neg (Nat.not_lt.mpr hlen), decide_eq_true hlen]
      cases first <;> cases seenSh <;> rfl
    · rw [if_pos (Nat.lt_of_not_le hlen), decide_eq_false hlen]
      rfl
  · rw [if_pos hcid, decide_eq_false hcid, Bool.false_and, Bool.false_and]
    rfl

theorem plaintext_refuses {npkt : Nat} {s : List Byte} {seenSh : Bool} {e : Failure}
    (h : plaintext npkt s seenSh = .error e) : (!seenSh && plainOk s) = false := by
  have hturn := plaintext_toOption npkt s seenSh
  rw [h] at hturn
  split at hturn
  · cases hturn
  · next hok => rwa [Bool.not_eq_true] at hok

theorem plaintext_passes {npkt : Nat} {s : List Byte} {seenSh : Bool} {r : Nat × Bool}
    (h : plaintext npkt s seenSh = .ok r) :
    (!seenSh && plainOk s) = true ∧ r = (13 + rlen s, isServerHello (record s)) := by
  have hturn := plaintext_toOption npkt s seenSh
  rw [h] at hturn
  split at hturn
  · next hok => exact ⟨hok, Option.some.inj hturn⟩
  · cases hturn

/-! ### A datagram -/

/-- The loop over what is left of a datagram, up to what it makes of `seen_sh`. -/
def scanDatagram (s : List Byte) (first seenSh : Bool) : Nat → Option Bool
  | 0 => some seenSh
  | fuel + 1 =>
    if 13 ≤ s.length then
      if isPlain s then
        if !seenSh && plainOk s then
          scanDatagram (s.drop (13 + rlen s)) false (isServerHello (record s)) fuel
        else none
      else if isUnified s then
        if unifiedOk s first seenSh then some seenSh else none
      else none
    else some seenSh

theorem walk_scan (npkt : Nat) (dgram : List Byte) (off : Nat) (first seenSh : Bool)
    (nrec fuel : Nat) :
    (walk npkt dgram off first seenSh nrec fuel).toOption.map Walked.seenSh =
      scanDatagram (dgram.drop off) first seenSh fuel := by
  induction fuel generalizing off first seenSh nrec with
  | zero => rfl
  | succ fuel ih =>
      have hlen : 13 ≤ (dgram.drop off).length ↔ off + 13 ≤ dgram.length := by
        rw [List.length_drop]
        omega
      rw [walk, scanDatagram, if_congr hlen rfl rfl]
      by_cases hle : off + 13 ≤ dgram.length
      · rw [if_pos hle, if_pos hle]
        by_cases hplain : isPlain (dgram.drop off) = true
        · simp only [if_pos hplain]
          cases hturn : plaintext npkt (dgram.drop off) seenSh with
          | error e =>
              rw [plaintext_refuses hturn]
              rfl
          | ok r =>
              obtain ⟨hok, rfl⟩ := plaintext_passes hturn
              have hrest := ih (off + (13 + rlen (dgram.drop off))) false
                (isServerHello (record (dgram.drop off))) (nrec + 1)
              rw [if_pos hok, List.drop_drop, ← hrest]
              simp only
              cases walk npkt dgram (off + (13 + rlen (dgram.drop off))) false
                (isServerHello (record (dgram.drop off))) (nrec + 1) fuel with
              | error e => rfl
              | ok w => rfl
        · simp only [if_neg hplain]
          cases isUnified (dgram.drop off) with
          | false => rfl
          | true =>
              have hstep := unified_toOption npkt (dgram.drop off) first seenSh
              simp only [if_true]
              cases hturn : unified npkt (dgram.drop off) first seenSh with
              | error e =>
                  rw [hturn] at hstep
                  cases hok : unifiedOk (dgram.drop off) first seenSh with
                  | false => rfl
                  | true =>
                      rw [hok] at hstep
                      cases hstep
              | ok u =>
                  rw [hturn] at hstep
                  cases hok : unifiedOk (dgram.drop off) first seenSh with
                  | false =>
                      rw [hok] at hstep
                      cases hstep
                  | true => rfl
      · rw [if_neg hle, if_neg hle]
        rfl

/-- Every turn takes bytes off the datagram: more turns than it has bytes change nothing. -/
theorem scanDatagram_fuel (s : List Byte) (first seenSh : Bool) {fuel fuel' : Nat}
    (h : s.length ≤ fuel) (h' : s.length ≤ fuel') :
    scanDatagram s first seenSh fuel = scanDatagram s first seenSh fuel' := by
  induction fuel generalizing s first seenSh fuel' with
  | zero =>
      have hshort : ¬ 13 ≤ s.length := by omega
      cases fuel' with
      | zero => rfl
      | succ fuel' => rw [scanDatagram, scanDatagram, if_neg hshort]
  | succ fuel ih =>
      cases fuel' with
      | zero => rw [scanDatagram, scanDatagram, if_neg (by omega)]
      | succ fuel' =>
          have hdrop : (s.drop (13 + rlen s)).length ≤ fuel := by
            rw [List.length_drop]
            omega
          have hdrop' : (s.drop (13 + rlen s)).length ≤ fuel' := by
            rw [List.length_drop]
            omega
          rw [scanDatagram, scanDatagram, ih _ _ _ hdrop hdrop']

/-! ### The script -/

/-- The payloads of a capture, the first of them with `first` as it stands. -/
def scanPayloads (first seenSh : Bool) : List (List Byte) → Option Bool
  | [] => some seenSh
  | d :: ds =>
    match scanDatagram d first seenSh d.length with
    | none => none
    | some seenSh => scanPayloads true seenSh ds

theorem checkPackets_scan (c : Check) (npkt : Nat) (pkts : List (List Byte)) :
    (checkPackets c npkt pkts).toOption.map (fun c => (c.seenSh, c.ndgrams)) =
      (scanPayloads true c.seenSh (pkts.filterMap parseUdp)).map
        fun seenSh => (seenSh, c.ndgrams + (pkts.filterMap parseUdp).length) := by
  induction pkts generalizing c npkt with
  | nil => rfl
  | cons pkt pkts ih =>
      rw [checkPackets, checkPacket]
      cases hparse : parseUdp pkt with
      | none =>
          rw [List.filterMap_cons_none hparse]
          exact ih c (npkt + 1)
      | some dgram =>
          have hwalk := walk_scan npkt dgram 0 true c.seenSh c.nrec dgram.length
          rw [List.drop_zero] at hwalk
          rw [List.filterMap_cons_some hparse, scanPayloads, ← hwalk]
          simp only
          cases walk npkt dgram 0 true c.seenSh c.nrec dgram.length with
          | error e => rfl
          | ok w =>
              show (checkPackets _ (npkt + 1) pkts).toOption.map _ = _
              refine (ih _ _).trans ?_
              rw [List.length_cons]
              simp only [Nat.add_assoc, Nat.add_comm 1]
              rfl

/-- The capture has these payloads. -/
def Captures (file : List Byte) (ds : List (List Byte)) : Prop :=
  ∃ pkts, readPcap file = .ok pkts ∧ pkts.filterMap parseUdp = ds

/-- The verdict of the script, and what it leaves in `seen_sh`. -/
theorem main_scan {file : List Byte} {ds : List (List Byte)} (h : Captures file ds) :
    (main file).toOption.map Check.seenSh =
      if ds = [] then none else scanPayloads true false ds := by
  obtain ⟨pkts, hread, rfl⟩ := h
  have hcheck := checkPackets_scan {} 1 pkts
  rw [main, hread]
  simp only
  cases hrun : checkPackets {} 1 pkts with
  | error e =>
      rw [hrun] at hcheck
      simp only [Except.toOption, Option.map_none] at hcheck ⊢
      rw [Option.map_eq_none_iff.mp hcheck.symm, ite_self]
  | ok c =>
      rw [hrun] at hcheck
      obtain ⟨seenSh, hscan, heq⟩ := Option.map_eq_some_iff.mp hcheck.symm
      obtain ⟨rfl, hcount⟩ := Prod.mk.inj heq
      rw [Nat.zero_add] at hcount
      have hpos : 0 < c.ndgrams ↔ ¬ pkts.filterMap parseUdp = [] := by
        rw [← hcount, List.length_pos_iff]
      simp only
      by_cases hnil : pkts.filterMap parseUdp = []
      · rw [if_neg (fun hp => hpos.mp hp hnil), if_pos hnil]
        rfl
      · rw [if_pos (hpos.mpr hnil), if_neg hnil]
        exact hscan.symm

/-! ### Tokens -/

/-- A plaintext record, or the end of a datagram with what stands behind its records. -/
inductive Token
  | record (r : List Byte)
  | close (rest : List Byte)
deriving DecidableEq

/-- No whole plaintext record comes first. -/
def NoRecord (rest : List Byte) : Prop :=
  ¬ (13 ≤ rest.length ∧ isPlain rest = true ∧ (record rest).length = 13 + rlen rest)

def Token.Whole : Token → Prop
  | .record r => PlainRecord r
  | .close rest => NoRecord rest

/-- The payloads that the tokens make up.  The last one needs no end. -/
def payloadsOf : List Token → List (List Byte)
  | [] => []
  | .close rest :: ts => rest :: payloadsOf ts
  | .record r :: ts =>
    match payloadsOf ts with
    | [] => [r]
    | d :: ds => (r ++ d) :: ds

/-- What the checker carries from one record to the next. -/
structure Scan where
  first : Bool
  seenSh : Bool
deriving DecidableEq

/-- What is asked of the rest of a datagram. -/
def restOk (rest : List Byte) (first seenSh : Bool) : Bool :=
  decide (rest.length < 13) || (!isPlain rest && isUnified rest && unifiedOk rest first seenSh)

def scanToken (c : Scan) : Token → Option Scan
  | .record r => if !c.seenSh && plainOk r then some ⟨false, isServerHello r⟩ else none
  | .close rest => if restOk rest c.first c.seenSh then some ⟨true, c.seenSh⟩ else none

def scanTokens (c : Scan) : List Token → Option Scan
  | [] => some c
  | t :: ts =>
    match scanToken c t with
    | none => none
    | some c => scanTokens c ts

theorem scanTokens_append (c : Scan) (ts us : List Token) :
    scanTokens c (ts ++ us) = (scanTokens c ts).bind fun c => scanTokens c us := by
  induction ts generalizing c with
  | nil => rfl
  | cons t ts ih =>
      rw [List.cons_append, scanTokens, scanTokens]
      cases scanToken c t with
      | none => rfl
      | some c => exact ih c

theorem payloadsOf_eq_nil {ts : List Token} : payloadsOf ts = [] ↔ ts = [] := by
  cases ts with
  | nil => simp [payloadsOf]
  | cons t ts =>
      cases t with
      | close rest => simp [payloadsOf]
      | record r =>
          rw [payloadsOf]
          split <;> simp

/-- A whole record is read by itself. -/
theorem scanDatagram_record {r : List Byte} (h : PlainRecord r) (m : List Byte)
    (first seenSh : Bool) :
    scanDatagram (r ++ m) first seenSh (r ++ m).length =
      if !seenSh && plainOk r then scanDatagram m false (isServerHello r) m.length else none := by
  have hlen := h.2
  have hrecord : record r = r := by
    have happ := record_append h []
    rwa [List.append_nil] at happ
  have hver : ver (r ++ m) = ver r := slice_append (by omega)
  have hok : plainOk (r ++ m) = plainOk r := by
    rw [plainOk, plainOk, hver, rlen_append h.thirteen_le, record_append h, hrecord]
  have hdrop : (r ++ m).drop (13 + rlen (r ++ m)) = m := by
    rw [rlen_append h.thirteen_le, ← hlen, List.drop_left]
  obtain ⟨fuel, hfuel⟩ : ∃ fuel, (r ++ m).length = fuel + 1 := by
    rw [List.length_append]
    exact ⟨12 + rlen r + m.length, by omega⟩
  rw [List.length_append] at hfuel
  rw [List.length_append, hfuel, scanDatagram,
    if_pos (by rw [List.length_append]; omega), if_pos (h.isPlain_append m), hok, hdrop,
    record_append h, scanDatagram_fuel m false _ (show m.length ≤ fuel by omega) (Nat.le_refl _)]

theorem scanDatagram_rest {rest : List Byte} (h : NoRecord rest) (first seenSh : Bool) :
    scanDatagram rest first seenSh rest.length =
      if restOk rest first seenSh then some seenSh else none := by
  by_cases hlen : 13 ≤ rest.length
  · obtain ⟨fuel, hfuel⟩ : ∃ fuel, rest.length = fuel + 1 := ⟨rest.length - 1, by omega⟩
    rw [hfuel, scanDatagram, if_pos hlen, restOk, decide_eq_false (by omega), Bool.false_or]
    by_cases hplain : isPlain rest = true
    · have hwhole : ¬ (record rest).length = 13 + rlen rest := fun hw => h ⟨hlen, hplain, hw⟩
      have hok : plainOk rest = false := by
        rw [plainOk, decide_eq_false hwhole, Bool.and_false, Bool.false_and]
      rw [if_pos hplain, hok, hplain, Bool.and_false]
      rfl
    · rw [Bool.not_eq_true] at hplain
      rw [hplain, if_neg Bool.false_ne_true]
      cases isUnified rest <;> rfl
  · rw [restOk, decide_eq_true (by omega), Bool.true_or, if_pos rfl]
    cases hfuel : rest.length with
    | zero => rfl
    | succ fuel => rw [scanDatagram, if_neg hlen]

/-- **The checker takes the tokens of a capture one by one.** -/
theorem scanPayloads_tokens {ts : List Token} (h : ∀ t ∈ ts, t.Whole) (c : Scan) :
    scanPayloads c.first c.seenSh (payloadsOf ts) = (scanTokens c ts).map Scan.seenSh := by
  induction ts generalizing c with
  | nil => rfl
  | cons t ts ih =>
      have hrest := ih fun t ht => h t (List.mem_cons_of_mem _ ht)
      have hwhole := h t List.mem_cons_self
      cases t with
      | close rest =>
          rw [payloadsOf, scanPayloads, scanDatagram_rest hwhole, scanTokens, scanToken]
          cases restOk rest c.first c.seenSh with
          | false => rfl
          | true => exact hrest ⟨true, c.seenSh⟩
      | record r =>
          have hnext := hrest ⟨false, isServerHello r⟩
          rw [payloadsOf, scanTokens, scanToken]
          cases hds : payloadsOf ts with
          | nil =>
              rw [hds] at hnext
              have hread := scanDatagram_record hwhole [] c.first c.seenSh
              rw [List.append_nil] at hread
              simp only [scanPayloads]
              rw [hread]
              cases !c.seenSh && plainOk r with
              | false => rfl
              | true => exact hnext
          | cons d ds =>
              rw [hds] at hnext
              simp only [scanPayloads]
              rw [scanDatagram_record hwhole d]
              cases !c.seenSh && plainOk r with
              | false => rfl
              | true => exact hnext

/-- A datagram is whole records and a rest. -/
theorem exists_tokens_datagram (d : List Byte) (ts : List Token) (h : ∀ t ∈ ts, t.Whole) :
    ∃ us : List Token, (∀ t ∈ us, t.Whole) ∧ payloadsOf us = d :: payloadsOf ts := by
  induction hn : d.length using Nat.strongRecOn generalizing d with
  | ind n ih =>
    by_cases hrec : 13 ≤ d.length ∧ isPlain d = true ∧ (record d).length = 13 + rlen d
    · obtain ⟨hlen, hplain, hwhole⟩ := hrec
      obtain ⟨us, hus, hpay⟩ := ih (d.drop (13 + rlen d)).length
        (by rw [List.length_drop]; omega) (d.drop (13 + rlen d)) rfl
      refine ⟨.record (record d) :: us, ?_, ?_⟩
      · intro t ht
        rcases List.mem_cons.mp ht with rfl | ht
        · exact plainRecord_record hplain hwhole
        · exact hus t ht
      · rw [payloadsOf, hpay]
        simp only
        rw [record, List.take_append_drop]
    · refine ⟨.close d :: ts, ?_, rfl⟩
      intro t ht
      rcases List.mem_cons.mp ht with rfl | ht
      · exact hrec
      · exact h t ht

/-- Every list of payloads is made up of tokens. -/
theorem exists_tokens (ds : List (List Byte)) :
    ∃ ts : List Token, (∀ t ∈ ts, t.Whole) ∧ payloadsOf ts = ds := by
  induction ds with
  | nil => exact ⟨[], fun t ht => absurd ht List.not_mem_nil, rfl⟩
  | cons d ds ih =>
      obtain ⟨ts, hts, hpay⟩ := ih
      rw [← hpay]
      exact exists_tokens_datagram d ts hts

end AsconDtls.Tools.WireCheck
