import Mathlib.Algebra.GroupWithZero.Nat
import AsconDtls.Lib.LittleEndian

/-!
# The wire checker

`rfc9147_wire_check.py` reads a capture and walks over the records of every UDP payload.  An
`AssertionError` and an `error` of `struct` are a `Failure`; a list of bytes is the file.  Of what
is printed only the counts of the last line are kept.  `inspected` is not in the script: it lists
the payloads with the offsets at which a record was counted.

* `walk_spec`: what the loop makes of a payload that it lets pass; `walk_error`: of another.
* `main_spec`: what the script makes of a capture that it lets pass.
-/

namespace AsconDtls.Tools.WireCheck

open LittleEndian

/-! ### Bytes -/

/-- `l[i:j]`. -/
def slice (l : List Byte) (i j : Nat) : List Byte := (l.take j).drop i

/-- `int.from_bytes(l, "big")`, and `struct.unpack` of one big-endian field. -/
def big (l : List Byte) : Nat := l.foldl (fun n b => n * 256 + b.toNat) 0

/-- `struct.unpack` of one little-endian field. -/
def little (l : List Byte) : Nat := big l.reverse

/-- `l.hex()`. -/
def hex (l : List Byte) : String :=
  String.ofList (l.flatMap fun b => [Nat.digitChar (b.toNat / 16), Nat.digitChar (b.toNat % 16)])

/-! ### Failures -/

inductive Failure
  | shortMagic
  | badMagic
  | badVersion (npkt : Nat) (ver : List Byte)
  | plaintextAfterServerHello (npkt : Nat) (b0 : Byte)
  | truncatedRecord (npkt : Nat)
  | badFragment (npkt : Nat)
  | cidBitSet (npkt : Nat)
  | shortEncrypted (npkt : Nat) (len : Nat)
  | unifiedBeforeServerHello (npkt : Nat)
  | neitherHeader (npkt : Nat) (b0 : Byte)
  | noPayloads
deriving DecidableEq

def Failure.message : Failure → String
  | .shortMagic => "unpack requires a buffer of 4 bytes"
  | .badMagic => "expected little-endian pcap"
  | .badVersion npkt ver => s!"pkt {npkt}: bad legacy version {hex ver} (want fefd)"
  | .plaintextAfterServerHello npkt b0 =>
    s!"pkt {npkt}: plaintext type-{b0.toNat} record after ServerHello"
  | .truncatedRecord npkt => s!"pkt {npkt}: truncated record"
  | .badFragment npkt => s!"pkt {npkt}: bad DTLS handshake fragment header"
  | .cidBitSet npkt => s!"pkt {npkt}: CID bit set but no CIDs negotiated here"
  | .shortEncrypted npkt len => s!"pkt {npkt}: encrypted_record {len} B < 16 B"
  | .unifiedBeforeServerHello npkt => s!"pkt {npkt}: unified header before ServerHello"
  | .neitherHeader npkt b0 =>
    s!"pkt {npkt}: byte 0x{hex [b0]} is neither a legacy nor a " ++
      "unified-header record (fixed bits 001 missing)"
  | .noPayloads => "no UDP payloads found"

/-- The packet that a failure names. -/
def Failure.packet : Failure → Option Nat
  | .shortMagic | .badMagic | .noPayloads => none
  | .badVersion npkt _ | .plaintextAfterServerHello npkt _ | .truncatedRecord npkt
  | .badFragment npkt | .cidBitSet npkt | .shortEncrypted npkt _
  | .unifiedBeforeServerHello npkt | .neitherHeader npkt _ => some npkt

/-! ### The capture -/

/-- The loop of `read_pcap` over what is left of the file.  A turn reads sixteen bytes at
least. -/
def packets (file : List Byte) : Nat → List (List Byte)
  | 0 => []
  | fuel + 1 =>
    let ph := file.take 16
    if ph.length < 16 then []
    else
      let caplen := little (slice ph 8 12)
      let data := (file.drop 16).take caplen
      let rest := packets ((file.drop 16).drop caplen) fuel
      if data.length = caplen then data :: rest else rest

/-- `read_pcap`. -/
def readPcap (file : List Byte) : Except Failure (List (List Byte)) :=
  let gh := file.take 24
  if (gh.take 4).length < 4 then .error .shortMagic
  else if little (gh.take 4) ≠ 0xa1b2c3d4 then .error .badMagic
  else .ok (packets (file.drop 24) file.length)

/-- `parse_udp`. -/
def parseUdp (payload : List Byte) : Option (List Byte) :=
  if payload.length < 28 ∨ payload.getD 0 0 >>> 4 ≠ 4 then none
  else
    let ihl := (payload.getD 0 0 &&& 0xF).toNat * 4
    if payload.getD 9 0 ≠ 17 then none
    else
      let udp := payload.drop ihl
      if udp.length < 8 then none
      else
        let ulen := big (slice udp 4 6)
        some (slice udp 8 ulen)

/-! ### A record

`s` is what is left of the datagram where the record starts. -/

def b0 (s : List Byte) : Byte := s.getD 0 0

/-- `b0 in (20, 21, 22)`. -/
def isPlain (s : List Byte) : Bool := b0 s = 20 || b0 s = 21 || b0 s = 22

def ver (s : List Byte) : List Byte := slice s 1 3

def rlen (s : List Byte) : Nat := big (slice s 11 13)

/-- `rec`. -/
def record (s : List Byte) : List Byte := s.take (13 + rlen s)

/-- `b0 == 22 and len(rec) >= 25`. -/
def isHandshake (r : List Byte) : Bool := b0 r = 22 && decide (25 ≤ r.length)

/-- `frag_len <= mlen and frag_off + frag_len <= mlen`. -/
def fragmentFits (r : List Byte) : Bool :=
  let mlen := big (slice r 14 17)
  let fragOff := big (slice r 17 20)
  let fragLen := big (slice r 20 23)
  decide (fragLen ≤ mlen) && decide (fragOff + fragLen ≤ mlen)

def hrrRandom : List Byte :=
  [0xCF, 0x21, 0xAD, 0x74, 0xE5, 0x9A, 0x61, 0x11, 0xBE, 0x1D, 0x8C, 0x02, 0x1E, 0x65, 0xB8, 0x91,
    0xC2, 0xA2, 0x11, 0x16, 0x7A, 0xBB, 0x8C, 0x5E, 0x07, 0x9E, 0x09, 0xE2, 0xC8, 0xA8, 0x33, 0x9C]

/-- A ServerHello that is not a HelloRetryRequest. -/
def isServerHello (r : List Byte) : Bool :=
  isHandshake r && decide (r.getD 13 0 = 2) &&
    !decide (slice r (25 + 2) (25 + 2 + 32) = hrrRandom)

/-- `(b0 & 0xE0) == 0x20`. -/
def isUnified (s : List Byte) : Bool := b0 s &&& 0xE0 = 0x20

def cidBit (s : List Byte) : Byte := b0 s >>> 4 &&& 1

def sBit (s : List Byte) : Bool := b0 s >>> 3 &&& 1 ≠ 0

def lBit (s : List Byte) : Bool := b0 s >>> 2 &&& 1 ≠ 0

/-- `hdr`. -/
def hdr (s : List Byte) : Nat := 1 + (if sBit s then 2 else 1) + (if lBit s then 2 else 0)

/-! ### The loops -/

/-- The branch for plaintext records: the step of `off`, and `seen_sh`. -/
def plaintext (npkt : Nat) (s : List Byte) (seenSh : Bool) : Except Failure (Nat × Bool) :=
  if ver s ≠ [0xfe, 0xfd] then .error (.badVersion npkt (ver s))
  else if seenSh then .error (.plaintextAfterServerHello npkt (b0 s))
  else
    let r := record s
    if r.length ≠ 13 + rlen s then .error (.truncatedRecord npkt)
    else if isHandshake r && !fragmentFits r then .error (.badFragment npkt)
    else .ok (13 + rlen s, seenSh || isServerHello r)

/-- The branch for unified headers. -/
def unified (npkt : Nat) (s : List Byte) (first seenSh : Bool) : Except Failure Unit :=
  if cidBit s ≠ 0 then .error (.cidBitSet npkt)
  else if s.length - hdr s < 16 then .error (.shortEncrypted npkt (s.length - hdr s))
  else if first && !seenSh then .error (.unifiedBeforeServerHello npkt)
  else .ok ()

structure Walked where
  seenSh : Bool
  nrec : Nat
  offs : List Nat
deriving DecidableEq

/-- `while off + 13 <= len(dgram)`.  A turn moves on by thirteen bytes at least, or is the last. -/
def walk (npkt : Nat) (dgram : List Byte) (off : Nat) (first seenSh : Bool) (nrec : Nat) :
    Nat → Except Failure Walked
  | 0 => .ok ⟨seenSh, nrec, []⟩
  | fuel + 1 =>
    if off + 13 ≤ dgram.length then
      let s := dgram.drop off
      if isPlain s then
        match plaintext npkt s seenSh with
        | .error e => .error e
        | .ok (n, seenSh) =>
          match walk npkt dgram (off + n) false seenSh (nrec + 1) fuel with
          | .error e => .error e
          | .ok w => .ok { w with offs := off :: w.offs }
      else if isUnified s then
        match unified npkt s first seenSh with
        | .error e => .error e
        | .ok () => .ok ⟨seenSh, nrec + 1, [off]⟩
      else .error (.neitherHeader npkt (b0 s))
    else .ok ⟨seenSh, nrec, []⟩

/-- A payload with the offsets of the records counted in it. -/
structure Inspected where
  dgram : List Byte
  offs : List Nat
deriving DecidableEq

structure Check where
  seenSh : Bool := false
  ndgrams : Nat := 0
  nrec : Nat := 0
  inspected : List Inspected := []
deriving DecidableEq

/-- The body of the loop over the capture. -/
def checkPacket (c : Check) (npkt : Nat) (pkt : List Byte) : Except Failure Check :=
  match parseUdp pkt with
  | none => .ok c
  | some dgram =>
    match walk npkt dgram 0 true c.seenSh c.nrec dgram.length with
    | .error e => .error e
    | .ok w =>
      .ok { seenSh := w.seenSh, ndgrams := c.ndgrams + 1, nrec := w.nrec
            inspected := c.inspected ++ [⟨dgram, w.offs⟩] }

/-- `for npkt, pkt in enumerate(...)`. -/
def checkPackets (c : Check) (npkt : Nat) : List (List Byte) → Except Failure Check
  | [] => .ok c
  | pkt :: pkts =>
    match checkPacket c npkt pkt with
    | .error e => .error e
    | .ok c => checkPackets c (npkt + 1) pkts

def main (file : List Byte) : Except Failure Check :=
  match readPcap file with
  | .error e => .error e
  | .ok pkts =>
    match checkPackets {} 1 pkts with
    | .error e => .error e
    | .ok c => if 0 < c.ndgrams then .ok c else .error .noPayloads

/-- The UDP payloads of a capture. -/
def payloads (file : List Byte) : List (List Byte) :=
  match readPcap file with
  | .error _ => []
  | .ok pkts => pkts.filterMap parseUdp

/-! ### What a pass means -/

/-- Every turn of `read_pcap` takes bytes off the file: more turns than it has bytes change
nothing. -/
theorem packets_fuel (file : List Byte) (fuel extra : Nat) (h : file.length ≤ fuel) :
    packets file (fuel + extra) = packets file fuel := by
  induction fuel generalizing file with
  | zero =>
      obtain rfl := List.length_eq_zero_iff.mp (Nat.le_zero.mp h)
      cases extra with
      | zero => rfl
      | succ extra => simp [packets]
  | succ fuel ih =>
      rw [Nat.add_right_comm]
      simp only [packets]
      split
      · rfl
      · next hph =>
          rw [ih]
          simp only [List.length_take, List.length_drop] at hph ⊢
          omega

theorem plaintext_error {npkt : Nat} {s : List Byte} {seenSh : Bool} {e : Failure}
    (h : plaintext npkt s seenSh = .error e) : e.packet = some npkt := by
  simp only [plaintext] at h
  split_ifs at h <;> (obtain rfl := Except.error.inj h; rfl)

theorem unified_error {npkt : Nat} {s : List Byte} {first seenSh : Bool} {e : Failure}
    (h : unified npkt s first seenSh = .error e) : e.packet = some npkt := by
  simp only [unified] at h
  split_ifs at h <;> (obtain rfl := Except.error.inj h; rfl)

/-- A check that fails names the packet that it is about. -/
theorem walk_error {npkt : Nat} {dgram : List Byte} {off : Nat} {first seenSh : Bool}
    {nrec fuel : Nat} {e : Failure} (h : walk npkt dgram off first seenSh nrec fuel = .error e) :
    e.packet = some npkt := by
  induction fuel generalizing off first seenSh nrec with
  | zero => cases h
  | succ fuel ih =>
      rw [walk] at h
      split at h
      · simp only at h
        split at h
        · split at h
          · next hturn =>
              obtain rfl := Except.error.inj h
              exact plaintext_error hturn
          · split at h
            · next hrest =>
                obtain rfl := Except.error.inj h
                exact ih hrest
            · cases h
        · split at h
          · split at h
            · next hturn =>
                obtain rfl := Except.error.inj h
                exact unified_error hturn
            · cases h
          · obtain rfl := Except.error.inj h
            rfl
      · cases h

/-- A walk over the datagram from `off` on that is let pass, with the offsets of the records
counted and `seen_sh` before and after. -/
inductive Accepted (dgram : List Byte) : Nat → Bool → Bool → List Nat → Bool → Prop
  | done {off : Nat} {first seenSh : Bool} (hoff : dgram.length < off + 13) :
      Accepted dgram off first seenSh [] seenSh
  | plain {off : Nat} {first : Bool} {offs : List Nat} {seenSh : Bool}
      (hoff : off + 13 ≤ dgram.length) (hplain : isPlain (dgram.drop off) = true)
      (hwhole : (record (dgram.drop off)).length = 13 + rlen (dgram.drop off))
      (hrest : Accepted dgram (off + (13 + rlen (dgram.drop off))) false
        (isServerHello (record (dgram.drop off))) offs seenSh) :
      Accepted dgram off first false (off :: offs) seenSh
  | unified {off : Nat} {first seenSh : Bool} (hoff : off + 13 ≤ dgram.length)
      (hplain : isPlain (dgram.drop off) = false) (hunified : isUnified (dgram.drop off) = true)
      (hfirst : first = true → seenSh = true) :
      Accepted dgram off first seenSh [off] seenSh

theorem plaintext_ok {npkt n : Nat} {s : List Byte} {seenSh seenSh' : Bool}
    (h : plaintext npkt s seenSh = .ok (n, seenSh')) :
    seenSh = false ∧ (record s).length = 13 + rlen s ∧ n = 13 + rlen s ∧
      seenSh' = isServerHello (record s) := by
  simp only [plaintext] at h
  split at h
  · cases h
  split at h
  · cases h
  next hseen =>
  split at h
  · cases h
  next hwhole =>
  split at h
  · cases h
  rw [Bool.not_eq_true] at hseen
  obtain ⟨rfl, rfl⟩ := Prod.mk.inj (Except.ok.inj h)
  exact ⟨hseen, not_not.mp hwhole, rfl, by rw [hseen, Bool.false_or]⟩

theorem unified_ok {npkt : Nat} {s : List Byte} {first seenSh : Bool}
    (h : unified npkt s first seenSh = .ok ()) : first = true → seenSh = true := by
  simp only [unified] at h
  split at h
  · cases h
  split at h
  · cases h
  split at h
  · cases h
  next hfirst =>
  intro hf
  simpa [hf] using hfirst

/-- What the loop makes of a payload that it lets pass. -/
theorem walk_spec {npkt : Nat} {dgram : List Byte} {off : Nat} {first seenSh : Bool}
    {nrec fuel : Nat} {w : Walked} (hfuel : dgram.length ≤ off + fuel)
    (h : walk npkt dgram off first seenSh nrec fuel = .ok w) :
    Accepted dgram off first seenSh w.offs w.seenSh ∧ w.nrec = nrec + w.offs.length := by
  induction fuel generalizing off first seenSh nrec w with
  | zero =>
      obtain rfl := Except.ok.inj h
      exact ⟨.done (by omega), rfl⟩
  | succ fuel ih =>
      rw [walk] at h
      split at h
      · next hoff =>
          simp only at h
          split at h
          · next hplain =>
              split at h
              · cases h
              next n seenSh' hturn =>
              split at h
              · cases h
              next w' hrest =>
              obtain ⟨rfl, hwhole, rfl, rfl⟩ := plaintext_ok hturn
              obtain ⟨hacc, hnrec⟩ := ih (by omega) hrest
              obtain rfl := Except.ok.inj h
              refine ⟨.plain hoff hplain hwhole hacc, ?_⟩
              rw [hnrec, List.length_cons]
              omega
          · next hplain =>
              split at h
              · next hunified =>
                  split at h
                  · cases h
                  next hturn =>
                  obtain rfl := Except.ok.inj h
                  refine ⟨.unified hoff (Bool.not_eq_true _ ▸ hplain) hunified ?_, rfl⟩
                  exact unified_ok hturn
              · cases h
      · obtain rfl := Except.ok.inj h
        exact ⟨.done (by omega), rfl⟩

/-- The payloads of a capture, one accepted after the other. -/
inductive AcceptedAll : Bool → List Inspected → Bool → Prop
  | nil (seenSh : Bool) : AcceptedAll seenSh [] seenSh
  | cons {seenSh seenSh' seenSh'' : Bool} {x : Inspected} {xs : List Inspected}
      (hx : Accepted x.dgram 0 true seenSh x.offs seenSh') (hxs : AcceptedAll seenSh' xs seenSh'') :
      AcceptedAll seenSh (x :: xs) seenSh''

theorem AcceptedAll.concat {seenSh seenSh' seenSh'' : Bool} {xs : List Inspected} {x : Inspected}
    (hxs : AcceptedAll seenSh xs seenSh') (hx : Accepted x.dgram 0 true seenSh' x.offs seenSh'') :
    AcceptedAll seenSh (xs ++ [x]) seenSh'' := by
  induction hxs with
  | nil seenSh => exact .cons hx (.nil _)
  | cons hy hys ih => exact .cons hy (ih hx)

/-- The records counted so far, and the payloads. -/
structure Check.Inv (c : Check) (ds : List (List Byte)) : Prop where
  accepted : AcceptedAll false c.inspected c.seenSh
  payloads : c.inspected.map Inspected.dgram = ds
  ndgrams : c.ndgrams = ds.length
  nrec : c.nrec = (c.inspected.map fun x => x.offs.length).sum

theorem checkPacket_inv {c c' : Check} {ds : List (List Byte)} (hc : c.Inv ds) {npkt : Nat}
    {pkt : List Byte} (h : checkPacket c npkt pkt = .ok c') :
    c'.Inv (ds ++ (parseUdp pkt).toList) := by
  rw [checkPacket] at h
  split at h
  · next hnone =>
      obtain rfl := Except.ok.inj h
      rwa [hnone, Option.toList_none, List.append_nil]
  · next dgram hsome =>
      split at h
      · cases h
      next w hwalk =>
      obtain rfl := Except.ok.inj h
      obtain ⟨hacc, hnrec⟩ := walk_spec (by omega) hwalk
      rw [hsome, Option.toList_some]
      refine ⟨hc.accepted.concat hacc, ?_, ?_, ?_⟩
      · rw [List.map_append, hc.payloads]
        rfl
      · rw [hc.ndgrams, List.length_append]
        rfl
      · rw [hnrec, hc.nrec, List.map_append, List.sum_append]
        rfl

theorem checkPackets_inv {c c' : Check} {ds : List (List Byte)} (hc : c.Inv ds) {npkt : Nat}
    {pkts : List (List Byte)} (h : checkPackets c npkt pkts = .ok c') :
    c'.Inv (ds ++ pkts.filterMap parseUdp) := by
  induction pkts generalizing c ds npkt with
  | nil =>
      obtain rfl := Except.ok.inj h
      rwa [List.filterMap_nil, List.append_nil]
  | cons pkt pkts ih =>
      rw [checkPackets] at h
      split at h
      · cases h
      next c1 hpkt =>
      have hnext := ih (checkPacket_inv hc hpkt) h
      rw [List.append_assoc] at hnext
      cases hparse : parseUdp pkt with
      | none =>
          rw [List.filterMap_cons_none hparse]
          rwa [hparse] at hnext
      | some dgram =>
          rw [List.filterMap_cons_some hparse]
          rwa [hparse] at hnext

/-- What the script makes of a capture that it lets pass. -/
theorem main_spec {file : List Byte} {c : Check} (h : main file = .ok c) :
    c.Inv (payloads file) ∧ payloads file ≠ [] := by
  rw [main] at h
  rw [payloads]
  split at h
  · cases h
  next pkts hpkts =>
  split at h
  · cases h
  next c' hcheck =>
  have hstart : Check.Inv {} [] := ⟨.nil false, rfl, rfl, rfl⟩
  have hinv := checkPackets_inv hstart hcheck
  rw [List.nil_append] at hinv
  split at h
  · next hpos =>
      obtain rfl := Except.ok.inj h
      refine ⟨hinv, fun hnil => ?_⟩
      have hcount := hinv.ndgrams
      rw [hnil] at hcount
      exact absurd hcount (Nat.pos_iff_ne_zero.mp hpos)
  · cases h

end AsconDtls.Tools.WireCheck
