import AsconDtls.Lib.Pack
import AsconDtls.Tools.WireCheck

/-!
# The pcap of the relay

`udp_relay_pcap.py` wraps every datagram that it receives in a UDP and an IPv4 header and writes
it to a capture; `rfc9147_wire_check.py` reads such a capture.  An event is what `recvfrom`
returns, with the two numbers that `record` makes of the clock; none is an `error` of `struct`.
What the relay sends on is left out.

* `packets_record`: `read_pcap` takes one record off the file.
* `parseUdp_packet`: `parse_udp` finds the payload.
* `relay_read`: the checker reads the payloads back that the relay received.
-/

namespace AsconDtls.Tools.RelayPcap

open LittleEndian
open Pack
open WireCheck (slice big little packets readPcap parseUdp)

/-! ### The relay -/

def LISTEN_PORT : Nat := 11112
def SERVER_PORT : Nat := 11111

/-- What `recvfrom` returns, and the time since `t0`: the seconds and the microseconds that
`record` computes. -/
structure Received where
  data : List Byte
  port : Nat
  sec : Nat
  usec : Nat
deriving DecidableEq

/-- A field of `struct.pack` in `k` bytes, the first of them the highest. -/
def field (k n : Nat) : Option (List Byte) := if n < 256 ^ k then some (packBig k n) else none

/-- A field under `<`. -/
def fieldLE (k n : Nat) : Option (List Byte) :=
  if n < 256 ^ k then some (packLittle k n) else none

/-- The global header: magic, version, zone, sigfigs, snaplen and LINKTYPE_RAW. -/
def globalHeader : List Byte :=
  packLittle 4 0xa1b2c3d4 ++ packLittle 2 2 ++ packLittle 2 4 ++ packLittle 4 0 ++
    packLittle 4 0 ++ packLittle 4 65535 ++ packLittle 4 101

/-- `socket.inet_aton("127.0.0.1")`. -/
def loopback : List Byte := [127, 0, 0, 1]

/-- `ip + udp + data`. -/
def packet (fromClient : Bool) (data : List Byte) : Option (List Byte) := do
  let udpLen := 8 + data.length
  let total := 20 + udpLen
  let ip := [0x45, 0] ++ (← field 2 total) ++ [0, 0, 0, 0, 64, 17, 0, 0] ++ loopback ++ loopback
  let sport := if fromClient then LISTEN_PORT else SERVER_PORT
  let dport := if fromClient then SERVER_PORT else LISTEN_PORT
  let udp := (← field 2 sport) ++ (← field 2 dport) ++ (← field 2 udpLen) ++ [0, 0]
  some (ip ++ udp ++ data)

/-- What `record` writes. -/
def record (r : Received) : Option (List Byte) := do
  let pkt ← packet (r.port != SERVER_PORT) r.data
  let head := (← fieldLE 4 r.sec) ++ (← fieldLE 4 r.usec) ++ (← fieldLE 4 pkt.length) ++
    (← fieldLE 4 pkt.length)
  some (head ++ pkt)

def recordAll : List Received → Option (List Byte)
  | [] => some []
  | r :: rs => do
    let first ← record r
    let rest ← recordAll rs
    some (first ++ rest)

/-- The file that the relay leaves. -/
def relay (rs : List Received) : Option (List Byte) := do
  let body ← recordAll rs
  some (globalHeader ++ body)

/-! ### One record -/

theorem big_eq : big = unpackBig := rfl

theorem little_eq : little = unpackLittle := rfl

theorem field_eq {k n : Nat} (h : n < 256 ^ k) : field k n = some (packBig k n) := if_pos h

theorem fieldLE_eq {k n : Nat} (h : n < 256 ^ k) : fieldLE k n = some (packLittle k n) := if_pos h

/-- A field in the middle of a list. -/
theorem slice_middle {l m n : List Byte} {i j : Nat} (hi : i = l.length)
    (hj : j = l.length + m.length) : slice (l ++ m ++ n) i j = m := by
  subst hi hj
  rw [slice, ← List.length_append, List.take_left, List.drop_left]

/-- The packet of a datagram that fits, and what `parse_udp` makes of it. -/
theorem parseUdp_packet (fromClient : Bool) {data : List Byte} (h : data.length ≤ 65507) :
    ∃ pkt, packet fromClient data = some pkt ∧ pkt.length = 28 + data.length ∧
      parseUdp pkt = some data := by
  let sport := if fromClient then LISTEN_PORT else SERVER_PORT
  let dport := if fromClient then SERVER_PORT else LISTEN_PORT
  have hsport : sport < 256 ^ 2 := by cases fromClient <;> decide
  have hdport : dport < 256 ^ 2 := by cases fromClient <;> decide
  have hlen : 8 + data.length < 256 ^ 2 := by omega
  have htotal : 20 + (8 + data.length) < 256 ^ 2 := by omega
  let ip := [0x45#8, 0] ++ packBig 2 (20 + (8 + data.length)) ++ [0, 0, 0, 0, 64, 17, 0, 0] ++
    loopback ++ loopback
  let udp := packBig 2 sport ++ packBig 2 dport ++ packBig 2 (8 + data.length) ++ [0, 0]
  have hip : ip.length = 20 := by simp [ip, loopback]
  have hudp : udp.length = 8 := by simp [udp]
  refine ⟨ip ++ udp ++ data, ?_, ?_, ?_⟩
  · simp only [packet, field_eq htotal, field_eq hlen]
    rw [field_eq hsport, field_eq hdport]
    rfl
  · rw [List.length_append, List.length_append, hip, hudp]
  · have hdrop : (ip ++ udp ++ data).drop 20 = udp ++ data := by
      rw [List.append_assoc, ← hip, List.drop_left]
    have hulen : big (slice (udp ++ data) 4 6) = 8 + data.length := by
      have hsplit : udp ++ data =
          packBig 2 sport ++ packBig 2 dport ++ packBig 2 (8 + data.length) ++ ([0, 0] ++ data) := by
        simp [udp]
      rw [hsplit, slice_middle (by simp) (by simp), big_eq, unpackBig_packBig hlen]
    have hpayload : slice (udp ++ data) 8 (8 + data.length) = data := by
      have := slice_middle (l := udp) (m := data) (n := []) (i := 8) (j := 8 + data.length)
        hudp.symm (by rw [hudp])
      rwa [List.append_nil] at this
    have hfirst : (ip ++ udp ++ data).getD 0 0 = 0x45#8 := rfl
    have hproto : (ip ++ udp ++ data).getD 9 0 = 17#8 := rfl
    have hall : (ip ++ udp ++ data).length = 28 + data.length := by
      rw [List.length_append, List.length_append, hip, hudp]
    have hrest : (udp ++ data).length = 8 + data.length := by rw [List.length_append, hudp]
    simp only [parseUdp, hfirst, hproto, hall]
    rw [if_neg (by simp), if_neg (by simp)]
    have hihl : (0x45#8 &&& 0xF).toNat * 4 = 20 := by decide
    rw [hihl, hdrop, if_neg (by omega), hulen, hpayload]

/-! ### The file -/

/-- What is written for a datagram, and how `read_pcap` takes it off the file. -/
theorem packets_record {r : Received} (hdata : r.data.length ≤ 65507) (hsec : r.sec < 2 ^ 32)
    (husec : r.usec < 2 ^ 32) :
    ∃ bytes pkt, record r = some bytes ∧ parseUdp pkt = some r.data ∧
      ∀ file fuel, packets (bytes ++ file) (fuel + 1) = pkt :: packets file fuel := by
  obtain ⟨pkt, hpkt, hlen, hparse⟩ := parseUdp_packet (r.port != SERVER_PORT) hdata
  have hcaplen : pkt.length < 256 ^ 4 := by omega
  have hsec4 : r.sec < 256 ^ 4 := by omega
  have husec4 : r.usec < 256 ^ 4 := by omega
  let head := packLittle 4 r.sec ++ packLittle 4 r.usec ++ packLittle 4 pkt.length ++
    packLittle 4 pkt.length
  have hhead : head.length = 16 := by simp [head]
  refine ⟨head ++ pkt, pkt, ?_, hparse, ?_⟩
  · simp only [record, hpkt, Option.bind_eq_bind, Option.bind_some, fieldLE_eq hsec4,
      fieldLE_eq husec4, fieldLE_eq hcaplen]
    rfl
  · intro file fuel
    have htake : (head ++ pkt ++ file).take 16 = head := by
      rw [List.append_assoc, ← hhead, List.take_left]
    have hdrop : (head ++ pkt ++ file).drop 16 = pkt ++ file := by
      rw [List.append_assoc, ← hhead, List.drop_left]
    have hread : little (slice head 8 12) = pkt.length := by
      rw [slice_middle (by simp) (by simp), little_eq, unpackLittle_packLittle hcaplen]
    rw [packets]
    simp only [htake, hdrop, hread, hhead, List.take_left, List.drop_left]
    rw [if_neg (by omega), if_pos trivial]

/-- The records one after the other, read with enough turns. -/
theorem packets_recordAll {rs : List Received}
    (h : ∀ r ∈ rs, r.data.length ≤ 65507 ∧ r.sec < 2 ^ 32 ∧ r.usec < 2 ^ 32) :
    ∃ body, recordAll rs = some body ∧ rs.length ≤ body.length ∧
      ∀ fuel, rs.length ≤ fuel →
        (packets body fuel).map parseUdp = rs.map fun r => some r.data := by
  induction rs with
  | nil =>
      refine ⟨[], rfl, Nat.le_refl 0, fun fuel _ => ?_⟩
      cases fuel with
      | zero => rfl
      | succ fuel => rfl
  | cons r rs ih =>
      obtain ⟨⟨hdata, hsec, husec⟩, hrs⟩ := List.forall_mem_cons.mp h
      obtain ⟨body, hbody, hlen, hpackets⟩ := ih hrs
      obtain ⟨bytes, pkt, hrecord, hparse, htake⟩ := packets_record hdata hsec husec
      have hne : 0 < bytes.length := by
        by_contra hnil
        have hnil : bytes = [] := List.length_eq_zero_iff.mp (by omega)
        have hempty := htake [] 0
        rw [hnil] at hempty
        exact absurd hempty (by simp [packets])
      refine ⟨bytes ++ body, ?_, ?_, ?_⟩
      · simp [recordAll, hrecord, hbody]
      · rw [List.length_append, List.length_cons]
        omega
      · intro fuel hfuel
        cases fuel with
        | zero => simp at hfuel
        | succ fuel =>
            rw [htake, List.map_cons, List.map_cons, hparse,
              hpackets fuel (by simpa using hfuel)]

/-- **What the relay records, the checker reads back**: none of the datagrams is lost, cut,
moved or dropped. -/
theorem relay_read {rs : List Received}
    (h : ∀ r ∈ rs, r.data.length ≤ 65507 ∧ r.sec < 2 ^ 32 ∧ r.usec < 2 ^ 32) :
    ∃ file pkts, relay rs = some file ∧ readPcap file = .ok pkts ∧
      pkts.map parseUdp = rs.map fun r => some r.data := by
  obtain ⟨body, hbody, hlen, hpackets⟩ := packets_recordAll h
  have hheader : globalHeader.length = 24 := by decide
  refine ⟨globalHeader ++ body, packets body (globalHeader ++ body).length, ?_, ?_, ?_⟩
  · simp [relay, hbody]
  · have htake : (globalHeader ++ body).take 24 = globalHeader := by
      rw [← hheader, List.take_left]
    have hdrop : (globalHeader ++ body).drop 24 = body := by rw [← hheader, List.drop_left]
    have hmagic : little (globalHeader.take 4) = 0xa1b2c3d4 := by decide
    simp only [readPcap, htake, hdrop, hmagic]
    rw [if_neg (by decide), if_neg (by decide)]
  · refine hpackets _ ?_
    rw [List.length_append]
    omega

/-- An empty datagram of the client and an answer. -/
theorem relay_read_two :
    let rs : List Received := [⟨[], 50000, 0, 0⟩, ⟨[0x2e, 1], SERVER_PORT, 1, 999999⟩]
    ∃ file pkts, relay rs = some file ∧ readPcap file = .ok pkts ∧
      pkts.map parseUdp = [some [], some [0x2e, 1]] :=
  relay_read (by decide)

end AsconDtls.Tools.RelayPcap
