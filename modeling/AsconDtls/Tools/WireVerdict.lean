import Mathlib.Data.List.Induction
import AsconDtls.Tools.WireScan

/-!
# What the wire checker lets pass

The last line of the script stands for a property of the capture that can be said without the
loops: each record, and each rest of a datagram, is judged by its own bytes and by what comes
before it.

* `scanTokens_eq`: the loops decide it.
* `recordCount_tokens`: how many records they count.
* `main_passes_iff`: so the script ends with its last line exactly for such captures.
-/

namespace AsconDtls.Tools.WireCheck

open LittleEndian

/-! ### The property -/

/-- A ServerHello that is not a HelloRetryRequest stands among the tokens. -/
def hello (ts : List Token) : Bool :=
  ts.any fun t =>
    match t with
    | .record r => isServerHello r
    | .close _ => false

/-- What comes after the tokens opens a datagram. -/
def opens (ts : List Token) : Bool :=
  match ts.getLast? with
  | some (.record _) => false
  | _ => true

/-- What is asked of a token behind the tokens `before`.  A rest of less than thirteen bytes may be
anything. -/
def Token.Fits (before : List Token) : Token → Prop
  | .record r =>
    ver r = [0xfe, 0xfd] ∧ (isHandshake r = true → fragmentFits r = true) ∧ hello before = false
  | .close rest =>
    13 ≤ rest.length → isUnified rest = true ∧ cidBit rest = 0 ∧ hdr rest + 16 ≤ rest.length ∧
      (opens before = true → hello before = true)

def Conforms (ts : List Token) : Prop :=
  ∀ before t after, ts = before ++ t :: after → t.Fits before

/-- The records of the last line: those in plaintext, and every rest that is not too short to be
looked at. -/
def counted : List Token → Nat
  | [] => 0
  | .record _ :: ts => 1 + counted ts
  | .close rest :: ts => (if 13 ≤ rest.length then 1 else 0) + counted ts

/-! ### The loops decide it -/

theorem hello_concat_record (ts : List Token) (r : List Byte) :
    hello (ts ++ [.record r]) = (hello ts || isServerHello r) := by
  simp [hello]

theorem hello_concat_close (ts : List Token) (rest : List Byte) :
    hello (ts ++ [.close rest]) = hello ts := by
  simp [hello]

theorem opens_concat_record (ts : List Token) (r : List Byte) :
    opens (ts ++ [.record r]) = false := by
  rw [opens, List.getLast?_concat]

theorem opens_concat_close (ts : List Token) (rest : List Byte) :
    opens (ts ++ [.close rest]) = true := by
  rw [opens, List.getLast?_concat]

theorem conforms_nil : Conforms [] := by
  intro before t after h
  exact absurd h.symm (by simp)

/-- One more token asks for nothing new of those before it. -/
theorem conforms_concat (ts : List Token) (t : Token) :
    Conforms (ts ++ [t]) ↔ Conforms ts ∧ t.Fits ts := by
  constructor
  · intro h
    refine ⟨fun before u after hts => ?_, h ts t [] rfl⟩
    exact h before u (after ++ [t]) (by rw [hts, List.append_assoc, List.cons_append])
  · rintro ⟨hts, ht⟩ before u after h
    rcases List.eq_nil_or_concat after with rfl | ⟨after, v, rfl⟩
    · obtain ⟨rfl, heq⟩ := List.append_inj' h rfl
      obtain rfl := List.head_eq_of_cons_eq heq
      exact ht
    · have hsplit : ts ++ [t] = (before ++ u :: after) ++ [v] := by
        rw [h, List.concat_eq_append, List.append_assoc, List.cons_append]
      exact hts before u after (List.append_inj' hsplit rfl).1

theorem record_self {r : List Byte} (h : PlainRecord r) : record r = r := by
  have happ := record_append h []
  rwa [List.append_nil] at happ

theorem plainOk_iff {r : List Byte} (h : PlainRecord r) :
    plainOk r = true ↔
      ver r = [0xfe, 0xfd] ∧ (isHandshake r = true → fragmentFits r = true) := by
  rw [plainOk, record_self h, decide_eq_true h.2, Bool.and_true, Bool.and_eq_true,
    decide_eq_true_eq]
  cases isHandshake r <;> cases fragmentFits r <;> simp

theorem unifiedOk_iff (s : List Byte) (first seenSh : Bool) :
    unifiedOk s first seenSh = true ↔
      cidBit s = 0 ∧ hdr s + 16 ≤ s.length ∧ (first = true → seenSh = true) := by
  have hlen : 16 ≤ s.length - hdr s ↔ hdr s + 16 ≤ s.length := by omega
  rw [unifiedOk, Bool.and_eq_true, Bool.and_eq_true, decide_eq_true_eq, decide_eq_true_eq, hlen,
    and_assoc]
  cases first <;> cases seenSh <;> simp

theorem restOk_iff (rest : List Byte) (first seenSh : Bool) :
    restOk rest first seenSh = true ↔
      (13 ≤ rest.length → isUnified rest = true ∧ cidBit rest = 0 ∧ hdr rest + 16 ≤ rest.length ∧
        (first = true → seenSh = true)) := by
  rw [restOk, Bool.or_eq_true, decide_eq_true_eq, Bool.and_eq_true, Bool.and_eq_true,
    unifiedOk_iff]
  constructor
  · rintro (hshort | ⟨⟨-, hunified⟩, hok⟩) hlen
    · exact absurd hlen (Nat.not_le.mpr hshort)
    · exact ⟨hunified, hok⟩
  · intro h
    rcases Nat.lt_or_ge rest.length 13 with hshort | hlen
    · exact Or.inl hshort
    · obtain ⟨hunified, hok⟩ := h hlen
      exact Or.inr ⟨⟨by rw [isPlain_of_isUnified hunified]; rfl, hunified⟩, hok⟩

/-- One token, behind tokens that were let pass. -/
theorem scanToken_eq (ts : List Token) {t : Token} (ht : t.Whole) :
    (t.Fits ts ∧ scanToken ⟨opens ts, hello ts⟩ t = some ⟨opens (ts ++ [t]), hello (ts ++ [t])⟩) ∨
      (¬ t.Fits ts ∧ scanToken ⟨opens ts, hello ts⟩ t = none) := by
  cases t with
  | record r =>
      rw [opens_concat_record, hello_concat_record, scanToken, Token.Fits, ← and_assoc,
        ← plainOk_iff ht]
      cases hello ts <;> cases plainOk r <;> simp
  | close rest =>
      rw [opens_concat_close, hello_concat_close, scanToken, Token.Fits, ← restOk_iff]
      cases restOk rest (opens ts) (hello ts) <;> simp

/-- **The loops decide it.** -/
theorem scanTokens_eq {ts : List Token} (h : ∀ t ∈ ts, t.Whole) :
    (Conforms ts ∧ scanTokens ⟨true, false⟩ ts = some ⟨opens ts, hello ts⟩) ∨
      (¬ Conforms ts ∧ scanTokens ⟨true, false⟩ ts = none) := by
  induction ts using List.reverseRecOn with
  | nil => exact Or.inl ⟨conforms_nil, rfl⟩
  | append_singleton ts t ih =>
      rw [conforms_concat, scanTokens_append]
      rcases ih fun u hu => h u (List.mem_append_left _ hu) with ⟨hts, hscan⟩ | ⟨hts, hscan⟩
      · rw [hscan, Option.bind_some, scanTokens]
        rcases scanToken_eq ts (h t (by simp)) with ⟨ht, hturn⟩ | ⟨ht, hturn⟩
        · rw [hturn]
          exact Or.inl ⟨⟨hts, ht⟩, rfl⟩
        · rw [hturn]
          exact Or.inr ⟨fun hall => ht hall.2, rfl⟩
      · rw [hscan]
        exact Or.inr ⟨fun hall => hts hall.1, rfl⟩

/-! ### The records counted -/

/-- How many records the loop counts in a datagram that it lets pass. -/
def recordCount (s : List Byte) : Nat → Nat
  | 0 => 0
  | fuel + 1 =>
    if 13 ≤ s.length then
      if isPlain s then 1 + recordCount (s.drop (13 + rlen s)) fuel else 1
    else 0

theorem recordCount_fuel (s : List Byte) {fuel fuel' : Nat} (h : s.length ≤ fuel)
    (h' : s.length ≤ fuel') : recordCount s fuel = recordCount s fuel' := by
  induction fuel generalizing s fuel' with
  | zero =>
      cases fuel' with
      | zero => rfl
      | succ fuel' => rw [recordCount, recordCount, if_neg (by omega)]
  | succ fuel ih =>
      cases fuel' with
      | zero => rw [recordCount, recordCount, if_neg (by omega)]
      | succ fuel' =>
          have hdrop : (s.drop (13 + rlen s)).length ≤ fuel := by
            rw [List.length_drop]
            omega
          have hdrop' : (s.drop (13 + rlen s)).length ≤ fuel' := by
            rw [List.length_drop]
            omega
          rw [recordCount, recordCount, ih _ hdrop hdrop']

theorem Accepted.recordCount {dgram : List Byte} {off : Nat} {first seenSh seenSh' : Bool}
    {offs : List Nat} (h : Accepted dgram off first seenSh offs seenSh') :
    WireCheck.recordCount (dgram.drop off) (dgram.drop off).length = offs.length := by
  induction h with
  | @done off first seenSh hoff =>
      have hshort : ¬ 13 ≤ (dgram.drop off).length := by
        rw [List.length_drop]
        omega
      cases hfuel : (dgram.drop off).length with
      | zero => rfl
      | succ fuel => rw [WireCheck.recordCount, if_neg hshort, List.length_nil]
  | @plain off first offs seenSh hoff hplain hwhole hrest ih =>
      have hlen : (dgram.drop off).length = dgram.length - off := List.length_drop
      obtain ⟨fuel, hfuel⟩ : ∃ fuel, (dgram.drop off).length = fuel + 1 :=
        ⟨dgram.length - off - 1, by omega⟩
      have hdrop : (dgram.drop (off + (13 + rlen (dgram.drop off)))).length ≤ fuel := by
        rw [List.length_drop]
        omega
      rw [hfuel, WireCheck.recordCount, if_pos (by omega), if_pos hplain, List.drop_drop,
        recordCount_fuel _ hdrop (Nat.le_refl _), ih, List.length_cons, Nat.add_comm]
  | @unified off first seenSh hoff hplain hunified hfirst =>
      have hlen : (dgram.drop off).length = dgram.length - off := List.length_drop
      obtain ⟨fuel, hfuel⟩ : ∃ fuel, (dgram.drop off).length = fuel + 1 :=
        ⟨dgram.length - off - 1, by omega⟩
      rw [hfuel, WireCheck.recordCount, if_pos (by omega), hplain, if_neg Bool.false_ne_true,
        List.length_singleton]

/-- A whole record is counted by itself. -/
theorem recordCount_record {r : List Byte} (h : PlainRecord r) (m : List Byte) :
    recordCount (r ++ m) (r ++ m).length = 1 + recordCount m m.length := by
  have hlen := h.2
  have hdrop : (r ++ m).drop (13 + rlen (r ++ m)) = m := by
    rw [rlen_append h.thirteen_le, ← hlen, List.drop_left]
  obtain ⟨fuel, hfuel⟩ : ∃ fuel, (r ++ m).length = fuel + 1 := by
    rw [List.length_append]
    exact ⟨12 + rlen r + m.length, by omega⟩
  have hm : m.length ≤ fuel := by
    rw [List.length_append] at hfuel
    omega
  rw [hfuel, recordCount, if_pos (by rw [List.length_append]; omega),
    if_pos (h.isPlain_append m), hdrop, recordCount_fuel m hm (Nat.le_refl _)]

/-- So is a rest, whole or not. -/
theorem recordCount_rest {rest : List Byte} (h : NoRecord rest) :
    recordCount rest rest.length = if 13 ≤ rest.length then 1 else 0 := by
  cases hfuel : rest.length with
  | zero => rfl
  | succ fuel =>
      rw [recordCount, hfuel]
      by_cases hlen : 13 ≤ fuel + 1
      · rw [if_pos hlen, if_pos hlen]
        by_cases hplain : isPlain rest = true
        · -- the record is cut off: nothing is left behind it
          have hcut : rest.length < 13 + rlen rest := by
            by_contra hge
            refine h ⟨by omega, hplain, ?_⟩
            rw [record, List.length_take]
            omega
          have hnone : rest.drop (13 + rlen rest) = [] := List.drop_of_length_le (by omega)
          rw [if_pos hplain, hnone, recordCount_fuel [] (Nat.zero_le _) (Nat.zero_le 0), recordCount]
        · rw [if_neg hplain]
      · rw [if_neg hlen, if_neg hlen]

theorem recordCount_tokens {ts : List Token} (h : ∀ t ∈ ts, t.Whole) :
    ((payloadsOf ts).map fun d => recordCount d d.length).sum = counted ts := by
  induction ts with
  | nil => rfl
  | cons t ts ih =>
      have hrest := ih fun t ht => h t (List.mem_cons_of_mem _ ht)
      have hwhole := h t List.mem_cons_self
      cases t with
      | close rest =>
          rw [payloadsOf, List.map_cons, List.sum_cons, hrest, recordCount_rest hwhole, counted]
      | record r =>
          rw [payloadsOf, counted, ← hrest]
          cases payloadsOf ts with
          | nil =>
              have hone := recordCount_record hwhole []
              rw [List.append_nil] at hone
              simp only [List.map_cons, List.map_nil, List.sum_cons, List.sum_nil]
              rw [hone]
              rfl
          | cons d ds =>
              simp only [List.map_cons, List.sum_cons]
              rw [recordCount_record hwhole d, Nat.add_assoc]

theorem AcceptedAll.recordCount {seenSh seenSh' : Bool} {xs : List Inspected}
    (h : AcceptedAll seenSh xs seenSh') :
    (xs.map fun x => x.offs.length).sum =
      ((xs.map Inspected.dgram).map fun d => WireCheck.recordCount d d.length).sum := by
  induction h with
  | nil seenSh => rfl
  | cons hx hxs ih =>
      have hone := hx.recordCount
      rw [List.drop_zero] at hone
      rw [List.map_cons, List.sum_cons, ih, List.map_cons, List.map_cons, List.sum_cons, hone]

/-! ### The script -/

/-- The script reads the file: its first four bytes are the magic number. -/
def Readable (file : List Byte) : Prop :=
  4 ≤ file.length ∧ little (file.take 4) = 0xa1b2c3d4

theorem captures_of_readable {file : List Byte} (h : Readable file) :
    Captures file (payloads file) := by
  have htake : (file.take 24).take 4 = file.take 4 := by rw [List.take_take]; rfl
  have hlen : ¬ (file.take 4).length < 4 := by
    rw [List.length_take]
    have hfour := h.1
    omega
  have hread : readPcap file = .ok (packets (file.drop 24) file.length) := by
    simp only [readPcap, htake]
    rw [if_neg hlen, if_neg (not_not.mpr h.2)]
  exact ⟨_, hread, by rw [payloads, hread]⟩

theorem main_readable {file : List Byte} {c : Check} (h : main file = .ok c) : Readable file := by
  have htake : (file.take 24).take 4 = file.take 4 := by rw [List.take_take]; rfl
  rw [main] at h
  simp only [readPcap, htake] at h
  split_ifs at h with hshort hmagic
  rw [List.length_take] at hshort
  exact ⟨by omega, not_not.mp hmagic⟩

theorem main_nrec {file : List Byte} {c : Check} (h : main file = .ok c) {ts : List Token}
    (hts : ∀ t ∈ ts, t.Whole) (hpay : payloadsOf ts = payloads file) : c.nrec = counted ts := by
  obtain ⟨hinv, -⟩ := main_spec h
  rw [hinv.nrec, hinv.accepted.recordCount, hinv.payloads, ← hpay, recordCount_tokens hts]

/-- A capture passes exactly if its tokens conform. -/
theorem main_isSome_iff {file : List Byte} (h : Readable file) {ts : List Token}
    (hts : ∀ t ∈ ts, t.Whole) (hpay : payloadsOf ts = payloads file) :
    (∃ c, main file = .ok c) ↔ payloads file ≠ [] ∧ Conforms ts := by
  have hscan := main_scan (captures_of_readable h)
  rw [← hpay, scanPayloads_tokens hts ⟨true, false⟩] at hscan
  rw [← hpay]
  have hpass : (∃ c, main file = .ok c) ↔ ((main file).toOption.map Check.seenSh).isSome := by
    cases main file with
    | error e => simp [Except.toOption]
    | ok c => simp [Except.toOption]
  rw [hpass, hscan]
  by_cases hnil : payloadsOf ts = []
  · simp [hnil]
  · rcases scanTokens_eq hts with ⟨hconf, hrun⟩ | ⟨hconf, hrun⟩ <;> simp [hnil, hconf, hrun]

/-- **What the last line of the script stands for.**  It is printed exactly for files that can be
read, have a payload and conform, with the number of payloads and of their records. -/
theorem main_passes_iff (file : List Byte) (ndgrams nrec : Nat) :
    (∃ c, main file = .ok c ∧ c.ndgrams = ndgrams ∧ c.nrec = nrec) ↔
      Readable file ∧ payloads file ≠ [] ∧ ndgrams = (payloads file).length ∧
        ∃ ts : List Token, (∀ t ∈ ts, t.Whole) ∧ payloadsOf ts = payloads file ∧ Conforms ts ∧
          nrec = counted ts := by
  constructor
  · rintro ⟨c, hmain, rfl, rfl⟩
    have hread := main_readable hmain
    obtain ⟨ts, hts, hpay⟩ := exists_tokens (payloads file)
    obtain ⟨hne, hconf⟩ := (main_isSome_iff hread hts hpay).mp ⟨c, hmain⟩
    exact ⟨hread, hne, (main_spec hmain).1.ndgrams, ts, hts, hpay, hconf, main_nrec hmain hts hpay⟩
  · rintro ⟨hread, hne, rfl, ts, hts, hpay, hconf, rfl⟩
    obtain ⟨c, hmain⟩ := (main_isSome_iff hread hts hpay).mpr ⟨hne, hconf⟩
    exact ⟨c, hmain, (main_spec hmain).1.ndgrams, main_nrec hmain hts hpay⟩

end AsconDtls.Tools.WireCheck
