import AsconDtls.Tools.WireCheck

/-!
# The captures on which the wire checker is sound

The loop stops when fewer than thirteen bytes are left, never reads the length field of a unified
header, and asks for an earlier ServerHello only where a unified header opens its datagram.  A
`Payload` is a datagram as the rules have it.

* `accepted_suffixes`: on such a datagram the loop counts exactly its records.
* `payload_of_accepted`: the other way round, an accepted walk that covers the datagram and whose
  length fields are right comes from one.
* `sound_iff`: so the verdict is sound exactly for captures of such datagrams.
* `strictlySound_iff`: so it is where a capture without a ServerHello is held to the rules too.
* `unsound`: a capture of one short datagram passes.
-/

namespace AsconDtls.Tools.WireCheck

open LittleEndian

/-! ### The rules -/

/-- The length field of a unified header that has one. -/
def lenField (s : List Byte) : Nat := big (slice s (hdr s - 2) (hdr s))

/-- How far a record reaches: without a length field a protected record fills its datagram. -/
def recLen (s : List Byte) : Nat :=
  if isPlain s then 13 + rlen s else if lBit s then hdr s + lenField s else s.length

/-- The records counted, in capture order, each with what follows it in its datagram. -/
def records (xs : List Inspected) : List (List Byte) :=
  xs.flatMap fun x => x.offs.map fun off => x.dgram.drop off

/-- What the verdict is taken for.  At most one record is a ServerHello that is not a
HelloRetryRequest, by `plainBefore`. -/
structure Sound (ds : List (List Byte)) (xs : List Inspected) : Prop where
  payloads : xs.map Inspected.dgram = ds
  covered : ∀ x ∈ xs, ∀ i < x.dgram.length,
    ∃ off ∈ x.offs, off ≤ i ∧ i < off + recLen (x.dgram.drop off)
  unifiedAfter : (records xs).Pairwise fun u s =>
    isUnified u = true → isServerHello (record s) = false
  plainBefore : (records xs).Pairwise fun s r =>
    isServerHello (record s) = true → isPlain r = false
  lengthField : ∀ s ∈ records xs, isUnified s = true → lBit s = true →
    16 ≤ lenField s ∧ hdr s + lenField s ≤ s.length

def PlainRecord (r : List Byte) : Prop := isPlain r = true ∧ r.length = 13 + rlen r

def UnifiedRecord (u : List Byte) : Prop :=
  isUnified u = true ∧ 13 ≤ u.length ∧
    (lBit u = true → 16 ≤ lenField u ∧ u.length = hdr u + lenField u)

/-- A datagram as it should be: whole plaintext records, and then nothing or one protected record
that reaches to the end. -/
structure Payload where
  plain : List (List Byte)
  protectedPart : List Byte
  plain_ok : ∀ r ∈ plain, PlainRecord r
  protected_ok : protectedPart = [] ∨ UnifiedRecord protectedPart

def Payload.bytes (p : Payload) : List Byte := p.plain.flatten ++ p.protectedPart

/-- Captures of such datagrams in which no protected record behind a plaintext one comes before
the ServerHello. -/
def WellFormed (ds : List (List Byte)) : Prop :=
  ∃ ps : List Payload, ps.map Payload.bytes = ds ∧
    ps.Pairwise fun p q => p.plain ≠ [] → p.protectedPart ≠ [] →
      ∀ r ∈ q.plain, isServerHello r = false

/-! ### A record and what follows it -/

theorem slice_append {l m : List Byte} {i j : Nat} (h : j ≤ l.length) :
    slice (l ++ m) i j = slice l i j := by
  rw [slice, slice, List.take_append_of_le_length h]

theorem b0_append {l : List Byte} (h : 0 < l.length) (m : List Byte) : b0 (l ++ m) = b0 l := by
  simp only [b0, List.getD_eq_getElem?_getD, List.getElem?_append_left h]

theorem isPlain_append {l : List Byte} (h : 0 < l.length) (m : List Byte) :
    isPlain (l ++ m) = isPlain l := by
  rw [isPlain, isPlain, b0_append h]

theorem rlen_append {l : List Byte} (h : 13 ≤ l.length) (m : List Byte) :
    rlen (l ++ m) = rlen l := by
  rw [rlen, rlen, slice_append h]

theorem PlainRecord.thirteen_le {r : List Byte} (h : PlainRecord r) : 13 ≤ r.length := by
  have hlen := h.2
  omega

theorem PlainRecord.isPlain_append {r : List Byte} (h : PlainRecord r) (m : List Byte) :
    isPlain (r ++ m) = true := by
  have hpos := h.thirteen_le
  rw [WireCheck.isPlain_append (by omega)]
  exact h.1

theorem UnifiedRecord.ne_nil {u : List Byte} (h : UnifiedRecord u) : u ≠ [] := by
  have hthirteen := h.2.1
  rintro rfl
  exact absurd hthirteen (by decide)

theorem record_append {r : List Byte} (h : PlainRecord r) (m : List Byte) :
    record (r ++ m) = r := by
  have hlen := h.2
  rw [record, rlen_append h.thirteen_le, List.take_append_of_le_length (by omega),
    List.take_of_length_le (by omega)]

/-- The first byte tells plaintext records and unified headers apart. -/
theorem isUnified_of_isPlain {s : List Byte} (h : isPlain s = true) : isUnified s = false := by
  simp only [isPlain, Bool.or_eq_true, decide_eq_true_eq] at h
  rcases h with (h | h) | h <;> simp [isUnified, h]

theorem isPlain_of_isUnified {s : List Byte} (h : isUnified s = true) : isPlain s = false := by
  by_contra hplain
  rw [isUnified_of_isPlain ((Bool.not_eq_false _).mp hplain)] at h
  cases h

/-- A ServerHello is a plaintext record. -/
theorem isPlain_of_isServerHello {s : List Byte} (h : isServerHello (record s) = true) :
    isPlain s = true := by
  simp only [isServerHello, isHandshake, Bool.and_eq_true, decide_eq_true_eq] at h
  obtain ⟨⟨⟨hb0, -⟩, -⟩, -⟩ := h
  have hsame : b0 (record s) = b0 s := by
    rw [b0, b0, record, List.getD_eq_getElem?_getD, List.getElem?_take_of_lt (by omega),
      List.getD_eq_getElem?_getD]
  simp [isPlain, ← hsame, hb0]

theorem not_isServerHello {s : List Byte} (h : isPlain s = false) :
    isServerHello (record s) = false := by
  by_contra hhello
  have hplain := isPlain_of_isServerHello ((Bool.not_eq_false _).mp hhello)
  rw [h] at hplain
  cases hplain

theorem plainRecord_record {s : List Byte} (h : isPlain s = true)
    (hlen : (record s).length = 13 + rlen s) : PlainRecord (record s) := by
  have hsplit : record s ++ s.drop (13 + rlen s) = s := List.take_append_drop _ s
  have hplain := isPlain_append (show 0 < (record s).length by omega) (s.drop (13 + rlen s))
  have hrlen := rlen_append (show 13 ≤ (record s).length by omega) (s.drop (13 + rlen s))
  rw [hsplit] at hplain hrlen
  exact ⟨hplain ▸ h, hrlen ▸ hlen⟩

/-! ### Walks and datagrams -/

/-- The records of a datagram, each with what follows it. -/
def suffixes : List (List Byte) → List Byte → List (List Byte)
  | [], u => if u = [] then [] else [u]
  | r :: rs, u => (r ++ (rs.flatten ++ u)) :: suffixes rs u

theorem suffixes_nil {u : List Byte} (h : u ≠ []) : suffixes [] u = [u] := if_neg h

/-- The bytes of a datagram that has not been walked over. -/
theorem drop_flatten {dgram r m : List Byte} {off : Nat} (h : dgram.drop off = r ++ m) :
    dgram.drop (off + r.length) = m := by
  rw [← List.drop_drop, h, List.drop_left]

theorem recLen_unified {u : List Byte} (h : UnifiedRecord u) : recLen u = u.length := by
  obtain ⟨hunified, -, hfield⟩ := h
  rw [recLen, if_neg (by rw [isPlain_of_isUnified hunified]; exact Bool.false_ne_true)]
  split
  · next hl => exact (hfield hl).2.symm
  · rfl

/-- On a datagram as it should be, an accepted walk counts its records and nothing else, and
they cover it. -/
theorem accepted_suffixes {dgram : List Byte} {off : Nat} {first seenSh seenSh' : Bool}
    {offs : List Nat} (h : Accepted dgram off first seenSh offs seenSh') {plain : List (List Byte)}
    {u : List Byte} (hplain : ∀ r ∈ plain, PlainRecord r) (hu : u = [] ∨ UnifiedRecord u)
    (hdgram : dgram.drop off = plain.flatten ++ u) :
    offs.map (fun o => dgram.drop o) = suffixes plain u ∧
      ∀ i < dgram.length, off ≤ i → ∃ o ∈ offs, o ≤ i ∧ i < o + recLen (dgram.drop o) := by
  have hlen : (dgram.drop off).length = dgram.length - off := List.length_drop
  induction h generalizing plain with
  | done hoff =>
      cases plain with
      | nil =>
          rw [hdgram, List.flatten_nil, List.nil_append] at hlen
          rcases hu with rfl | ⟨-, hthirteen, -⟩
          · refine ⟨rfl, fun i hi hoffi => ?_⟩
            rw [List.length_nil] at hlen
            omega
          · omega
      | cons r plain =>
          have hthirteen := (hplain r List.mem_cons_self).thirteen_le
          rw [hdgram, List.flatten_cons, List.length_append, List.length_append] at hlen
          omega
  | @plain off first offs seenSh hoff hfirst hwhole hrest ih =>
      cases plain with
      | nil =>
          rw [List.flatten_nil, List.nil_append] at hdgram
          rcases hu with rfl | ⟨hunified, -, -⟩
          · rw [hdgram, List.length_nil] at hlen
            omega
          · rw [hdgram, isPlain_of_isUnified hunified] at hfirst
            cases hfirst
      | cons r plain =>
          obtain ⟨hr, hplain⟩ := List.forall_mem_cons.mp hplain
          rw [List.flatten_cons, List.append_assoc] at hdgram
          have hnext : 13 + rlen (dgram.drop off) = r.length := by
            rw [hdgram, rlen_append hr.thirteen_le]
            exact hr.2.symm
          obtain ⟨hsuffixes, hcover⟩ :=
            ih hplain (by rw [hnext]; exact drop_flatten hdgram) List.length_drop
          refine ⟨by rw [List.map_cons, suffixes, hdgram, hsuffixes], fun i hi hoffi => ?_⟩
          by_cases hhere : i < off + (13 + rlen (dgram.drop off))
          · exact ⟨off, List.mem_cons_self, hoffi, by rwa [recLen, if_pos hfirst]⟩
          · obtain ⟨o, ho, hoi, hio⟩ := hcover i hi (by omega)
            exact ⟨o, List.mem_cons_of_mem _ ho, hoi, hio⟩
  | @unified off first seenSh hoff hfirst hunified =>
      cases plain with
      | nil =>
          rw [List.flatten_nil, List.nil_append] at hdgram
          rcases hu with rfl | hu
          · rw [hdgram, List.length_nil] at hlen
            omega
          · refine ⟨?_, fun i hi hoffi => ⟨off, List.mem_singleton_self off, hoffi, ?_⟩⟩
            · rw [List.map_singleton, hdgram, suffixes_nil hu.ne_nil]
            · rw [← hdgram] at hu
              rw [recLen_unified hu, hlen]
              omega
      | cons r plain =>
          have hr := hplain r List.mem_cons_self
          rw [List.flatten_cons, List.append_assoc] at hdgram
          rw [hdgram, hr.isPlain_append] at hfirst
          cases hfirst

/-- A walk that covers what is left, with right length fields, comes from such a datagram. -/
theorem plain_of_accepted {dgram : List Byte} {off : Nat} {first seenSh seenSh' : Bool}
    {offs : List Nat} (h : Accepted dgram off first seenSh offs seenSh')
    (hcover : ∀ i < dgram.length, off ≤ i →
      ∃ o ∈ offs, o ≤ i ∧ i < o + recLen (dgram.drop o))
    (hfield : ∀ o ∈ offs, isUnified (dgram.drop o) = true → lBit (dgram.drop o) = true →
      16 ≤ lenField (dgram.drop o) ∧
        hdr (dgram.drop o) + lenField (dgram.drop o) ≤ (dgram.drop o).length) :
    ∃ (plain : List (List Byte)) (u : List Byte),
      (∀ r ∈ plain, PlainRecord r) ∧ (u = [] ∨ UnifiedRecord u) ∧
      dgram.drop off = plain.flatten ++ u := by
  induction h with
  | @done off first seenSh hoff =>
      by_cases hend : dgram.length ≤ off
      · exact ⟨[], [], by simp, Or.inl rfl, List.drop_of_length_le hend⟩
      · obtain ⟨o, ho, -⟩ := hcover off (by omega) (Nat.le_refl off)
        cases ho
  | @plain off first offs seenSh hoff hfirst hwhole hrest ih =>
      have hr := plainRecord_record hfirst hwhole
      have hlen : 13 + rlen (dgram.drop off) ≤ (dgram.drop off).length := by
        rw [← hwhole, record]
        exact List.length_take_le' _ _
      rw [List.length_drop] at hlen
      have hrestCover : ∀ i < dgram.length, off + (13 + rlen (dgram.drop off)) ≤ i →
          ∃ o ∈ offs, o ≤ i ∧ i < o + recLen (dgram.drop o) := by
        intro i hi hoffi
        obtain ⟨o, ho, hoi, hio⟩ := hcover i hi (by omega)
        rcases List.mem_cons.mp ho with rfl | ho
        · rw [recLen, if_pos hfirst] at hio
          omega
        · exact ⟨o, ho, hoi, hio⟩
      obtain ⟨plain, u, hplain, hu, hdgram⟩ :=
        ih hrestCover fun o ho => hfield o (List.mem_cons_of_mem _ ho)
      refine ⟨record (dgram.drop off) :: plain, u, List.forall_mem_cons.mpr ⟨hr, hplain⟩, hu, ?_⟩
      rw [List.flatten_cons, List.append_assoc, ← hdgram, ← List.drop_drop, record,
        List.take_append_drop]
  | @unified off first seenSh hoff hfirst hunified hseen =>
      refine ⟨[], dgram.drop off, by simp, Or.inr ⟨hunified, ?_, fun hl => ?_⟩, rfl⟩
      · rw [List.length_drop]
        omega
      · obtain ⟨hsixteen, hfits⟩ := hfield off (List.mem_singleton_self _) hunified hl
        refine ⟨hsixteen, ?_⟩
        -- the last byte is covered too
        obtain ⟨o, ho, -, hlast⟩ := hcover (dgram.length - 1) (by omega) (by omega)
        obtain rfl := List.mem_singleton.mp ho
        rw [recLen, if_neg (by rw [hfirst]; exact Bool.false_ne_true), if_pos hl] at hlast
        rw [List.length_drop] at hfits ⊢
        omega

/-! ### The ServerHello -/

/-- Once it has been seen, no plaintext record passes. -/
theorem Accepted.after {dgram : List Byte} {off : Nat} {first seenSh : Bool} {offs : List Nat}
    (h : Accepted dgram off first true offs seenSh) :
    seenSh = true ∧ ∀ o ∈ offs, isPlain (dgram.drop o) = false := by
  cases h with
  | done hoff => exact ⟨rfl, by simp⟩
  | unified hoff hplain hunified hfirst => exact ⟨rfl, by simpa using hplain⟩

/-- Where a unified header opens its datagram it has been seen. -/
theorem Accepted.opened {dgram : List Byte} {off : Nat} {seenSh seenSh' : Bool} {offs : List Nat}
    (h : Accepted dgram off true seenSh offs seenSh') (hu : UnifiedRecord (dgram.drop off)) :
    seenSh = true := by
  cases h with
  | done hoff =>
      have hthirteen := hu.2.1
      rw [List.length_drop] at hthirteen
      omega
  | plain hoff hplain hwhole hrest =>
      rw [isPlain_of_isUnified hu.1] at hplain
      cases hplain
  | unified hoff hplain hunified hfirst => exact hfirst rfl

theorem Accepted.serverHello {dgram : List Byte} {off : Nat} {first seenSh seenSh' : Bool}
    {offs : List Nat} (h : Accepted dgram off first seenSh offs seenSh') :
    ((offs.map fun o => dgram.drop o).Pairwise fun s r =>
        isServerHello (record s) = true → isPlain r = false) ∧
      ((∃ o ∈ offs, isServerHello (record (dgram.drop o)) = true) → seenSh' = true) := by
  induction h with
  | done hoff => simp
  | @plain off first offs seenSh hoff hfirst hwhole hrest ih =>
      obtain ⟨hpairs, hseen⟩ := ih
      refine ⟨List.pairwise_cons.mpr ⟨?_, hpairs⟩, ?_⟩
      · intro r hr hhello
        obtain ⟨o, ho, rfl⟩ := List.mem_map.mp hr
        rw [hhello] at hrest
        exact hrest.after.2 o ho
      · rintro ⟨o, ho, hhello⟩
        rcases List.mem_cons.mp ho with rfl | ho
        · rw [hhello] at hrest
          exact hrest.after.1
        · exact hseen ⟨o, ho, hhello⟩
  | @unified off first seenSh hoff hfirst hunified hseen =>
      refine ⟨List.pairwise_singleton _ _, ?_⟩
      rintro ⟨o, ho, hhello⟩
      obtain rfl := List.mem_singleton.mp ho
      rw [isPlain_of_isServerHello hhello] at hfirst
      cases hfirst

theorem records_cons (x : Inspected) (xs : List Inspected) :
    records (x :: xs) = (x.offs.map fun o => x.dgram.drop o) ++ records xs := List.flatMap_cons

theorem AcceptedAll.after {seenSh : Bool} {xs : List Inspected} (h : AcceptedAll true xs seenSh) :
    ∀ s ∈ records xs, isPlain s = false := by
  generalize hstart : true = start at h
  induction h with
  | nil => simp [records]
  | cons hx hxs ih =>
      subst hstart
      obtain ⟨rfl, hplain⟩ := hx.after
      intro s hs
      rw [records_cons] at hs
      rcases List.mem_append.mp hs with hs | hs
      · obtain ⟨o, ho, rfl⟩ := List.mem_map.mp hs
        exact hplain o ho
      · exact ih rfl s hs

/-- In a capture that passes, no plaintext record comes after the ServerHello. -/
theorem AcceptedAll.plainBefore {seenSh seenSh' : Bool} {xs : List Inspected}
    (h : AcceptedAll seenSh xs seenSh') :
    (records xs).Pairwise fun s r => isServerHello (record s) = true → isPlain r = false := by
  induction h with
  | nil => exact List.Pairwise.nil
  | cons hx hxs ih =>
      obtain ⟨hpairs, hseen⟩ := hx.serverHello
      rw [records_cons, List.pairwise_append]
      refine ⟨hpairs, ih, ?_⟩
      intro s hs r hr hhello
      obtain ⟨o, ho, rfl⟩ := List.mem_map.mp hs
      rw [hseen ⟨o, ho, hhello⟩] at hxs
      exact hxs.after r hr

/-! ### Captures of such datagrams -/

def Payload.suffixes (p : Payload) : List (List Byte) := WireCheck.suffixes p.plain p.protectedPart

theorem mem_suffixes {plain : List (List Byte)} {u s : List Byte} (h : s ∈ suffixes plain u) :
    s = u ∧ u ≠ [] ∨ ∃ r ∈ plain, ∃ m, s = r ++ m := by
  induction plain with
  | nil =>
      rw [suffixes] at h
      split at h
      · cases h
      · next hne => exact Or.inl ⟨List.mem_singleton.mp h, hne⟩
  | cons r plain ih =>
      rcases List.mem_cons.mp h with rfl | h
      · exact Or.inr ⟨r, List.mem_cons_self, _, rfl⟩
      · rcases ih h with hu | ⟨r', hr', hm⟩
        · exact Or.inl hu
        · exact Or.inr ⟨r', List.mem_cons_of_mem _ hr', hm⟩

theorem protected_mem_suffixes {plain : List (List Byte)} {u : List Byte} (h : u ≠ []) :
    u ∈ suffixes plain u := by
  induction plain with
  | nil => rw [suffixes_nil h]; exact List.mem_singleton_self u
  | cons r plain ih => exact List.mem_cons_of_mem _ ih

theorem plain_mem_suffixes {plain : List (List Byte)} (u : List Byte) {r : List Byte}
    (h : r ∈ plain) : ∃ m, r ++ m ∈ suffixes plain u := by
  induction plain with
  | nil => cases h
  | cons r' plain ih =>
      rcases List.mem_cons.mp h with rfl | h
      · exact ⟨_, List.mem_cons_self⟩
      · obtain ⟨m, hm⟩ := ih h
        exact ⟨m, List.mem_cons_of_mem _ hm⟩

/-- A unified header among the records of a payload is its protected part. -/
theorem Payload.unified_eq {p : Payload} {s : List Byte} (h : s ∈ p.suffixes)
    (hunified : isUnified s = true) : s = p.protectedPart ∧ UnifiedRecord s := by
  rcases mem_suffixes h with ⟨rfl, hne⟩ | ⟨r, hr, m, rfl⟩
  · exact ⟨rfl, p.protected_ok.resolve_left hne⟩
  · rw [isUnified_of_isPlain ((p.plain_ok r hr).isPlain_append m)] at hunified
    cases hunified

/-- A plaintext record among them is one of the plaintext records. -/
theorem Payload.plain_eq {p : Payload} {s : List Byte} (h : s ∈ p.suffixes)
    (hplain : isPlain s = true) : record s ∈ p.plain := by
  rcases mem_suffixes h with ⟨rfl, hne⟩ | ⟨r, hr, m, rfl⟩
  · rw [isPlain_of_isUnified (p.protected_ok.resolve_left hne).1] at hplain
    cases hplain
  · rwa [record_append (p.plain_ok r hr)]

/-- A capture of such datagrams that passes: the records counted are theirs. -/
theorem AcceptedAll.records_eq {seenSh seenSh' : Bool} {xs : List Inspected}
    (h : AcceptedAll seenSh xs seenSh') {ps : List Payload}
    (hps : ps.map Payload.bytes = xs.map Inspected.dgram) :
    records xs = ps.flatMap Payload.suffixes := by
  induction h generalizing ps with
  | nil =>
      obtain rfl := List.map_eq_nil_iff.mp hps
      rfl
  | cons hx hxs ih =>
      obtain ⟨p, ps, rfl, hp, hps⟩ := List.map_eq_cons_iff.mp hps
      rw [records_cons, List.flatMap_cons, ih hps]
      congr 1
      exact (accepted_suffixes hx p.plain_ok p.protected_ok (by rw [← hp]; rfl)).1

/-- Behind a datagram that a unified header opens there are no plaintext records. -/
theorem AcceptedAll.opened {seenSh seenSh' : Bool} {xs : List Inspected}
    (h : AcceptedAll seenSh xs seenSh') {ps : List Payload}
    (hps : ps.map Payload.bytes = xs.map Inspected.dgram) :
    ps.Pairwise fun p q => p.plain = [] → p.protectedPart ≠ [] →
      ∀ s ∈ q.suffixes, isPlain s = false := by
  induction h generalizing ps with
  | nil =>
      obtain rfl := List.map_eq_nil_iff.mp hps
      exact List.Pairwise.nil
  | @cons seenSh seenSh' seenSh'' x xs hx hxs ih =>
      obtain ⟨p, ps, rfl, hp, hps⟩ := List.map_eq_cons_iff.mp hps
      refine List.pairwise_cons.mpr ⟨?_, ih hps⟩
      intro q hq hempty hne s hs
      have hdgram : x.dgram.drop 0 = p.protectedPart := by
        rw [List.drop_zero, ← hp, Payload.bytes, hempty]
        rfl
      have hrecord := p.protected_ok.resolve_left hne
      rw [← hdgram] at hrecord
      obtain rfl := hx.opened hrecord
      obtain ⟨rfl, -⟩ := hx.after
      have hafter := hxs.after
      rw [hxs.records_eq hps] at hafter
      exact hafter s (List.mem_flatMap.mpr ⟨q, hq, hs⟩)

/-! ### Soundness -/

/-- The protected part is the last record of its datagram. -/
theorem suffixes_pairwise {plain : List (List Byte)} (u : List Byte)
    (hplain : ∀ r ∈ plain, PlainRecord r) :
    (suffixes plain u).Pairwise fun u s =>
      isUnified u = true → isServerHello (record s) = false := by
  induction plain with
  | nil =>
      rw [suffixes]
      split
      · exact List.Pairwise.nil
      · exact List.pairwise_singleton _ _
  | cons r plain ih =>
      obtain ⟨hr, hplain⟩ := List.forall_mem_cons.mp hplain
      refine List.pairwise_cons.mpr ⟨?_, ih hplain⟩
      intro s _ hunified
      rw [isUnified_of_isPlain (hr.isPlain_append _)] at hunified
      cases hunified

theorem exists_payloads {ds : List (List Byte)} (h : ∀ d ∈ ds, ∃ p : Payload, p.bytes = d) :
    ∃ ps : List Payload, ps.map Payload.bytes = ds := by
  induction ds with
  | nil => exact ⟨[], rfl⟩
  | cons d ds ih =>
      obtain ⟨⟨p, rfl⟩, hds⟩ := List.forall_mem_cons.mp h
      obtain ⟨ps, rfl⟩ := ih hds
      exact ⟨p :: ps, rfl⟩

theorem AcceptedAll.mem {seenSh seenSh' : Bool} {xs : List Inspected}
    (h : AcceptedAll seenSh xs seenSh') {x : Inspected} (hx : x ∈ xs) :
    ∃ s s', Accepted x.dgram 0 true s x.offs s' := by
  induction h with
  | nil => cases hx
  | cons hy hys ih =>
      rcases List.mem_cons.mp hx with rfl | hx
      · exact ⟨_, _, hy⟩
      · exact ih hx

theorem mem_records {xs : List Inspected} {x : Inspected} (hx : x ∈ xs) {o : Nat}
    (ho : o ∈ x.offs) : x.dgram.drop o ∈ records xs :=
  List.mem_flatMap.mpr ⟨x, hx, List.mem_map_of_mem ho⟩

theorem wellFormed_of_sound {ds : List (List Byte)} {xs : List Inspected} {seenSh : Bool}
    (h : AcceptedAll false xs seenSh) (hsound : Sound ds xs) : WellFormed ds := by
  have hpayload : ∀ d ∈ ds, ∃ p : Payload, p.bytes = d := by
    intro d hd
    rw [← hsound.payloads] at hd
    obtain ⟨x, hx, rfl⟩ := List.mem_map.mp hd
    obtain ⟨s, s', hacc⟩ := h.mem hx
    obtain ⟨plain, u, hplain, hu, hdgram⟩ := plain_of_accepted hacc
      (fun i hi _ => hsound.covered x hx i hi)
      (fun o ho => hsound.lengthField _ (mem_records hx ho))
    exact ⟨⟨plain, u, hplain, hu⟩, hdgram.symm⟩
  obtain ⟨ps, hps⟩ := exists_payloads hpayload
  refine ⟨ps, hps, ?_⟩
  have hafter := hsound.unifiedAfter
  rw [h.records_eq (hps.trans hsound.payloads.symm), List.pairwise_flatMap] at hafter
  refine hafter.2.imp fun {p q} hpq _ hne r hr => ?_
  have hrecord := p.protected_ok.resolve_left hne
  obtain ⟨m, hm⟩ := plain_mem_suffixes q.protectedPart hr
  have hno := hpq _ (protected_mem_suffixes hne) _ hm hrecord.1
  rwa [record_append (q.plain_ok r hr)] at hno

theorem sound_of_wellFormed {ds : List (List Byte)} {xs : List Inspected} {seenSh : Bool}
    (h : AcceptedAll false xs seenSh) (hxs : xs.map Inspected.dgram = ds) (hds : WellFormed ds) :
    Sound ds xs := by
  obtain ⟨ps, hps, hbefore⟩ := hds
  have hpsxs := hps.trans hxs.symm
  have hrecords := h.records_eq hpsxs
  refine ⟨hxs, ?_, ?_, h.plainBefore, ?_⟩
  · intro x hx i hi
    obtain ⟨p, -, hp⟩ := List.mem_map.mp (hps ▸ hxs ▸ List.mem_map_of_mem hx)
    obtain ⟨s, s', hacc⟩ := h.mem hx
    have hcover := (accepted_suffixes hacc p.plain_ok p.protected_ok (by rw [← hp]; rfl)).2
    exact hcover i hi (Nat.zero_le i)
  · rw [hrecords, List.pairwise_flatMap]
    constructor
    · exact fun p _ => suffixes_pairwise p.protectedPart p.plain_ok
    · refine (hbefore.and (h.opened hpsxs)).imp ?_
      rintro p q ⟨hbehind, hopened⟩ u hu s hs hunified
      by_contra hhello
      rw [Bool.not_eq_false] at hhello
      have hplain := isPlain_of_isServerHello hhello
      obtain ⟨rfl, hrecord⟩ := p.unified_eq hu hunified
      by_cases hempty : p.plain = []
      · rw [hopened hempty hrecord.ne_nil s hs] at hplain
        cases hplain
      · rw [hbehind hempty hrecord.ne_nil _ (Payload.plain_eq hs hplain)] at hhello
        cases hhello
  · intro s hs hunified hl
    rw [hrecords] at hs
    obtain ⟨p, -, hs⟩ := List.mem_flatMap.mp hs
    obtain ⟨hsixteen, hlength⟩ := (p.unified_eq hs hunified).2.2.2 hl
    exact ⟨hsixteen, by omega⟩

/-- A pass means what it is taken for exactly when every payload of the capture is a row of whole
plaintext records with nothing or one filling protected record behind them, and none with both
comes before the ServerHello. -/
theorem sound_iff {file : List Byte} {c : Check} (h : main file = .ok c) :
    Sound (payloads file) c.inspected ↔ WellFormed (payloads file) := by
  obtain ⟨hinv, -⟩ := main_spec h
  exact ⟨wellFormed_of_sound hinv.accepted, sound_of_wellFormed hinv.accepted hinv.payloads⟩

/-! ### Captures without a ServerHello -/

/-- Every protected record has a ServerHello before it; `seen` says that one came earlier. -/
def HelloFirst : Bool → List (List Byte) → Prop
  | _, [] => True
  | seen, s :: rs =>
    (isUnified s = true → seen = true) ∧ HelloFirst (seen || isServerHello (record s)) rs

/-- Also where the capture has no ServerHello, of which `Sound` says nothing. -/
structure StrictlySound (ds : List (List Byte)) (xs : List Inspected) : Prop
    extends Sound ds xs where
  helloFirst : HelloFirst false (records xs)

theorem helloFirst_true (rs : List (List Byte)) : HelloFirst true rs := by
  induction rs with
  | nil => trivial
  | cons s rs ih => exact ⟨fun _ => rfl, ih⟩

/-- With a ServerHello in the capture this is nothing new. -/
theorem helloFirst_of_pairwise {rs : List (List Byte)}
    (h : rs.Pairwise fun u s => isUnified u = true → isServerHello (record s) = false)
    (hhello : ∃ s ∈ rs, isServerHello (record s) = true) : HelloFirst false rs := by
  induction rs with
  | nil =>
      obtain ⟨s, hs, -⟩ := hhello
      cases hs
  | cons t rs ih =>
      obtain ⟨hhead, hrest⟩ := List.pairwise_cons.mp h
      obtain ⟨s, hs, hsHello⟩ := hhello
      by_cases ht : isServerHello (record t) = true
      · refine ⟨fun hunified => ?_, by rw [ht]; exact helloFirst_true rs⟩
        rw [not_isServerHello (isPlain_of_isUnified hunified)] at ht
        cases ht
      · have hmem : s ∈ rs := by
          rcases List.mem_cons.mp hs with rfl | hs
          · exact absurd hsHello ht
          · exact hs
        refine ⟨fun hunified => ?_, ?_⟩
        · rw [hhead s hmem hunified] at hsHello
          cases hsHello
        · rw [(Bool.not_eq_true _).mp ht]
          exact ih hrest ⟨s, hmem, hsHello⟩

theorem Sound.strictly {ds : List (List Byte)} {xs : List Inspected} (h : Sound ds xs)
    (hhello : ∃ s ∈ records xs, isServerHello (record s) = true) : StrictlySound ds xs :=
  { h with helloFirst := helloFirst_of_pairwise h.unifiedAfter hhello }

theorem helloFirst_append {seen : Bool} {rs rs' : List (List Byte)} :
    HelloFirst seen (rs ++ rs') ↔ HelloFirst seen rs ∧
      HelloFirst (seen || rs.any fun s => isServerHello (record s)) rs' := by
  induction rs generalizing seen with
  | nil => simp [HelloFirst]
  | cons s rs ih =>
      simp only [List.cons_append, HelloFirst, ih, List.any_cons, Bool.or_assoc, and_assoc]

def Payload.hello (p : Payload) : Bool := p.plain.any isServerHello

/-- No protected part stands behind plaintext records unless a ServerHello comes in them or
before. -/
def HelloBehind : Bool → List Payload → Prop
  | _, [] => True
  | seen, p :: ps =>
    (p.plain ≠ [] → p.protectedPart ≠ [] → (seen || p.hello) = true) ∧
      HelloBehind (seen || p.hello) ps

/-- The ServerHello of a datagram and its protected part. -/
theorem suffixes_hello {plain : List (List Byte)} {u : List Byte}
    (hplain : ∀ r ∈ plain, PlainRecord r) (hu : u = [] ∨ UnifiedRecord u) :
    ((suffixes plain u).any fun s => isServerHello (record s)) = plain.any isServerHello ∧
      ∀ seen, HelloFirst seen (suffixes plain u) ↔
        (u ≠ [] → (seen || plain.any isServerHello) = true) := by
  induction plain with
  | nil =>
      by_cases hne : u = []
      · simp [suffixes, hne, HelloFirst]
      · have hunified := (hu.resolve_left hne).1
        have hno := not_isServerHello (isPlain_of_isUnified hunified)
        simp [suffixes_nil hne, HelloFirst, hunified, hno, hne]
  | cons r plain ih =>
      obtain ⟨hr, hplain⟩ := List.forall_mem_cons.mp hplain
      obtain ⟨hany, hfirst⟩ := ih hplain
      have hnot : isUnified (r ++ (plain.flatten ++ u)) = false :=
        isUnified_of_isPlain (hr.isPlain_append _)
      refine ⟨?_, fun seen => ?_⟩
      · rw [suffixes, List.any_cons, record_append hr, hany, List.any_cons]
      · rw [suffixes, HelloFirst, record_append hr, hfirst, hnot, List.any_cons, Bool.or_assoc]
        simp

/-- What the script knows after a datagram. -/
theorem Accepted.seen_eq {dgram : List Byte} {off : Nat} {first seenSh seenSh' : Bool}
    {offs : List Nat} (h : Accepted dgram off first seenSh offs seenSh') :
    seenSh' = (seenSh || (offs.map fun o => dgram.drop o).any fun s => isServerHello (record s)) := by
  induction h with
  | done hoff => simp
  | @plain off first offs seenSh hoff hfirst hwhole hrest ih =>
      rw [ih, List.map_cons, List.any_cons, Bool.false_or]
  | @unified off first seenSh hoff hfirst hunified hseen =>
      simp [not_isServerHello hfirst]

theorem AcceptedAll.helloFirst_iff {seenSh seenSh' : Bool} {xs : List Inspected}
    (h : AcceptedAll seenSh xs seenSh') {ps : List Payload}
    (hps : ps.map Payload.bytes = xs.map Inspected.dgram) :
    HelloFirst seenSh (records xs) ↔ HelloBehind seenSh ps := by
  induction h generalizing ps with
  | nil =>
      obtain rfl := List.map_eq_nil_iff.mp hps
      exact Iff.rfl
  | @cons seenSh seenSh' seenSh'' x xs hx hxs ih =>
      obtain ⟨p, ps, rfl, hp, hps⟩ := List.map_eq_cons_iff.mp hps
      have hdgram : x.dgram.drop 0 = p.plain.flatten ++ p.protectedPart := by rw [← hp]; rfl
      have hsuffixes := (accepted_suffixes hx p.plain_ok p.protected_ok hdgram).1
      obtain ⟨hany, hfirst⟩ := suffixes_hello p.plain_ok p.protected_ok
      have hseen := hx.seen_eq
      rw [hsuffixes, hany] at hseen
      rw [records_cons, hsuffixes, helloFirst_append, hany, hfirst, ← hseen, ih hps, HelloBehind]
      change (_ → _) ∧ _ ↔ (_ → _ → (seenSh || p.plain.any isServerHello) = true) ∧
        HelloBehind (seenSh || p.plain.any isServerHello) ps
      rw [← hseen]
      refine and_congr_left fun _ => ⟨fun hne _ => hne, fun hboth hne => ?_⟩
      by_cases hempty : p.plain = []
      · rw [hempty, List.flatten_nil, List.nil_append] at hdgram
        have hrecord := p.protected_ok.resolve_left hne
        rw [← hdgram] at hrecord
        obtain rfl := hx.opened hrecord
        exact hx.after.1
      · exact hboth hempty hne

/-- A datagram with both parts leaves no room for a ServerHello. -/
theorem AcceptedAll.wellFormed {seenSh seenSh' : Bool} {xs : List Inspected}
    (h : AcceptedAll seenSh xs seenSh') {ps : List Payload}
    (hps : ps.map Payload.bytes = xs.map Inspected.dgram) (hbehind : HelloBehind seenSh ps) :
    ps.Pairwise fun p q => p.plain ≠ [] → p.protectedPart ≠ [] →
      ∀ r ∈ q.plain, isServerHello r = false := by
  induction h generalizing ps with
  | nil =>
      obtain rfl := List.map_eq_nil_iff.mp hps
      exact List.Pairwise.nil
  | @cons seenSh seenSh' seenSh'' x xs hx hxs ih =>
      obtain ⟨p, ps, rfl, hp, hps⟩ := List.map_eq_cons_iff.mp hps
      obtain ⟨hboth, hrest⟩ := hbehind
      have hdgram : x.dgram.drop 0 = p.plain.flatten ++ p.protectedPart := by rw [← hp]; rfl
      have hseen := hx.seen_eq
      rw [(accepted_suffixes hx p.plain_ok p.protected_ok hdgram).1,
        (suffixes_hello p.plain_ok p.protected_ok).1] at hseen
      change seenSh' = (seenSh || p.hello) at hseen
      rw [← hseen] at hboth hrest
      refine List.pairwise_cons.mpr ⟨fun q hq hne hne' r hr => ?_, ih hps hrest⟩
      have hxs' := hxs
      rw [hboth hne hne'] at hxs'
      obtain ⟨m, hm⟩ := plain_mem_suffixes q.protectedPart hr
      have hlater := hxs'.after
      rw [hxs.records_eq hps] at hlater
      have hplain := hlater _ (List.mem_flatMap.mpr ⟨q, hq, hm⟩)
      rw [(q.plain_ok r hr).isPlain_append] at hplain
      cases hplain

/-- Held to the rules also without a ServerHello, a pass means what it is taken for exactly when
every payload is such a row and no protected record stands behind plaintext ones before the
ServerHello has come. -/
theorem strictlySound_iff {file : List Byte} {c : Check} (h : main file = .ok c) :
    StrictlySound (payloads file) c.inspected ↔
      ∃ ps : List Payload, ps.map Payload.bytes = payloads file ∧ HelloBehind false ps := by
  obtain ⟨hinv, -⟩ := main_spec h
  constructor
  · intro hstrict
    obtain ⟨ps, hps, -⟩ := wellFormed_of_sound hinv.accepted hstrict.toSound
    have hpsxs := hps.trans hinv.payloads.symm
    exact ⟨ps, hps, (hinv.accepted.helloFirst_iff hpsxs).mp hstrict.helloFirst⟩
  · rintro ⟨ps, hps, hbehind⟩
    have hpsxs := hps.trans hinv.payloads.symm
    have hsound := sound_of_wellFormed hinv.accepted hinv.payloads
      ⟨ps, hps, hinv.accepted.wellFormed hpsxs hbehind⟩
    exact { hsound with helloFirst := (hinv.accepted.helloFirst_iff hpsxs).mpr hbehind }

/-! ### Two captures -/

/-- A capture of short UDP payloads. -/
def capture (ds : List (List Byte)) : List Byte :=
  [0xd4, 0xc3, 0xb2, 0xa1] ++ List.replicate 20 0 ++ ds.flatMap fun d =>
    List.replicate 8 0 ++ [BitVec.ofNat 8 (28 + d.length), 0, 0, 0, 0, 0, 0, 0] ++
      [0x45, 0, 0, 0, 0, 0, 0, 0, 64, 17, 0, 0, 127, 0, 0, 1, 127, 0, 0, 1] ++
      [0xc3, 0x50, 0x2b, 0x67, 0, BitVec.ofNat 8 (8 + d.length), 0, 0] ++ d

def serverHello : List Byte :=
  [22, 0xfe, 0xfd, 0, 0, 0, 0, 0, 0, 0, 0, 0, 46] ++ [2, 0, 0, 34, 0, 0, 0, 0, 0, 0, 0, 34] ++
    [0xfe, 0xfd] ++ List.replicate 32 0

def protectedRecord : List Byte := [0x2e, 0, 1, 0, 16] ++ List.replicate 16 0

/-- A ServerHello and then a protected record. -/
theorem sound_serverHello :
    ∃ c, main (capture [serverHello, protectedRecord]) = .ok c ∧
      Sound (payloads (capture [serverHello, protectedRecord])) c.inspected := by
  have hmain : main (capture [serverHello, protectedRecord]) =
      .ok ⟨true, 2, 2, [⟨serverHello, [0]⟩, ⟨protectedRecord, [0]⟩]⟩ := by decide +kernel
  have hpayloads : payloads (capture [serverHello, protectedRecord]) =
      [serverHello, protectedRecord] := by decide +kernel
  refine ⟨_, hmain, (sound_iff hmain).mpr ?_⟩
  have hhello : ∀ r ∈ [serverHello], PlainRecord r := by
    intro r hr
    obtain rfl := List.mem_singleton.mp hr
    exact ⟨by decide, by decide⟩
  have hprotected : UnifiedRecord protectedRecord :=
    ⟨by decide, by decide, fun _ => by decide⟩
  rw [hpayloads]
  refine ⟨[⟨[serverHello], [], hhello, Or.inl rfl⟩,
    ⟨[], protectedRecord, by simp, Or.inr hprotected⟩], by simp [Payload.bytes], ?_⟩
  simp

/-- A datagram of five bytes: no record of it is inspected, and all checks pass. -/
theorem unsound :
    ¬ ∀ (file : List Byte) (c : Check), main file = .ok c →
      Sound (payloads file) c.inspected := by
  intro h
  have hmain : main (capture [[0x2f, 0, 1, 0, 0]]) =
      .ok ⟨false, 1, 0, [⟨[0x2f, 0, 1, 0, 0], []⟩]⟩ := by decide +kernel
  obtain ⟨off, hoff, -⟩ := (h _ _ hmain).covered _ (List.mem_singleton_self _) 0 (by decide)
  cases hoff

end AsconDtls.Tools.WireCheck
