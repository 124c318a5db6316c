import AsconDtls.Lib.Pack
import AsconDtls.Tools.WireScan

/-!
# Captures of the same handshake in other fragments

A `Laid` item is a plaintext record with its number, a handshake message in fragments, or the end of
a datagram; two captures with the same items differ in the fragments of the messages and in the
record numbers.  The checker takes `message_seq` and the offset of a fragment for the
offset and the length, and it compares the first bytes of every fragment of a ServerHello with the
magic random, so its verdict is one about the fragments.

* `plainOk_fragment`, `isServerHello_fragment`: what it asks of a fragment.
* `scan_fate`: what becomes of an item while `seen_sh` is false.
* `refragmented_iff`: which captures get the same verdict.
* `alike_uncut`: those do where no message is cut.
* `verdict_changes`: a ServerHello in one and in two fragments does not.
-/

namespace AsconDtls.Tools.Refragment

open LittleEndian
open Pack
open WireCheck (b0 big capture Captures Check exists_tokens fragmentFits hrrRandom isHandshake
  isPlain isServerHello main main_scan NoRecord parseUdp payloadsOf payloadsOf_eq_nil plainOk
  PlainRecord readPcap record restOk rlen Scan scanPayloads_tokens scanToken scanTokens
  scanTokens_append slice Token ver)

/-! ### Messages and their fragments -/

/-- `msg_type`, `message_seq` and the body of a handshake message. -/
structure Message where
  mtype : Byte
  seq : Nat
  body : List Byte
  seq_lt : seq < 2 ^ 16
  body_lt : body.length < 2 ^ 24

/-- A HelloRetryRequest. -/
def Message.IsRetry (m : Message) : Prop := m.mtype = 2 ∧ slice m.body 2 34 = hrrRandom

/-- A fragment: its record number, its part of the body, and whether it opens a datagram. -/
structure Fragment where
  number : Nat
  data : List Byte
  opens : Bool
deriving DecidableEq

/-- The record of a fragment at the offset `off`. -/
def Message.fragment (m : Message) (off : Nat) (f : Fragment) : List Byte :=
  [22, 0xfe, 0xfd] ++ packBig 2 0 ++ packBig 6 f.number ++ packBig 2 (12 + f.data.length) ++
    ([m.mtype] ++ packBig 3 m.body.length ++ packBig 2 m.seq ++ packBig 3 off ++
      packBig 3 f.data.length) ++ f.data

/-- The fragments of a message, in order and one behind the other. -/
structure Split (m : Message) where
  fragments : List Fragment
  ne_nil : fragments ≠ []
  whole : fragments.flatMap Fragment.data = m.body
  fits : ∀ f ∈ fragments, 12 + f.data.length < 2 ^ 16

def Message.tokens (m : Message) (off : Nat) : List Fragment → List Token
  | [] => []
  | f :: fs =>
    (if f.opens then [.close []] else []) ++
      .record (m.fragment off f) :: m.tokens (off + f.data.length) fs

/-! ### Captures -/

/-- A plaintext record with another number. -/
def renumber (number : Nat) (r : List Byte) : List Byte := r.take 5 ++ packBig 6 number ++ r.drop 11

/-- What a capture is made of, as it stands in it. -/
inductive Laid
  | record (r : List Byte) (h : PlainRecord r) (number : Nat)
  | message (m : Message) (split : Split m)
  | close (rest : List Byte) (h : NoRecord rest)

/-- What a capture is made of, up to fragments and record numbers. -/
inductive Item
  | record (r : List Byte)
  | message (m : Message)
  | close (rest : List Byte)

namespace Laid

def item : Laid → Item
  | record r _ _ => .record r
  | message m _ => .message m
  | close rest _ => .close rest

def tokens : Laid → List Token
  | record r _ number => [.record (renumber number r)]
  | message m split => m.tokens 0 split.fragments
  | close rest _ => [.close rest]

/-- The datagram ends. -/
def closes : Laid → Bool
  | close _ _ => true
  | _ => false

end Laid

def tokensOf (l : List Laid) : List Token := l.flatMap Laid.tokens

/-- Whether `seen_sh` becomes true at one of the tokens. -/
def turned (c : Scan) : List Token → Bool
  | [] => false
  | t :: ts =>
    match scanToken c t with
    | none => false
    | some c' => (!c.seenSh && c'.seenSh) || turned c' ts

/-- The item at whose records `seen_sh` becomes true. -/
def helloAt (c : Scan) : List Laid → Option Nat
  | [] => none
  | x :: xs =>
    if turned c x.tokens then some 0
    else
      match scanTokens c x.tokens with
      | none => none
      | some c => (helloAt c xs).map (· + 1)

/-- The state at the start of a capture. -/
def Scan.start : Scan := ⟨true, false⟩

/-- The script passes both files or neither, and `seen_sh` becomes true in both at the records of
the same item, which is not a HelloRetryRequest. -/
structure SameVerdict (file file' : List Byte) (l l' : List Laid) : Prop where
  passes : (∃ c, main file = .ok c) ↔ ∃ c, main file' = .ok c
  hello : helloAt Scan.start l = helloAt Scan.start l'
  noRetry : ∀ i m, helloAt Scan.start l = some i → (l.map Laid.item)[i]? = some (.message m) →
    ¬ m.IsRetry

/-! ### What is asked of a fragment -/

/-- What the checker takes for the offset and for the length of a fragment. -/
def Message.readOff (m : Message) (off : Nat) : Nat := m.seq * 256 + off / 65536
def readLen (off len : Nat) : Nat := off % 65536 * 256 + len / 65536

/-- Its test of the fragment header. -/
def Message.admits (m : Message) (off len : Nat) : Bool :=
  decide (m.readOff off + readLen off len ≤ m.body.length)

/-- Its test for a ServerHello. -/
def Message.shows (m : Message) (data : List Byte) : Bool :=
  decide (m.mtype = 2) && !decide (slice data 2 34 = hrrRandom)

theorem length_fragment (m : Message) (off : Nat) (f : Fragment) :
    (m.fragment off f).length = 25 + f.data.length := by
  simp [Message.fragment]
  omega

theorem rlen_fragment (m : Message) (off : Nat) {f : Fragment} (h : 12 + f.data.length < 2 ^ 16) :
    rlen (m.fragment off f) = 12 + f.data.length := unpackBig_packBig (k := 2) h

theorem plainRecord_fragment (m : Message) (off : Nat) {f : Fragment}
    (h : 12 + f.data.length < 2 ^ 16) : PlainRecord (m.fragment off f) := by
  refine ⟨rfl, ?_⟩
  rw [rlen_fragment m off h, length_fragment]
  omega

theorem record_eq_self {r : List Byte} (h : PlainRecord r) : record r = r := by
  rw [record, ← h.2, List.take_length]

theorem isHandshake_fragment (m : Message) (off : Nat) (f : Fragment) :
    isHandshake (m.fragment off f) = true := by
  rw [isHandshake, length_fragment, decide_eq_true (Nat.le_add_right 25 _), Bool.and_true]
  rfl

/-- `rec[17:20]` is `message_seq` and the first byte of the offset, `rec[20:23]` the rest of the
offset and the first byte of the length. -/
theorem fragmentFits_fragment (m : Message) {off : Nat} {f : Fragment} (hoff : off < 2 ^ 24)
    (hlen : f.data.length < 2 ^ 24) :
    fragmentFits (m.fragment off f) = m.admits off f.data.length := by
  have hbody : big (slice (m.fragment off f) 14 17) = m.body.length :=
    unpackBig_packBig (k := 3) m.body_lt
  have hoffset : big (slice (m.fragment off f) 17 20) = m.readOff off := by
    show unpackBig (packBig 2 m.seq ++ [BitVec.ofNat 8 (off / 256 / 256)]) = _
    rw [unpackBig_concat, unpackBig_packBig m.seq_lt, BitVec.toNat_ofNat, Message.readOff]
    omega
  have hlength : big (slice (m.fragment off f) 20 23) = readLen off f.data.length := by
    show unpackBig (packBig 2 off ++ [BitVec.ofNat 8 (f.data.length / 256 / 256)]) = _
    rw [unpackBig_concat, unpackBig_packBig_mod, BitVec.toNat_ofNat, readLen]
    omega
  simp only [fragmentFits, hbody, hoffset, hlength, Message.admits]
  rw [← Bool.decide_and]
  exact decide_eq_decide.mpr (by omega)

/-- The test for the magic random looks at the first bytes of a fragment, whichever it is. -/
theorem isServerHello_fragment (m : Message) (off : Nat) (f : Fragment) :
    isServerHello (m.fragment off f) = m.shows f.data := by
  rw [isServerHello, isHandshake_fragment, Bool.true_and]
  rfl

theorem plainOk_fragment (m : Message) {off : Nat} {f : Fragment} (hoff : off < 2 ^ 24)
    (h : 12 + f.data.length < 2 ^ 16) :
    plainOk (m.fragment off f) = m.admits off f.data.length := by
  have hplain := plainRecord_fragment m off h
  have hver : ver (m.fragment off f) = [0xfe, 0xfd] := rfl
  rw [plainOk, record_eq_self hplain, decide_eq_true hver, decide_eq_true hplain.2,
    isHandshake_fragment, fragmentFits_fragment m hoff (by omega)]
  simp

/-! ### Records with another number -/

theorem renumber_low {r : List Byte} (h : 13 ≤ r.length) (number : Nat) :
    (renumber number r).take 5 = r.take 5 := by
  rw [renumber, List.append_assoc, List.take_left']
  rw [List.length_take]
  omega

theorem renumber_high {r : List Byte} (h : 13 ≤ r.length) (number : Nat) :
    (renumber number r).drop 11 = r.drop 11 := by
  rw [renumber, List.drop_left']
  rw [List.length_append, List.length_take, length_packBig]
  omega

theorem length_renumber {r : List Byte} (h : 13 ≤ r.length) (number : Nat) :
    (renumber number r).length = r.length := by
  rw [renumber, List.length_append, List.length_append, List.length_take, length_packBig,
    List.length_drop]
  omega

theorem slice_low (l : List Byte) {i j : Nat} (h : j ≤ 5) : slice l i j = slice (l.take 5) i j := by
  rw [slice, slice, List.take_take, Nat.min_eq_left h]

theorem slice_high (l : List Byte) {i j : Nat} (h : 11 ≤ i) :
    slice l i j = slice (l.drop 11) (i - 11) (j - 11) := by
  rw [slice, slice, ← List.drop_take, List.drop_drop]
  congr 1
  omega

/-- What the checker asks of a record does not depend on its number. -/
theorem renumber_same {r : List Byte} (h : PlainRecord r) (number : Nat) :
    PlainRecord (renumber number r) ∧ plainOk (renumber number r) = plainOk r ∧
      isServerHello (renumber number r) = isServerHello r := by
  have hlen := h.thirteen_le
  have hlow := renumber_low hlen number
  have hhigh := renumber_high hlen number
  have hslow : ∀ i j, j ≤ 5 → slice (renumber number r) i j = slice r i j := by
    intro i j hj
    rw [slice_low _ hj, hlow, ← slice_low r hj]
  have hshigh : ∀ i j, 11 ≤ i → slice (renumber number r) i j = slice r i j := by
    intro i j hi
    rw [slice_high _ hi, hhigh, ← slice_high r hi]
  have hb0 : b0 (renumber number r) = b0 r := by
    have hget : ∀ l : List Byte, b0 l = (l.take 5).getD 0 0 := by
      intro l
      cases l <;> rfl
    rw [hget, hlow, ← hget]
  have htype : (renumber number r).getD 13 0 = r.getD 13 0 := by
    have hget : ∀ l : List Byte, l.getD 13 0 = (l.drop 11).getD 2 0 := by
      intro l
      simp [List.getD_eq_getElem?_getD, List.getElem?_drop]
    rw [hget, hhigh, ← hget]
  have hrlen : rlen (renumber number r) = rlen r := by
    rw [rlen, rlen, hshigh 11 13 (Nat.le_refl 11)]
  have hplain : PlainRecord (renumber number r) := by
    refine ⟨?_, ?_⟩
    · rw [isPlain, hb0]
      exact h.1
    · rw [length_renumber hlen, hrlen]
      exact h.2
  have hhandshake : isHandshake (renumber number r) = isHandshake r := by
    rw [isHandshake, isHandshake, hb0, length_renumber hlen]
  refine ⟨hplain, ?_, ?_⟩
  · rw [plainOk, plainOk, record_eq_self hplain, record_eq_self h, hrlen, hhandshake, ver, ver,
      hslow 1 3 (by decide), length_renumber hlen]
    simp only [fragmentFits, hshigh 14 17 (by decide), hshigh 17 20 (by decide),
      hshigh 20 23 (by decide)]
  · rw [isServerHello, isServerHello, hhandshake, htype, hshigh (25 + 2) (25 + 2 + 32) (by decide)]

/-! ### What becomes of an item -/

/-- While `seen_sh` is false, the records of an item are all let through and none is taken for a
ServerHello, the last one is taken for one, one is refused, or one is taken for one and the next
is refused. -/
inductive Fate
  | quiet
  | hello
  | refused
  | helloRefused
deriving DecidableEq

def fragmentsFate (m : Message) (off : Nat) : List Fragment → Fate
  | [] => .quiet
  | f :: fs =>
    if !m.admits off f.data.length then .refused
    else if m.shows f.data then (if fs = [] then .hello else .helloRefused)
    else fragmentsFate m (off + f.data.length) fs

namespace Laid

def fate (first : Bool) : Laid → Fate
  | record r _ _ =>
    if !plainOk r then .refused else if isServerHello r then .hello else .quiet
  | message m split => fragmentsFate m 0 split.fragments
  | close rest _ => if restOk rest first false then .quiet else .refused

/-- What may come once `seen_sh` is true. -/
def late : Laid → Bool
  | close rest _ => restOk rest true true
  | _ => false

end Laid

/-- The state after an item of that fate. -/
def Fate.after (closes : Bool) : Fate → Option Scan
  | .quiet => some ⟨closes, false⟩
  | .hello => some ⟨closes, true⟩
  | .refused | .helloRefused => none

def Fate.turns : Fate → Bool
  | .quiet | .refused => false
  | .hello | .helloRefused => true

/-- A new datagram in front of a record changes nothing. -/
theorem scanTokens_opens (c : Scan) (opens : Bool) (r : List Byte) (ts : List Token) :
    scanTokens c ((if opens then [.close []] else []) ++ .record r :: ts) =
        scanTokens c (.record r :: ts) ∧
      turned c ((if opens then [.close []] else []) ++ .record r :: ts) =
        turned c (.record r :: ts) := by
  cases opens with
  | false => exact ⟨rfl, rfl⟩
  | true =>
      refine ⟨rfl, ?_⟩
      show ((!c.seenSh && c.seenSh) || turned ⟨true, c.seenSh⟩ (.record r :: ts)) = _
      rw [Bool.not_and_self, Bool.false_or]
      rfl

/-- Once `seen_sh` is true no record is let through. -/
theorem scanTokens_record_late (first : Bool) (r : List Byte) (ts : List Token) :
    scanTokens ⟨first, true⟩ (.record r :: ts) = none ∧
      turned ⟨first, true⟩ (.record r :: ts) = false := ⟨rfl, rfl⟩

theorem tokens_ne_nil (m : Message) (off : Nat) {fs : List Fragment} (h : fs ≠ []) (first : Bool) :
    scanTokens ⟨first, true⟩ (m.tokens off fs) = none ∧
      turned ⟨first, true⟩ (m.tokens off fs) = false := by
  cases fs with
  | nil => exact absurd rfl h
  | cons f fs =>
      obtain ⟨hscan, hturn⟩ := scanTokens_opens ⟨first, true⟩ f.opens (m.fragment off f)
        (m.tokens (off + f.data.length) fs)
      rw [Message.tokens, hscan, hturn]
      exact scanTokens_record_late first _ _

/-- By induction on the fragments: the next one is let through when its header is admitted, and
after one that shows a ServerHello no other is. -/
theorem scan_fragments (m : Message) {off : Nat} {fs : List Fragment}
    (hfits : ∀ f ∈ fs, 12 + f.data.length < 2 ^ 16)
    (hoff : off + (fs.flatMap Fragment.data).length < 2 ^ 24) (hne : fs ≠ []) (first : Bool) :
    scanTokens ⟨first, false⟩ (m.tokens off fs) = (fragmentsFate m off fs).after false ∧
      turned ⟨first, false⟩ (m.tokens off fs) = (fragmentsFate m off fs).turns := by
  induction fs generalizing off first with
  | nil => exact absurd rfl hne
  | cons f fs ih =>
      rw [List.flatMap_cons, List.length_append] at hoff
      have hok : plainOk (m.fragment off f) = m.admits off f.data.length :=
        plainOk_fragment m (by omega) (hfits f List.mem_cons_self)
      have hshow := isServerHello_fragment m off f
      obtain ⟨hscan, hturn⟩ := scanTokens_opens ⟨first, false⟩ f.opens (m.fragment off f)
        (m.tokens (off + f.data.length) fs)
      have htoken : scanToken ⟨first, false⟩ (.record (m.fragment off f)) =
          if m.admits off f.data.length then some ⟨false, m.shows f.data⟩ else none := by
        rw [scanToken, hok, hshow]
        rfl
      rw [Message.tokens, hscan, hturn, fragmentsFate, scanTokens, turned, htoken]
      cases m.admits off f.data.length with
      | false => exact ⟨rfl, rfl⟩
      | true =>
          cases hs : m.shows f.data with
          | true =>
              by_cases hfs : fs = []
              · subst hfs
                exact ⟨rfl, rfl⟩
              · obtain ⟨hlate, -⟩ := tokens_ne_nil m (off + f.data.length) hfs false
                rw [if_neg hfs]
                exact ⟨hlate, rfl⟩
          | false =>
              cases fs with
              | nil => exact ⟨rfl, rfl⟩
              | cons f' fs =>
                  exact ih (fun g hg => hfits g (List.mem_cons_of_mem _ hg)) (by omega)
                    (List.cons_ne_nil _ _) false

theorem scan_fate (x : Laid) (first : Bool) :
    scanTokens ⟨first, false⟩ x.tokens = (x.fate first).after x.closes ∧
      turned ⟨first, false⟩ x.tokens = (x.fate first).turns := by
  cases x with
  | record r h number =>
      obtain ⟨-, hok, hhello⟩ := renumber_same h number
      simp only [Laid.tokens, Laid.fate, scanTokens, turned, scanToken, hok, hhello]
      cases plainOk r with
      | false => exact ⟨rfl, rfl⟩
      | true => cases isServerHello r <;> exact ⟨rfl, rfl⟩
  | message m split =>
      refine scan_fragments m split.fits ?_ split.ne_nil first
      rw [split.whole]
      have := m.body_lt
      omega
  | close rest h =>
      simp only [Laid.tokens, Laid.fate, scanTokens, turned, scanToken]
      cases restOk rest first false with
      | false => exact ⟨rfl, rfl⟩
      | true => exact ⟨rfl, rfl⟩

theorem restOk_late (rest : List Byte) (first : Bool) :
    restOk rest first true = restOk rest true true := by
  simp only [restOk, WireCheck.unifiedOk, Bool.or_true]

theorem scan_late (x : Laid) (first : Bool) :
    scanTokens ⟨first, true⟩ x.tokens = (if x.late then some ⟨x.closes, true⟩ else none) ∧
      turned ⟨first, true⟩ x.tokens = false := by
  cases x with
  | record r h number => exact ⟨rfl, rfl⟩
  | message m split => exact tokens_ne_nil m 0 split.ne_nil first
  | close rest h =>
      have hlate : (Laid.close rest h).late = restOk rest first true :=
        (restOk_late rest first).symm
      rw [hlate]
      simp only [Laid.tokens, scanTokens, turned, scanToken]
      cases restOk rest first true with
      | false => exact ⟨rfl, rfl⟩
      | true => exact ⟨rfl, rfl⟩

/-! ### Two captures -/

/-- The first item that is not let through quietly is refused, before `seen_sh` becomes true. -/
def RefusedQuietly (first : Bool) : List Laid → Prop
  | [] => False
  | x :: xs =>
    match x.fate first with
    | .quiet => RefusedQuietly x.closes xs
    | .refused => True
    | .hello | .helloRefused => False

/-- The items of two captures, up to the first that is not let through quietly in both.  There,
the same becomes of it in both, or one is refused quietly there and the other later, or only one
is refused inside a ServerHello and the other behind it; and what is taken for a
ServerHello is no HelloRetryRequest. -/
def Alike (first : Bool) : List Laid → List Laid → Prop
  | x :: xs, x' :: xs' =>
    match x.fate first, x'.fate first with
    | .quiet, .quiet => Alike x.closes xs xs'
    | .refused, .refused => True
    | .hello, .hello => ∀ m, x.item = .message m → ¬ m.IsRetry
    | .helloRefused, .helloRefused => ∀ m, x.item = .message m → ¬ m.IsRetry
    | .hello, .helloRefused =>
      (∀ m, x.item = .message m → ¬ m.IsRetry) ∧ ∃ y ∈ xs, y.late = false
    | .helloRefused, .hello =>
      (∀ m, x.item = .message m → ¬ m.IsRetry) ∧ ∃ y ∈ xs', y.late = false
    | .quiet, .refused => RefusedQuietly x.closes xs
    | .refused, .quiet => RefusedQuietly x'.closes xs'
    | _, _ => False
  | _, _ => True

/-- The records of all items are let through. -/
def passes (c : Scan) (l : List Laid) : Bool := (scanTokens c (tokensOf l)).isSome

theorem passes_cons (c : Scan) (x : Laid) (xs : List Laid) :
    passes c (x :: xs) =
      match scanTokens c x.tokens with
      | none => false
      | some c => passes c xs := by
  rw [passes, tokensOf, List.flatMap_cons, scanTokens_append]
  cases scanTokens c x.tokens with
  | none => rfl
  | some c => rfl

theorem passes_late (first : Bool) (l : List Laid) :
    passes ⟨first, true⟩ l = l.all Laid.late := by
  induction l generalizing first with
  | nil => rfl
  | cons x xs ih =>
      rw [passes_cons, (scan_late x first).1, List.all_cons]
      cases x.late with
      | false => rfl
      | true => exact ih x.closes

theorem passes_fate (first : Bool) (x : Laid) (xs : List Laid) :
    passes ⟨first, false⟩ (x :: xs) =
      match x.fate first with
      | .quiet => passes ⟨x.closes, false⟩ xs
      | .hello => xs.all Laid.late
      | .refused | .helloRefused => false := by
  rw [passes_cons, (scan_fate x first).1]
  cases x.fate first with
  | quiet => rfl
  | hello => exact passes_late x.closes xs
  | refused => rfl
  | helloRefused => rfl

theorem helloAt_fate (first : Bool) (x : Laid) (xs : List Laid) :
    helloAt ⟨first, false⟩ (x :: xs) =
      match x.fate first with
      | .quiet => (helloAt ⟨x.closes, false⟩ xs).map (· + 1)
      | .hello | .helloRefused => some 0
      | .refused => none := by
  obtain ⟨hscan, hturn⟩ := scan_fate x first
  rw [helloAt, hscan, hturn]
  cases x.fate first <;> rfl

theorem refusedQuietly_iff (first : Bool) (l : List Laid) :
    RefusedQuietly first l ↔
      passes ⟨first, false⟩ l = false ∧ helloAt ⟨first, false⟩ l = none := by
  induction l generalizing first with
  | nil => simp [RefusedQuietly, passes, tokensOf, scanTokens]
  | cons x xs ih =>
      rw [RefusedQuietly, passes_fate, helloAt_fate]
      cases x.fate first with
      | quiet =>
          simp only [Option.map_eq_none_iff]
          exact ih x.closes
      | hello => simp
      | refused => simp
      | helloRefused => simp

/-- The second half of `SameVerdict`, from any item on. -/
structure SameHello (first : Bool) (l l' : List Laid) : Prop where
  passes : passes ⟨first, false⟩ l = passes ⟨first, false⟩ l'
  hello : helloAt ⟨first, false⟩ l = helloAt ⟨first, false⟩ l'
  noRetry : ∀ i m, helloAt ⟨first, false⟩ l = some i →
    (l.map Laid.item)[i]? = some (.message m) → ¬ m.IsRetry

theorem closes_congr {x x' : Laid} (h : x.item = x'.item) : x.closes = x'.closes := by
  cases x <;> cases x' <;> cases h <;> rfl

theorem late_congr {x x' : Laid} (h : x.item = x'.item) : x.late = x'.late := by
  cases x <;> cases x' <;> cases h <;> rfl

theorem all_late_congr {l l' : List Laid} (h : l.map Laid.item = l'.map Laid.item) :
    l.all Laid.late = l'.all Laid.late := by
  induction l generalizing l' with
  | nil =>
      cases l' with
      | nil => rfl
      | cons x' xs' => cases h
  | cons x xs ih =>
      cases l' with
      | nil => cases h
      | cons x' xs' =>
          obtain ⟨hx, hxs⟩ := List.cons.inj h
          rw [List.all_cons, List.all_cons, late_congr hx, ih hxs]

theorem all_late_eq_false {l : List Laid} : l.all Laid.late = false ↔ ∃ y ∈ l, y.late = false := by
  rw [List.all_eq_false]
  simp

theorem sameHello_def {first : Bool} {l l' : List Laid} :
    SameHello first l l' ↔
      Refragment.passes ⟨first, false⟩ l = Refragment.passes ⟨first, false⟩ l' ∧
      helloAt ⟨first, false⟩ l = helloAt ⟨first, false⟩ l' ∧
      ∀ i m, helloAt ⟨first, false⟩ l = some i →
        (l.map Laid.item)[i]? = some (.message m) → ¬ m.IsRetry :=
  ⟨fun ⟨hpass, hhello, hretry⟩ => ⟨hpass, hhello, hretry⟩,
    fun ⟨hpass, hhello, hretry⟩ => ⟨hpass, hhello, hretry⟩⟩

theorem noRetry_head {x : Laid} {xs : List Laid} :
    (∀ i m, some 0 = some i → ((x :: xs).map Laid.item)[i]? = some (.message m) → ¬ m.IsRetry) ↔
      ∀ m, x.item = .message m → ¬ m.IsRetry := by
  constructor
  · intro h m hm
    refine h 0 m rfl ?_
    rw [List.map_cons, List.getElem?_cons_zero, hm]
  · intro h i m hi hm
    obtain rfl := Option.some.inj hi
    exact h m (Option.some.inj hm)

theorem noRetry_tail {x : Laid} {xs : List Laid} {o : Option Nat} :
    (∀ i m, o.map (· + 1) = some i → ((x :: xs).map Laid.item)[i]? = some (.message m) →
        ¬ m.IsRetry) ↔
      ∀ i m, o = some i → (xs.map Laid.item)[i]? = some (.message m) → ¬ m.IsRetry := by
  constructor
  · rintro h i m rfl hm
    exact h (i + 1) m rfl hm
  · intro h i m hi hm
    obtain ⟨j, rfl, rfl⟩ := Option.map_eq_some_iff.mp hi
    exact h j m rfl hm

theorem map_succ_ne_some_zero (o : Option Nat) : ¬ o.map (· + 1) = some 0 := by
  cases o <;> simp

/-- By induction on the items, both captures with `seen_sh` false: they stay in the same state as
long as nothing comes of an item in either. -/
theorem sameHello_iff {first : Bool} {l l' : List Laid}
    (h : l.map Laid.item = l'.map Laid.item) : SameHello first l l' ↔ Alike first l l' := by
  induction l generalizing first l' with
  | nil =>
      cases l' with
      | cons x' xs' => cases h
      | nil =>
          refine ⟨fun _ => trivial, fun _ => ⟨rfl, rfl, ?_⟩⟩
          intro i m hi
          cases hi
  | cons x xs ih =>
      cases l' with
      | nil => cases h
      | cons x' xs' =>
          obtain ⟨hx, hxs⟩ := List.cons.inj h
          have hclosed := closes_congr hx
          have hlate := all_late_congr hxs
          have hnone : (∀ (i : Nat) (m : Message), none = some i →
              ((x :: xs).map Laid.item)[i]? = some (.message m) → ¬ m.IsRetry) ↔ True :=
            iff_true_intro fun i m hi => by cases hi
          rw [sameHello_def, passes_fate, passes_fate, helloAt_fate, helloAt_fate, Alike]
          cases x.fate first with
          | quiet =>
              cases x'.fate first with
              | quiet =>
                  have hrest : SameHello x.closes xs xs' ↔ Alike x.closes xs xs' := ih hxs
                  rw [sameHello_def] at hrest
                  simp only
                  rw [noRetry_tail, ← hrest, hclosed]
                  simp only [Option.map_inj_right (fun _ _ => Nat.succ.inj)]
              | hello => simp only [map_succ_ne_some_zero, false_and, and_false]
              | helloRefused => simp only [map_succ_ne_some_zero, false_and, and_false]
              | refused =>
                  simp only
                  rw [refusedQuietly_iff, Option.map_eq_none_iff]
                  refine and_congr_right fun _ => and_iff_left_of_imp fun hnot => ?_
                  rw [noRetry_tail, hnot]
                  intro i m hi
                  cases hi
          | hello =>
              cases x'.fate first with
              | quiet => simp only [eq_comm (a := some 0), map_succ_ne_some_zero, false_and,
                  and_false]
              | hello => simp only [hlate, true_and, noRetry_head]
              | helloRefused =>
                  simp only [true_and, noRetry_head, all_late_eq_false]
                  exact and_comm
              | refused => simp only [reduceCtorEq, false_and, and_false]
          | refused =>
              cases x'.fate first with
              | quiet =>
                  simp only [hnone, and_true]
                  rw [refusedQuietly_iff, eq_comm, @eq_comm _ none, Option.map_eq_none_iff]
              | hello => simp only [reduceCtorEq, false_and, and_false]
              | helloRefused => simp only [reduceCtorEq, false_and, and_false]
              | refused => simp only [true_and, hnone]
          | helloRefused =>
              cases x'.fate first with
              | quiet => simp only [eq_comm (a := some 0), map_succ_ne_some_zero, false_and,
                  and_false]
              | hello =>
                  simp only [eq_comm (a := false), true_and, noRetry_head, all_late_eq_false]
                  exact and_comm
              | helloRefused => simp only [true_and, noRetry_head]
              | refused => simp only [reduceCtorEq, false_and, and_false]

theorem whole_tokens (m : Message) (off : Nat) {fs : List Fragment}
    (h : ∀ f ∈ fs, 12 + f.data.length < 2 ^ 16) : ∀ t ∈ m.tokens off fs, t.Whole := by
  induction fs generalizing off with
  | nil => exact fun t ht => absurd ht List.not_mem_nil
  | cons f fs ih =>
      intro t ht
      rcases List.mem_append.mp ht with hopen | ht
      · split at hopen
        · obtain rfl := List.mem_singleton.mp hopen
          exact fun hrec => absurd hrec.1 (by decide)
        · exact absurd hopen List.not_mem_nil
      · rcases List.mem_cons.mp ht with rfl | ht
        · exact plainRecord_fragment m off (h f List.mem_cons_self)
        · exact ih _ (fun g hg => h g (List.mem_cons_of_mem _ hg)) t ht

theorem whole_tokensOf (l : List Laid) : ∀ t ∈ tokensOf l, t.Whole := by
  intro t ht
  obtain ⟨x, -, hx⟩ := List.mem_flatMap.mp ht
  cases x with
  | record r h number =>
      obtain rfl := List.mem_singleton.mp hx
      exact (renumber_same h number).1
  | message m split => exact whole_tokens m 0 split.fits t hx
  | close rest h =>
      obtain rfl := List.mem_singleton.mp hx
      exact h

theorem renumber_self (r : List Byte) (h : PlainRecord r) :
    renumber (unpackBig (slice r 5 11)) r = r := by
  have hlen := h.thirteen_le
  have hslice : (slice r 5 11).length = 6 := by
    rw [slice, List.length_drop, List.length_take]
    omega
  have hnumber : packBig 6 (unpackBig (slice r 5 11)) = (r.take 11).drop 5 := by
    rw [← hslice, packBig_unpackBig]
    rfl
  have htake : r.take 5 = (r.take 11).take 5 := by
    rw [List.take_take]
    rfl
  rw [renumber, hnumber, htake, List.take_append_drop, List.take_append_drop]

theorem exists_tokensOf {ts : List Token} (h : ∀ t ∈ ts, t.Whole) :
    ∃ l : List Laid, tokensOf l = ts := by
  induction ts with
  | nil => exact ⟨[], rfl⟩
  | cons t ts ih =>
      have hwhole := h t List.mem_cons_self
      obtain ⟨l, rfl⟩ := ih fun t ht => h t (List.mem_cons_of_mem _ ht)
      cases t with
      | record r =>
          refine ⟨.record r hwhole (unpackBig (slice r 5 11)) :: l, ?_⟩
          show Token.record (renumber _ r) :: tokensOf l = _
          rw [renumber_self r hwhole]
      | close rest => exact ⟨.close rest hwhole :: l, rfl⟩

/-- Every capture is one of such items. -/
theorem exists_laid (ds : List (List Byte)) : ∃ l : List Laid, payloadsOf (tokensOf l) = ds := by
  obtain ⟨ts, hwhole, rfl⟩ := exists_tokens ds
  obtain ⟨l, rfl⟩ := exists_tokensOf hwhole
  exact ⟨l, rfl⟩

theorem tokensOf_eq_nil {l : List Laid} : tokensOf l = [] ↔ l = [] := by
  cases l with
  | nil => simp [tokensOf]
  | cons x xs =>
      have hx : x.tokens ≠ [] := by
        cases x with
        | record r h number => exact List.cons_ne_nil _ _
        | close rest h => exact List.cons_ne_nil _ _
        | message m split =>
            rw [Laid.tokens]
            cases hfs : split.fragments with
            | nil => exact absurd hfs split.ne_nil
            | cons f fs => exact List.append_ne_nil_of_right_ne_nil _ (List.cons_ne_nil _ _)
      simp [tokensOf, hx]

/-- The script passes a capture when it lets its items through, and there are some. -/
theorem main_passes {file : List Byte} {l : List Laid}
    (h : Captures file (payloadsOf (tokensOf l))) :
    (∃ c, main file = .ok c) ↔ l ≠ [] ∧ passes Scan.start l = true := by
  have hmain := main_scan h
  have htokens := scanPayloads_tokens (whole_tokensOf l) Scan.start
  have hok : (∃ c, main file = .ok c) ↔
      ((main file).toOption.map Check.seenSh).isSome = true := by
    cases main file with
    | error e => simp [Except.toOption]
    | ok c => simp [Except.toOption]
  rw [hok, hmain]
  by_cases hnil : l = []
  · rw [if_pos (payloadsOf_eq_nil.mpr (tokensOf_eq_nil.mpr hnil))]
    simp [hnil]
  · rw [if_neg fun hp => hnil (tokensOf_eq_nil.mp (payloadsOf_eq_nil.mp hp))]
    have hscan : WireCheck.scanPayloads true false (payloadsOf (tokensOf l)) =
        (scanTokens Scan.start (tokensOf l)).map Scan.seenSh := htokens
    rw [hscan, Option.isSome_map, passes]
    simp [hnil]

/-- Two captures of the same items get the same verdict exactly when they are alike, item by item,
up to the first that is not let through quietly. -/
theorem refragmented_iff (file file' : List Byte) (l l' : List Laid)
    (hsame : l.map Laid.item = l'.map Laid.item)
    (hfile : Captures file (payloadsOf (tokensOf l)))
    (hfile' : Captures file' (payloadsOf (tokensOf l'))) :
    SameVerdict file file' l l' ↔ Alike true l l' := by
  have hnil : l = [] ↔ l' = [] := by
    rw [← List.map_eq_nil_iff (f := Laid.item), hsame, List.map_eq_nil_iff]
  rw [← sameHello_iff hsame]
  constructor
  · rintro ⟨hpasses, hhello, hretry⟩
    refine ⟨?_, hhello, hretry⟩
    rw [main_passes hfile, main_passes hfile', Ne, Ne, hnil] at hpasses
    by_cases hl : l' = []
    · rw [hl, hnil.mpr hl]
    · simp only [hl, not_false_eq_true, true_and] at hpasses
      exact Bool.eq_iff_iff.mpr hpasses
  · rintro ⟨hpasses, hhello, hretry⟩
    refine ⟨?_, hhello, hretry⟩
    have hpasses' : passes Scan.start l = passes Scan.start l' := hpasses
    rw [main_passes hfile, main_passes hfile', Ne, Ne, hnil, hpasses']

/-! ### Messages that are not cut -/

/-- A message is in one fragment. -/
def Laid.Uncut : Laid → Prop
  | message _ split => split.fragments.length = 1
  | _ => True

theorem fate_uncut {m : Message} {split : Split m} (h : split.fragments.length = 1)
    (first : Bool) :
    (Laid.message m split).fate first =
      if !m.admits 0 m.body.length then .refused
      else if m.shows m.body then .hello else .quiet := by
  obtain ⟨f, hf⟩ := List.length_eq_one_iff.mp h
  have hbody : f.data = m.body := by
    have hwhole := split.whole
    rwa [hf, List.flatMap_singleton] at hwhole
  rw [Laid.fate, hf, fragmentsFate, hbody, if_pos rfl]
  rfl

theorem fate_congr {x x' : Laid} (h : x.item = x'.item) (hx : x.Uncut) (hx' : x'.Uncut)
    (first : Bool) : x.fate first = x'.fate first := by
  cases x with
  | record r hr number =>
      cases x' with
      | record r' hr' number' =>
          cases h
          rfl
      | message m' split' => cases h
      | close rest' hrest' => cases h
  | close rest hrest =>
      cases x' with
      | record r' hr' number' => cases h
      | message m' split' => cases h
      | close rest' hrest' =>
          cases h
          rfl
  | message m split =>
      cases x' with
      | record r' hr' number' => cases h
      | close rest' hrest' => cases h
      | message m' split' =>
          obtain rfl := Item.message.inj h
          rw [fate_uncut hx, fate_uncut hx']

/-- The magic random of a HelloRetryRequest in one fragment is seen. -/
theorem noRetry_uncut {x : Laid} (hx : x.Uncut) {first : Bool}
    (h : x.fate first = .hello ∨ x.fate first = .helloRefused) {m : Message}
    (hm : x.item = .message m) : ¬ m.IsRetry := by
  cases x with
  | record r hr number => cases hm
  | close rest hrest => cases hm
  | message m' split =>
      obtain rfl := Item.message.inj hm
      rintro ⟨htype, hrandom⟩
      have hshows : m'.shows m'.body = false := by
        rw [Message.shows, decide_eq_true hrandom, Bool.not_true, Bool.and_false]
      rw [fate_uncut hx, hshows] at h
      split at h <;> simp at h

/-- Captures with no message cut get the same verdict, whatever their record numbers and wherever
their messages open datagrams. -/
theorem alike_uncut {first : Bool} {l l' : List Laid} (h : l.map Laid.item = l'.map Laid.item)
    (hl : ∀ x ∈ l, x.Uncut) (hl' : ∀ x ∈ l', x.Uncut) : Alike first l l' := by
  induction l generalizing first l' with
  | nil => trivial
  | cons x xs ih =>
      cases l' with
      | nil => cases h
      | cons x' xs' =>
          obtain ⟨hx, hxs⟩ := List.cons.inj h
          obtain ⟨hux, huxs⟩ := List.forall_mem_cons.mp hl
          obtain ⟨hux', huxs'⟩ := List.forall_mem_cons.mp hl'
          rw [Alike, ← fate_congr hx hux hux']
          cases hfate : x.fate first with
          | quiet => exact ih hxs huxs huxs'
          | refused => trivial
          | hello => exact fun m hm => noRetry_uncut hux (Or.inl hfate) hm
          | helloRefused => exact fun m hm => noRetry_uncut hux (Or.inr hfate) hm

/-! ### A ServerHello in fragments -/

def serverHello : Message := ⟨2, 0, List.replicate 40 0, by decide, by decide⟩

/-- In one record. -/
def inOne : Laid :=
  .message serverHello ⟨[⟨0, List.replicate 40 0, false⟩], by simp, by decide, by decide⟩

def cutAt (k : Nat) (h : k ≤ 40) : Laid :=
  .message serverHello
    ⟨[⟨0, List.replicate k 0, false⟩, ⟨1, List.replicate (40 - k) 0, false⟩], by simp,
      by
        rw [List.flatMap_cons, List.flatMap_singleton, List.replicate_append_replicate,
          Nat.add_sub_cancel' h]
        rfl,
      by
        simp only [List.forall_mem_cons, List.length_replicate]
        exact ⟨by omega, by omega, fun f hf => absurd hf List.not_mem_nil⟩⟩

theorem captures_of_read {file : List Byte} {ds : List (List Byte)}
    (h : (readPcap file).toOption.map (List.filterMap parseUdp) = some ds) : Captures file ds := by
  cases hread : readPcap file with
  | error e =>
      rw [hread] at h
      cases h
  | ok pkts =>
      rw [hread] at h
      exact ⟨pkts, hread, Option.some.inj h⟩

theorem captures_inOne :
    Captures (capture (payloadsOf (tokensOf [inOne]))) (payloadsOf (tokensOf [inOne])) :=
  captures_of_read (by decide +kernel)

theorem captures_cutAt_ten :
    Captures (capture (payloadsOf (tokensOf [cutAt 10 (by decide)])))
      (payloadsOf (tokensOf [cutAt 10 (by decide)])) := captures_of_read (by decide +kernel)

theorem captures_cutAt_twenty :
    Captures (capture (payloadsOf (tokensOf [cutAt 20 (by decide)])))
      (payloadsOf (tokensOf [cutAt 20 (by decide)])) := captures_of_read (by decide +kernel)

/-- Cut after twenty bytes or after ten, it is refused at the second fragment, with `seen_sh` true
by then. -/
theorem same_verdict_cut :
    SameVerdict (capture (payloadsOf (tokensOf [cutAt 20 (by decide)])))
      (capture (payloadsOf (tokensOf [cutAt 10 (by decide)])))
      [cutAt 20 (by decide)] [cutAt 10 (by decide)] := by
  refine (refragmented_iff _ _ [cutAt 20 (by decide)] [cutAt 10 (by decide)] rfl
    captures_cutAt_twenty captures_cutAt_ten).mpr ?_
  have htwenty : (cutAt 20 (by decide)).fate true = .helloRefused := by decide +kernel
  have hten : (cutAt 10 (by decide)).fate true = .helloRefused := by decide +kernel
  rw [Alike, htwenty, hten]
  intro m hm
  obtain rfl := Item.message.inj hm
  exact fun hretry => absurd hretry.2 (by decide)

/-- In one record it passes, in two it is refused. -/
theorem verdict_changes :
    ¬ ∀ (file file' : List Byte) (l l' : List Laid), l.map Laid.item = l'.map Laid.item →
      Captures file (payloadsOf (tokensOf l)) → Captures file' (payloadsOf (tokensOf l')) →
      SameVerdict file file' l l' := by
  intro h
  have hsame := h _ _ [inOne] [cutAt 20 (by decide)] rfl captures_inOne captures_cutAt_twenty
  have hpass : main (capture (payloadsOf (tokensOf [inOne]))) =
      .ok ⟨true, 1, 1, [⟨serverHello.fragment 0 ⟨0, List.replicate 40 0, false⟩, [0]⟩]⟩ := by
    decide +kernel
  have hrefuse : main (capture (payloadsOf (tokensOf [cutAt 20 (by decide)]))) =
      .error (.plaintextAfterServerHello 1 22) := by
    decide +kernel
  obtain ⟨c, hc⟩ := hsame.passes.mp ⟨_, hpass⟩
  rw [hrefuse] at hc
  cases hc

end AsconDtls.Tools.Refragment
