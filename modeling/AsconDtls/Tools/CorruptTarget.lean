import AsconDtls.Lib.Firsts
import AsconDtls.Tools.NegativeProxy

/-!
# The record that the proxy corrupts

The modes `tamper`, `truncate`, `sequence` and `epoch` are to corrupt the N-th distinct
application record and every retransmission of it.  `countApp` sets the target again on every
application datagram that comes while N identities are known, whichever of them it has, and the
mutation of a short datagram changes nothing or throws.

* `afterApp_counted`: what the counters hold, of the datagrams so far.
* `run_corrupts`: a run corrupts as it should when every datagram is dealt with as it should.
* `corruptsNth_iff`: which runs these are.
* `retransmission_corrupted`: one that is none of them.
-/

namespace AsconDtls.Tools

open LittleEndian
open Run (run run_cons run_nil)
open Firsts (firsts insertNew)

/-! ### What is to be corrupted -/

def Mode.corrupts (mode : Mode) : Bool :=
  mode = .tamper || mode = .truncate || mode = .sequence || mode = .epoch

theorem Mode.ne_of_corrupts {mode other : Mode} (h : mode.corrupts = true)
    (hother : other.corrupts = false) : mode ≠ other := by
  rintro rfl
  rw [h] at hother
  cases hother

/-- The distinct identities of the application datagrams, in order of first appearance. -/
def ids (ds : List (List Byte)) : List (List Byte) := firsts ((ds.filter isApp).map recId)

/-- The N-th of them. -/
def nthId (cfg : Config) (ds : List (List Byte)) : Option (List Byte) :=
  if 0 < cfg.corruptIndex then (ids ds)[cfg.corruptIndex.toNat - 1]? else none

/-- The application datagrams with the N-th identity are forwarded altered, and every other
datagram unchanged. -/
def CorruptsNth (cfg : Config) (ds sent : List (List Byte)) : Prop :=
  List.Forall₂ (fun d out => out ≠ d ↔ isApp d = true ∧ nthId cfg ds = some (recId d)) ds sent

/-- The application datagrams that come when the number of identities known by then
(their own included) is as `q` says. -/
def receivedWhile (q : Nat → Bool) (ds : List (List Byte)) : List (List Byte) :=
  (ds.inits.filter fun l => l.getLast?.any isApp && q (ids l).length).filterMap List.getLast?

/-- Those that come while exactly N identities are known. -/
def window (cfg : Config) (ds : List (List Byte)) : List (List Byte) :=
  receivedWhile (fun n => decide ((n : Int) = cfg.corruptIndex)) ds

/-- Those that come later. -/
def later (cfg : Config) (ds : List (List Byte)) : List (List Byte) :=
  receivedWhile (fun n => decide (cfg.corruptIndex < (n : Int))) ds

theorem ids_concat (ds : List (List Byte)) (d : List Byte) :
    ids (ds ++ [d]) = if isApp d then insertNew (ids ds) (recId d) else ids ds := by
  by_cases h : isApp d = true
  · rw [if_pos h, ids, List.filter_append, List.filter_cons_of_pos h, List.filter_nil,
      List.map_append, List.map_singleton, Firsts.firsts_concat, ids]
  · rw [if_neg h, ids, List.filter_append, List.filter_cons_of_neg h, List.filter_nil,
      List.append_nil, ids]

theorem receivedWhile_concat (q : Nat → Bool) (ds : List (List Byte)) (d : List Byte) :
    receivedWhile q (ds ++ [d]) =
      receivedWhile q ds ++ if isApp d && q (ids (ds ++ [d])).length then [d] else [] := by
  have hinits : (ds ++ [d]).inits = ds.inits ++ [ds ++ [d]] := by
    rw [List.inits_append]
    rfl
  rw [receivedWhile, hinits, List.filter_append, List.filterMap_append, receivedWhile]
  by_cases h : (isApp d && q (ids (ds ++ [d])).length) = true
  · rw [if_pos h, List.filter_cons_of_pos (by simpa using h)]
    simp
  · rw [if_neg h, List.filter_cons_of_neg (by simpa using h)]
    simp

theorem mem_receivedWhile {q : Nat → Bool} {ds : List (List Byte)} {d : List Byte} :
    d ∈ receivedWhile q ds ↔
      ∃ pre post, ds = pre ++ d :: post ∧ isApp d = true ∧ q (ids (pre ++ [d])).length = true := by
  simp only [receivedWhile, List.mem_filterMap, List.mem_filter, List.mem_inits]
  constructor
  · rintro ⟨l, ⟨⟨post, rfl⟩, hl⟩, hlast⟩
    obtain ⟨pre, rfl⟩ := List.getLast?_eq_some_iff.mp hlast
    refine ⟨pre, post, by simp, ?_⟩
    simpa using hl
  · rintro ⟨pre, post, rfl, happ, hq⟩
    exact ⟨pre ++ [d], ⟨⟨post, by simp⟩, by simp [happ, hq]⟩, by simp⟩

/-! ### What the mutations change -/

/-- The records that `corruptTags` walks over reach one with a tag. -/
def hasTagFrom (arr : List Byte) (off : Nat) : Nat → Bool
  | 0 => false
  | fuel + 1 =>
    let len := ((arr.getD (off + 3) 0).toNat <<< 8) + (arr.getD (off + 4) 0).toNat
    let recEnd := off + 5 + len
    decide (recEnd ≤ arr.length) && (decide (16 ≤ len) || hasTagFrom arr recEnd fuel)

def hasTag (arr : List Byte) : Bool := hasTagFrom arr 0 arr.length

/-- The application datagrams that the mutation of a mode alters. -/
def Alters (mode : Mode) (bytes : List Byte) : Prop :=
  match mode with
  | .tamper => hasTag bytes = true
  | .truncate => 2 ≤ bytes.length
  | .sequence => 3 ≤ bytes.length
  | .epoch => True
  | _ => False

/-- Those that it leaves as they are; the mutation of the others throws. -/
def Keeps (mode : Mode) (bytes : List Byte) : Prop :=
  match mode with
  | .tamper => hasTag bytes = false
  | .truncate => bytes.length < 2
  | .sequence => False
  | .epoch => False
  | _ => False

instance (mode : Mode) (bytes : List Byte) : Decidable (Alters mode bytes) :=
  match mode with
  | .tamper => inferInstanceAs (Decidable (hasTag bytes = true))
  | .truncate => inferInstanceAs (Decidable (2 ≤ bytes.length))
  | .sequence => inferInstanceAs (Decidable (3 ≤ bytes.length))
  | .epoch => inferInstanceAs (Decidable True)
  | .observe | .replay | .flood | .loss => inferInstanceAs (Decidable False)

instance (mode : Mode) (bytes : List Byte) : Decidable (Keeps mode bytes) :=
  match mode with
  | .tamper => inferInstanceAs (Decidable (hasTag bytes = false))
  | .truncate => inferInstanceAs (Decidable (bytes.length < 2))
  | .sequence | .epoch => inferInstanceAs (Decidable False)
  | .observe | .replay | .flood | .loss => inferInstanceAs (Decidable False)

theorem xor_one_ne (b : Byte) : b ^^^ 1 ≠ b := by
  intro h
  have hone : (1 : Byte) = 0 := by
    calc (1 : Byte) = b ^^^ (b ^^^ 1) := by rw [← BitVec.xor_assoc, BitVec.xor_self, BitVec.zero_xor]
      _ = 0 := by rw [h, BitVec.xor_self]; rfl
  exact absurd hone (by decide)

theorem set_xor_ne {arr : List Byte} {i : Nat} (h : i < arr.length) :
    arr.set i (arr.getD i 0 ^^^ 1) ≠ arr := by
  intro heq
  have hget := congrArg (fun l => l.getD i 0) heq
  simp only [List.getD_eq_getElem?_getD, List.getElem?_set_self h, Option.getD_some] at hget
  exact xor_one_ne _ hget

/-- Bytes in front of `off` stay. -/
theorem corruptTagsFrom_getD (arr : List Byte) (off fuel : Nat) {i : Nat} (hi : i < off) :
    (corruptTagsFrom arr off fuel).getD i 0 = arr.getD i 0 := by
  induction fuel generalizing arr off with
  | zero => rfl
  | succ fuel ih =>
      rw [corruptTagsFrom]
      split
      · simp only
        split
        · rfl
        · rw [ih _ _ (by omega)]
          split
          · simp only [List.getD_eq_getElem?_getD]
            rw [List.getElem?_set_ne (by omega)]
          · rfl
      · rfl

/-- The walk ends within the length of the array: more turns change nothing. -/
theorem corruptTagsFrom_fuel (arr : List Byte) (off fuel extra : Nat)
    (h : arr.length ≤ off + fuel) :
    corruptTagsFrom arr off (fuel + extra) = corruptTagsFrom arr off fuel := by
  induction fuel generalizing arr off with
  | zero =>
      have hend : ¬ off + 5 ≤ arr.length := by omega
      cases extra with
      | zero => rfl
      | succ extra => simp [corruptTagsFrom, hend]
  | succ fuel ih =>
      rw [Nat.add_right_comm]
      simp only [corruptTagsFrom]
      by_cases hoff : off + 5 ≤ arr.length
      · rw [if_pos hoff, if_pos hoff]
        split
        · rfl
        · rw [ih]
          split_ifs
          · rw [List.length_set]
            omega
          · omega
      · rw [if_neg hoff, if_neg hoff]

theorem corruptTagsFrom_ne_iff (arr : List Byte) (off fuel : Nat) :
    corruptTagsFrom arr off fuel ≠ arr ↔ hasTagFrom arr off fuel = true := by
  induction fuel generalizing off with
  | zero => simp [corruptTagsFrom, hasTagFrom]
  | succ fuel ih =>
      rw [corruptTagsFrom, hasTagFrom]
      simp only
      generalize ((arr.getD (off + 3) 0).toNat <<< 8) + (arr.getD (off + 4) 0).toNat = len
      by_cases hfit : off + 5 + len ≤ arr.length
      · rw [if_pos (by omega), if_neg (by omega)]
        by_cases htag : 16 ≤ len
        · -- no later record reaches back to the flipped byte
          rw [if_pos htag]
          simp only [hfit, htag, decide_true, Bool.true_or, Bool.and_true, iff_true]
          intro heq
          have hbyte := corruptTagsFrom_getD
            (arr.set (off + 5 + len - 1) (arr.getD (off + 5 + len - 1) 0 ^^^ 1)) (off + 5 + len) fuel
            (show off + 5 + len - 1 < off + 5 + len by omega)
          rw [heq, List.getD_eq_getElem?_getD (l := arr.set _ _),
            List.getElem?_set_self (by omega), Option.getD_some] at hbyte
          exact xor_one_ne _ hbyte.symm
        · rw [if_neg htag, ih]
          simp [hfit, htag]
      · simp [hfit, Nat.lt_of_not_le hfit]

theorem length_pos_of_isApp {bytes : List Byte} (h : isApp bytes = true) : 0 < bytes.length := by
  cases bytes with
  | nil => exact absurd h (by decide)
  | cons b bs => exact Nat.succ_pos _

/-- What an application datagram comes to. -/
theorem alters_iff {mode : Mode} (hmode : mode.corrupts = true) {bytes : List Byte}
    (h : isApp bytes = true) :
    Alters mode bytes ↔ ∃ out, mutate mode bytes = some out ∧ out ≠ bytes := by
  have hpos := length_pos_of_isApp h
  cases mode with
  | tamper => simp [Alters, mutate, corruptTags, corruptTagsFrom_ne_iff, hasTag]
  | truncate =>
      simp only [Alters, mutate]
      rw [if_neg (by omega)]
      constructor
      · intro hlen
        refine ⟨_, rfl, fun heq => ?_⟩
        have := congrArg List.length heq
        rw [List.length_take] at this
        omega
      · rintro ⟨out, hout, hne⟩
        by_contra hlen
        obtain rfl := Option.some.inj hout
        exact hne (List.take_of_length_le (by omega))
  | sequence =>
      simp only [Alters, mutate]
      by_cases hlen : bytes.length ≤ 2
      · rw [if_pos hlen]
        simp [Nat.not_le.mpr (Nat.lt_succ_of_le hlen)]
      · rw [if_neg hlen]
        exact ⟨fun _ => ⟨_, rfl, set_xor_ne (by omega)⟩, fun _ => by omega⟩
  | epoch =>
      simp only [Alters, mutate, true_iff]
      rw [if_neg (by omega)]
      exact ⟨_, rfl, set_xor_ne hpos⟩
  | _ => exact absurd hmode (by decide)

theorem keeps_iff {mode : Mode} (hmode : mode.corrupts = true) {bytes : List Byte}
    (h : isApp bytes = true) : Keeps mode bytes ↔ mutate mode bytes = some bytes := by
  have hpos := length_pos_of_isApp h
  cases mode with
  | tamper =>
      have hne := corruptTagsFrom_ne_iff bytes 0 bytes.length
      simp only [Keeps, mutate, hasTag, corruptTags, Option.some.injEq]
      rw [← Bool.not_eq_true, ← hne, not_ne_iff]
  | truncate =>
      simp only [Keeps, mutate]
      rw [if_neg (by omega), Option.some.injEq, List.take_eq_self_iff]
      omega
  | sequence =>
      simp only [Keeps, mutate, false_iff]
      split
      · exact Option.some_ne_none _ ∘ Eq.symm
      · exact fun heq => set_xor_ne (by omega) (Option.some.inj heq)
  | epoch =>
      simp only [Keeps, mutate, false_iff]
      rw [if_neg (by omega)]
      exact fun heq => set_xor_ne hpos (Option.some.inj heq)
  | _ => exact absurd hmode (by decide)

/-! ### The counters -/

/-- The target once `ds` has come in: the identity of the last application datagram that came
while N identities were known. -/
def target (cfg : Config) (ds : List (List Byte)) : Option (List Byte) :=
  (window cfg ds).getLast?.map recId

/-- The counters after the client datagrams `ds`. -/
structure Counted (cfg : Config) (ds : List (List Byte)) (p : Proxy) : Prop where
  seen : p.seen = ids ds
  distinctCount : p.distinctCount = (ids ds).length
  targetId : p.targetId = target cfg ds

theorem counted_start (cfg : Config) : Counted cfg [] {} := ⟨rfl, rfl, rfl⟩

theorem target_concat (cfg : Config) (ds : List (List Byte)) (d : List Byte) :
    target cfg (ds ++ [d]) =
      if isApp d = true ∧ ((ids (ds ++ [d])).length : Int) = cfg.corruptIndex then some (recId d)
      else target cfg ds := by
  rw [target, window, receivedWhile_concat]
  by_cases h : isApp d = true ∧ ((ids (ds ++ [d])).length : Int) = cfg.corruptIndex
  · rw [if_pos h, if_pos (by simpa using h)]
    simp
  · rw [if_neg h, if_neg (by simpa using h), List.append_nil]
    rfl

/-- What `if ($isApp)` makes of the counters. -/
theorem countApp_counted {cfg : Config} {ds : List (List Byte)} {p : Proxy}
    (h : Counted cfg ds p) (d : List Byte) : Counted cfg (ds ++ [d]) (countApp cfg p d) := by
  by_cases happ : isApp d = true
  · have hids : ids (ds ++ [d]) = insertNew (ids ds) (recId d) := by rw [ids_concat, if_pos happ]
    obtain ⟨hseen, hcount, htarget⟩ := h
    -- the counters before the target is looked at
    let p1 : Proxy :=
      if recId d ∈ p.seen then p
      else { p with seen := p.seen ++ [recId d], distinctCount := p.distinctCount + 1 }
    have hp1 : p1.seen = ids (ds ++ [d]) ∧ p1.distinctCount = (ids (ds ++ [d])).length ∧
        p1.targetId = target cfg ds := by
      rw [hids, insertNew, ← hseen]
      by_cases hmem : recId d ∈ p.seen
      · have hp1 : p1 = p := if_pos hmem
        rw [hp1, if_pos hmem]
        exact ⟨rfl, by rw [hcount, hseen], htarget⟩
      · have hp1 : p1 = { p with seen := p.seen ++ [recId d], distinctCount := p.distinctCount + 1 } :=
          if_neg hmem
        rw [hp1, if_neg hmem]
        exact ⟨rfl, by rw [List.length_append, hcount, hseen]; rfl, htarget⟩
    obtain ⟨hseen1, hcount1, htarget1⟩ := hp1
    have hcountApp : countApp cfg p d =
        if (p1.distinctCount : Int) = cfg.corruptIndex then { p1 with targetId := some (recId d) }
        else p1 := by
      rw [countApp, if_pos happ]
    rw [hcountApp]
    by_cases hN : (p1.distinctCount : Int) = cfg.corruptIndex
    · rw [if_pos hN]
      refine ⟨hseen1, hcount1, ?_⟩
      rw [target_concat, if_pos ⟨happ, by rw [← hcount1]; exact hN⟩]
    · rw [if_neg hN]
      refine ⟨hseen1, hcount1, ?_⟩
      rw [target_concat, if_neg (by rw [← hcount1]; exact fun hc => hN hc.2)]
      exact htarget1
  · rw [countApp, if_neg happ]
    have hids : ids (ds ++ [d]) = ids ds := by rw [ids_concat, if_neg happ]
    refine ⟨by rw [hids]; exact h.seen, by rw [hids]; exact h.distinctCount, ?_⟩
    rw [target_concat, if_neg (fun hc => happ hc.1)]
    exact h.targetId

/-! ### Runs -/

/-- What becomes of a datagram, none after an exception. -/
def treated (cfg : Config) (ds : List (List Byte)) (d : List Byte) : Option (List Byte) :=
  if isApp d = true ∧ target cfg (ds ++ [d]) = some (recId d) then mutate cfg.mode d else some d

/-- A turn with the client datagram `d` after `ds`. -/
theorem iterate_counted {cfg : Config} (hmode : cfg.mode.corrupts = true)
    {ds : List (List Byte)} {p : Proxy} (h : Counted cfg ds p) {src : EndPoint}
    (hport : src.port ≠ cfg.serverPort) (d : List Byte) (lossDraw : Bool) :
    (∃ p', (iterate cfg p (.received src d lossDraw)).1 = (treated cfg ds d).map (fun _ => p') ∧
        Counted cfg (ds ++ [d]) p') ∧
      toServer [(iterate cfg p (.received src d lossDraw)).2] = (treated cfg ds d).toList := by
  have hobserve : cfg.mode ≠ .observe := Mode.ne_of_corrupts hmode rfl
  have hreplay : cfg.mode ≠ .replay := Mode.ne_of_corrupts hmode rfl
  have hflood : cfg.mode ≠ .flood := Mode.ne_of_corrupts hmode rfl
  have hloss : cfg.mode ≠ .loss := Mode.ne_of_corrupts hmode rfl
  have hstart : Counted cfg ds { p with client := some src, clientPackets := p.clientPackets + 1 } :=
    ⟨h.seen, h.distinctCount, h.targetId⟩
  have hcounted := countApp_counted hstart d
  rw [iterate_client cfg p hport]
  revert hcounted
  generalize countApp cfg
    { p with client := some src, clientPackets := p.clientPackets + 1 } d = p1
  intro hcounted
  have hquals : Counted cfg (ds ++ [d]) { p1 with qualifyingCount := p1.qualifyingCount + 1 } :=
    ⟨hcounted.seen, hcounted.distinctCount, hcounted.targetId⟩
  by_cases happ : isApp d = true
  · by_cases htarget : p1.targetId = some (recId d)
    · have hout : treated cfg ds d = mutate cfg.mode d := by
        rw [treated, if_pos ⟨happ, hcounted.targetId ▸ htarget⟩]
      rw [hout]
      refine ⟨⟨_, ?_, hquals⟩, ?_⟩
      · cases hm : mutate cfg.mode d <;>
          simp [treat, forward, hobserve, hreplay, hloss, happ, htarget, hm]
      · cases hm : mutate cfg.mode d <;>
          simp [treat, forward, hobserve, hreplay, hloss, happ, htarget, hm, toServer]
    · have hout : treated cfg ds d = some d := by
        rw [treated, if_neg fun hc => htarget (hcounted.targetId.trans hc.2)]
      rw [hout]
      refine ⟨⟨_, ?_, hquals⟩, ?_⟩
      · simp [treat, forward, hobserve, hreplay, hflood, hloss, happ, htarget]
      · simp [treat, forward, hobserve, hreplay, hflood, hloss, happ, htarget, toServer]
  · have hout : treated cfg ds d = some d := by rw [treated, if_neg fun hc => happ hc.1]
    rw [hout]
    refine ⟨⟨p1, ?_, hcounted⟩, ?_⟩
    · simp [treat, forward, hreplay, hloss, happ]
    · simp [treat, forward, hreplay, hloss, happ, toServer]

/-- `d` after `ds` is forwarded, altered exactly if it is an application datagram with the
identity `nth`. -/
def Dealt (cfg : Config) (nth : Option (List Byte)) (ds : List (List Byte)) (d : List Byte) :
    Prop :=
  ∃ out, treated cfg ds d = some out ∧ (out ≠ d ↔ isApp d = true ∧ nth = some (recId d))

theorem run_ended (cfg : Config) (evs : List Event) :
    toServer (run (step cfg) none evs).2 = [] := by
  induction evs with
  | nil => rfl
  | cons e evs ih =>
      rw [run_cons, step, toServer_cons, ih]
      rfl

/-- A run corrupts as it should when every datagram is dealt with as it should. -/
theorem run_corrupts {cfg : Config} (hmode : cfg.mode.corrupts = true)
    (nth : Option (List Byte)) (evs : List Event) {ds : List (List Byte)} {p : Proxy}
    (h : Counted cfg ds p) :
    List.Forall₂ (fun d out => out ≠ d ↔ isApp d = true ∧ nth = some (recId d))
        (clientDatagrams cfg evs) (toServer (run (step cfg) (some p) evs).2) ↔
      ∀ mid d post, clientDatagrams cfg evs = mid ++ d :: post → Dealt cfg nth (ds ++ mid) d := by
  induction evs generalizing ds p with
  | nil => simp [clientDatagrams, toServer]
  | cons e evs ih =>
      rw [run_cons, step, toServer_cons, clientDatagrams_cons]
      rcases clientDatagrams_single cfg e with hc | ⟨src, d, lossDraw, rfl, hport, hc⟩
      · obtain ⟨n, hstate, hsent, -⟩ := iterate_other p hc
        rw [hc, hsent, hstate, List.nil_append, List.nil_append]
        exact ih ⟨h.seen, h.distinctCount, h.targetId⟩
      · obtain ⟨⟨p', hstate, hcounted⟩, hsent⟩ := iterate_counted hmode h hport d lossDraw
        rw [hc, hsent, hstate, List.singleton_append]
        have hhere : (∀ mid d' post, d :: clientDatagrams cfg evs = mid ++ d' :: post →
              Dealt cfg nth (ds ++ mid) d') ↔
            Dealt cfg nth ds d ∧ ∀ mid d' post, clientDatagrams cfg evs = mid ++ d' :: post →
              Dealt cfg nth (ds ++ [d] ++ mid) d' := by
          constructor
          · intro hall
            refine ⟨by simpa using hall [] d _ rfl, fun mid d' post hsplit => ?_⟩
            rw [List.append_assoc]
            exact hall (d :: mid) d' post (by rw [hsplit]; rfl)
          · rintro ⟨hd, hall⟩ mid d' post hsplit
            cases mid with
            | nil =>
                obtain ⟨rfl, -⟩ := List.cons.inj hsplit
                rwa [List.append_nil]
            | cons m mid =>
                rw [List.cons_append] at hsplit
                obtain ⟨rfl, hrest⟩ := List.cons.inj hsplit
                have hd' := hall mid d' post hrest
                rwa [List.append_assoc] at hd'
        rw [hhere]
        cases hout : treated cfg ds d with
        | none =>
            rw [Option.map_none, run_ended]
            simp [Dealt, hout]
        | some out =>
            rw [Option.map_some, Option.toList_some, List.singleton_append, List.forall₂_cons,
              ih hcounted]
            simp [Dealt, hout]

/-! ### Before, in and after the window -/

theorem ids_grows (ds es : List (List Byte)) : ids ds <+: ids (ds ++ es) := by
  rw [ids, ids, List.filter_append, List.map_append]
  exact Firsts.firsts_prefix _ _

theorem ids_length_le (ds es : List (List Byte)) : (ids ds).length ≤ (ids (ds ++ es)).length :=
  (ids_grows ds es).length_le

theorem window_before {cfg : Config} {ds : List (List Byte)}
    (h : ((ids ds).length : Int) < cfg.corruptIndex) : window cfg ds = [] := by
  refine List.eq_nil_iff_forall_not_mem.mpr fun d hd => ?_
  obtain ⟨pre, post, rfl, -, hq⟩ := mem_receivedWhile.mp hd
  have hle := ids_length_le (pre ++ [d]) post
  rw [List.append_assoc, List.singleton_append] at hle
  rw [decide_eq_true_eq] at hq
  omega

theorem window_after {cfg : Config} {ds : List (List Byte)}
    (h : cfg.corruptIndex < ((ids ds).length : Int)) (es : List (List Byte)) :
    window cfg (ds ++ es) = window cfg ds := by
  induction es using List.reverseRecOn with
  | nil => rw [List.append_nil]
  | append_singleton es d ih =>
      have hle := ids_length_le ds (es ++ [d])
      rw [← List.append_assoc] at hle ⊢
      rw [window, receivedWhile_concat, if_neg, List.append_nil]
      · exact ih
      · rw [Bool.and_eq_true, decide_eq_true_eq]
        rintro ⟨-, hq⟩
        omega

/-- The datagram `d` with the N-th identity comes when N identities are known, or later. -/
theorem nthId_le {cfg : Config} {pre post : List (List Byte)} {d : List Byte}
    (happ : isApp d = true) (h : nthId cfg (pre ++ d :: post) = some (recId d)) :
    0 < cfg.corruptIndex ∧ cfg.corruptIndex ≤ ((ids (pre ++ [d])).length : Int) := by
  unfold nthId at h
  split at h
  · next hN =>
      have hmem : recId d ∈ ((pre ++ [d]).filter isApp).map recId := by
        refine List.mem_map_of_mem (List.mem_filter.mpr ⟨?_, happ⟩)
        exact List.mem_append_right pre (List.mem_singleton_self d)
      have hsplit : pre ++ d :: post = pre ++ [d] ++ post := by simp
      rw [hsplit, ids, List.filter_append, List.map_append] at h
      have hlt := Firsts.place_lt hmem h
      rw [ids]
      omega
  · cases h

/-- The N-th identity appears first in the window. -/
theorem nthId_mem_window {cfg : Config} {ds : List (List Byte)} {x : List Byte}
    (h : nthId cfg ds = some x) : ∃ d ∈ window cfg ds, recId d = x := by
  induction ds using List.reverseRecOn with
  | nil => simp [nthId, ids] at h
  | append_singleton ds d ih =>
      rw [window, receivedWhile_concat]
      by_cases hold : nthId cfg ds = some x
      · obtain ⟨e, he, hx⟩ := ih hold
        exact ⟨e, List.mem_append_left _ he, hx⟩
      · unfold nthId at h hold
        split at h
        · next hN =>
            rw [if_pos hN] at hold
            rw [ids_concat] at h ⊢
            by_cases happ : isApp d = true
            · rw [if_pos happ, insertNew] at h
              split at h
              · exact absurd h hold
              · next hnew =>
                  -- the new identity has the last place
                  have hplace : cfg.corruptIndex.toNat - 1 = (ids ds).length := by
                    obtain ⟨hlt, -⟩ := List.getElem?_eq_some_iff.mp h
                    rw [List.length_append, List.length_singleton] at hlt
                    by_contra hne
                    exact hold (by rw [List.getElem?_append_left (by omega)] at h; exact h)
                  rw [hplace, List.getElem?_concat_length, Option.some.injEq] at h
                  refine ⟨d, List.mem_append_right _ ?_, h⟩
                  rw [if_pos happ, insertNew, if_neg hnew, List.length_append,
                    List.length_singleton, if_pos]
                  · exact List.mem_singleton_self d
                  · rw [happ, Bool.true_and, decide_eq_true_eq]
                    omega
            · rw [if_neg happ] at h
              exact absurd h hold
        · cases h

/-! ### The runs that corrupt the right record -/

/-- What the client has to send: the mutation alters every datagram with the N-th identity; an
earlier record that comes again inside the window is one that the mutation leaves alone; and where
the window closes on such a record, the N-th record does not come again, and that record comes
again only if the mutation leaves it alone. -/
structure Targetable (cfg : Config) (ds : List (List Byte)) : Prop where
  altered : ∀ d ∈ ds, isApp d = true → nthId cfg ds = some (recId d) → Alters cfg.mode d
  kept : ∀ d ∈ window cfg ds, nthId cfg ds ≠ some (recId d) → Keeps cfg.mode d
  closed : ∀ e, (window cfg ds).getLast? = some e → nthId cfg ds ≠ some (recId e) →
    ∀ d ∈ later cfg ds,
      nthId cfg ds ≠ some (recId d) ∧ (recId d = recId e → Keeps cfg.mode d)

theorem targetable_of_dealt {cfg : Config} (hmode : cfg.mode.corrupts = true)
    {ds : List (List Byte)}
    (h : ∀ pre d post, ds = pre ++ d :: post → Dealt cfg (nthId cfg ds) pre d) :
    Targetable cfg ds := by
  refine ⟨?_, ?_, ?_⟩
  · intro d hd happ hnth
    obtain ⟨pre, post, hsplit⟩ := List.append_of_mem hd
    obtain ⟨out, hout, hiff⟩ := h pre d post hsplit
    have hne : out ≠ d := hiff.mpr ⟨happ, hnth⟩
    unfold treated at hout
    split at hout
    · exact (alters_iff hmode happ).mpr ⟨out, hout, hne⟩
    · exact absurd (Option.some.inj hout).symm hne
  · intro d hd hnth
    obtain ⟨pre, post, hsplit, happ, hq⟩ := mem_receivedWhile.mp hd
    obtain ⟨out, hout, hiff⟩ := h pre d post hsplit
    have heq : out = d := by
      by_contra hne
      exact hnth (hiff.mp hne).2
    rw [decide_eq_true_eq] at hq
    have htarget : target cfg (pre ++ [d]) = some (recId d) := by
      rw [target_concat, if_pos ⟨happ, hq⟩]
    rw [treated, if_pos ⟨happ, htarget⟩, heq] at hout
    exact (keeps_iff hmode happ).mpr hout
  · intro e he hnth d hd
    obtain ⟨pre, post, hsplit, happ, hq⟩ := mem_receivedWhile.mp hd
    obtain ⟨out, hout, hiff⟩ := h pre d post hsplit
    rw [decide_eq_true_eq] at hq
    have htarget : target cfg (pre ++ [d]) = some (recId e) := by
      have hwindow := window_after hq post
      rw [List.append_assoc, List.singleton_append, ← hsplit] at hwindow
      rw [target, ← hwindow, he, Option.map_some]
    rw [treated, htarget] at hout
    refine ⟨fun hd => ?_, fun hid => ?_⟩
    · have hne : out ≠ d := hiff.mpr ⟨happ, hd⟩
      rw [if_neg (fun hc => hnth (hd.trans hc.2.symm))] at hout
      exact hne (Option.some.inj hout).symm
    · have heq : out = d := by
        by_contra hne
        exact hnth (hid ▸ (hiff.mp hne).2)
      rw [if_pos ⟨happ, by rw [hid]⟩, heq] at hout
      exact (keeps_iff hmode happ).mpr hout

theorem dealt_of_targetable {cfg : Config} (hmode : cfg.mode.corrupts = true)
    {ds : List (List Byte)} (h : Targetable cfg ds) {pre : List (List Byte)} {d : List Byte}
    {post : List (List Byte)} (hsplit : ds = pre ++ d :: post) :
    Dealt cfg (nthId cfg ds) pre d := by
  by_cases happ : isApp d = true
  · have hmem : d ∈ ds := by simp [hsplit]
    -- left alone, or corrupted: the target decides
    have hforward : target cfg (pre ++ [d]) ≠ some (recId d) → nthId cfg ds ≠ some (recId d) →
        Dealt cfg (nthId cfg ds) pre d := by
      intro htarget hnth
      refine ⟨d, by rw [treated, if_neg fun hc => htarget hc.2], ?_⟩
      exact ⟨fun hne => absurd rfl hne, fun hc => absurd hc.2 hnth⟩
    have hcorrupt : target cfg (pre ++ [d]) = some (recId d) →
        (nthId cfg ds ≠ some (recId d) → Keeps cfg.mode d) → Dealt cfg (nthId cfg ds) pre d := by
      intro htarget hkeeps
      by_cases hnth : nthId cfg ds = some (recId d)
      · obtain ⟨out, hout, hne⟩ := (alters_iff hmode happ).mp (h.altered d hmem happ hnth)
        exact ⟨out, by rw [treated, if_pos ⟨happ, htarget⟩, hout], fun _ => ⟨happ, hnth⟩,
          fun _ => hne⟩
      · have hout := (keeps_iff hmode happ).mp (hkeeps hnth)
        exact ⟨d, by rw [treated, if_pos ⟨happ, htarget⟩, hout], fun hne => absurd rfl hne,
          fun hc => absurd hc.2 hnth⟩
    rcases Int.lt_trichotomy ((ids (pre ++ [d])).length : Int) cfg.corruptIndex with hlt | heq | hgt
    · refine hforward ?_ fun hnth => ?_
      · rw [target, window_before hlt]
        exact Option.some_ne_none _ ∘ Eq.symm
      · rw [hsplit] at hnth
        have := (nthId_le happ hnth).2
        omega
    · refine hcorrupt ?_ fun hnth => h.kept d ?_ hnth
      · rw [target_concat, if_pos ⟨happ, heq⟩]
      · exact mem_receivedWhile.mpr ⟨pre, post, hsplit, happ, by rw [decide_eq_true_eq]; exact heq⟩
    · have hlater : d ∈ later cfg ds :=
        mem_receivedWhile.mpr ⟨pre, post, hsplit, happ, by rw [decide_eq_true_eq]; exact hgt⟩
      have hwindow : window cfg (pre ++ [d]) = window cfg ds := by
        rw [← window_after hgt post, List.append_assoc, List.singleton_append, hsplit]
      cases hlast : (window cfg ds).getLast? with
      | none =>
          have hnth : nthId cfg ds ≠ some (recId d) := by
            intro hnth
            obtain ⟨e, he, -⟩ := nthId_mem_window hnth
            rw [List.getLast?_eq_none_iff.mp hlast] at he
            cases he
          refine hforward ?_ hnth
          rw [target, hwindow, hlast]
          exact Option.some_ne_none _ ∘ Eq.symm
      | some e =>
          have htarget : target cfg (pre ++ [d]) = some (recId e) := by
            rw [target, hwindow, hlast, Option.map_some]
          by_cases hid : recId d = recId e
          · refine hcorrupt (by rw [htarget, hid]) fun hnth => ?_
            rw [hid] at hnth
            exact (h.closed e hlast hnth d hlater).2 hid
          · have hother : some (recId e) ≠ some (recId d) := fun hc => hid (Option.some.inj hc).symm
            refine hforward (by rw [htarget]; exact hother) fun hnth => ?_
            have he : nthId cfg ds ≠ some (recId e) := fun hc => hother (hc.symm.trans hnth)
            exact (h.closed e hlast he d hlater).1 hnth
  · refine ⟨d, by rw [treated, if_neg fun hc => happ hc.1], ?_⟩
    exact ⟨fun hne => absurd rfl hne, fun hc => absurd hc.1 happ⟩

/-- The N-th record and its retransmissions are corrupted, and nothing else is, exactly in the
runs in which no earlier record comes in between in a way that turns the target, and the N-th
record is one that the mutation alters. -/
theorem corruptsNth_iff (cfg : Config) (hmode : cfg.mode.corrupts = true) (evs : List Event) :
    CorruptsNth cfg (clientDatagrams cfg evs) (toServer (outputs cfg evs)) ↔
      Targetable cfg (clientDatagrams cfg evs) := by
  have hrun := run_corrupts hmode (nthId cfg (clientDatagrams cfg evs)) evs (counted_start cfg)
  rw [CorruptsNth, outputs, hrun]
  constructor
  · exact fun h => targetable_of_dealt hmode h
  · exact fun h pre d post hsplit => dealt_of_targetable hmode h hsplit

/-! ### Two runs -/

/-- An application record with a tag and nothing else. -/
def tagRecord (seq : Byte) : List Byte := [0x2f, 0, seq, 0, 16] ++ List.replicate 16 0

/-- The client sends the records with the numbers `seqs`. -/
def clientSends (seqs : List Byte) : List Event :=
  seqs.map fun seq => .received ⟨[127, 0, 0, 1], 50000⟩ (tagRecord seq) false

def tamperSecond : Config := ⟨.tamper, 11111, 2⟩

/-- The second record comes twice, then the third. -/
theorem corruptsNth_in_order :
    CorruptsNth tamperSecond (clientDatagrams tamperSecond (clientSends [1, 2, 2, 3]))
      (toServer (outputs tamperSecond (clientSends [1, 2, 2, 3]))) := by
  refine (corruptsNth_iff tamperSecond rfl _).mpr ⟨?_, ?_, ?_⟩
  · decide +kernel
  · decide +kernel
  · intro e he hne
    have hlast : (window tamperSecond (clientDatagrams tamperSecond
        (clientSends [1, 2, 2, 3]))).getLast? = some (tagRecord 2) := by decide +kernel
    obtain rfl := Option.some.inj (hlast.symm.trans he)
    exact absurd (by decide +kernel) hne

/-- The first record comes again behind the second one: it is altered too. -/
theorem retransmission_corrupted :
    ¬ ∀ (cfg : Config) (_ : cfg.mode.corrupts = true) (evs : List Event),
      CorruptsNth cfg (clientDatagrams cfg evs) (toServer (outputs cfg evs)) := by
  intro h
  have hrun := h tamperSecond rfl (clientSends [1, 2, 1])
  have hds : clientDatagrams tamperSecond (clientSends [1, 2, 1]) =
      [tagRecord 1, tagRecord 2, tagRecord 1] := by decide +kernel
  have hsent : toServer (outputs tamperSecond (clientSends [1, 2, 1])) =
      [tagRecord 1, corruptTags (tagRecord 2), corruptTags (tagRecord 1)] := by decide +kernel
  rw [CorruptsNth, hds, hsent] at hrun
  simp only [List.forall₂_cons] at hrun
  obtain ⟨-, -, hthird, -⟩ := hrun
  exact absurd hthird (by decide +kernel)

end AsconDtls.Tools
