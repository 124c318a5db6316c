import AsconDtls.Lib.Duplex
import AsconDtls.Lib.LittleEndian
import AsconDtls.Lib.Padding

/-!
# What absorbing code does to a sponge, written down

`SpongeOps` are the operations that absorbing code asks of a sponge: XOR bytes
into the rate, permute, separate domains.  Code over them runs on a real state and
on a `Recorder`, which writes down the blocks that meet each permutation and the
order of the operations.

A recorder fed byte by byte holds the bytes it was fed (`recorder_feed_bytes`), and
closing it with the pad byte shows their padding 10* (`bytes_transcript`), so the
transcript gives the data back.  Replayed on a state, the transcript does what the
code did to it (`Replays.feed`).
-/

namespace Recording

open LittleEndian
open Duplex (Machine)
open Padding (pad10)

structure SpongeOps (σ : Type*) where
  /-- `xorbuf(s8 + i, bs, len)`. -/
  xorbuf : σ → Nat → List Byte → σ
  permute : σ → σ
  /-- The domain separation. -/
  domain : σ → σ
  xorbuf_nil : ∀ s i, xorbuf s i [] = s
  xorbuf_cons : ∀ s i b bs, xorbuf s i (b :: bs) = xorbuf (xorbuf s i [b]) (i + 1) bs

namespace SpongeOps

variable {σ : Type*} (S : SpongeOps σ) (rate : Nat)

/-- Bytes taken one at a time. -/
def machine : Machine σ Byte where
  rate := rate
  step i b s := (S.xorbuf s i [b], b)
  permute := S.permute

/-- `s8[pos] ^= 1`. -/
def pad (c : σ × Nat) : σ := S.xorbuf c.1 c.2 [1]

theorem machine_absorb (i : Nat) (bs : List Byte) (s : σ) :
    ((S.machine rate).absorb i bs s).1 = S.xorbuf s i bs := by
  induction bs generalizing i s with
  | nil => exact (S.xorbuf_nil s i).symm
  | cons b bs ih =>
      rw [S.xorbuf_cons, ← ih]
      rfl

end SpongeOps

/-! ### The recorder -/

/-- An operation as the transcript shows it. -/
inductive Event (w : Nat)
  | block (b : BitVec w)
  | permute
  | domain
deriving DecidableEq

/-- What is written down, and the bytes in the rate since the last permutation. -/
structure Recorder (w : Nat) where
  events : List (Event w)
  pending : BitVec w
deriving DecidableEq

def Recorder.empty (w : Nat) : Recorder w := ⟨[], 0⟩

def recorder (w : Nat) : SpongeOps (Recorder w) where
  xorbuf r i bs := { r with pending := LittleEndian.xorbuf r.pending i bs }
  permute r := { events := r.events ++ [.block r.pending, .permute], pending := 0 }
  domain r := { r with events := r.events ++ [.domain] }
  xorbuf_nil _ _ := rfl
  xorbuf_cons _ _ _ _ := rfl

variable {w : Nat}

/-- The events and the block in progress. -/
def Recorder.transcript (r : Recorder w) : List (Event w) := r.events ++ [.block r.pending]

/-- The blocks, in order. -/
def blocks (t : List (Event w)) : List (BitVec w) :=
  t.filterMap fun
    | .block b => some b
    | _ => none

/-- The bytes of blocks. -/
def bytes (bs : List (BitVec w)) : List Byte := bs.flatMap fun b => bytesAt b 0 (w / 8)

theorem blocks_append (t t' : List (Event w)) : blocks (t ++ t') = blocks t ++ blocks t' :=
  List.filterMap_append

theorem bytes_append (bs bs' : List (BitVec w)) : bytes (bs ++ bs') = bytes bs ++ bytes bs' :=
  List.flatMap_append

/-! ### What a recorder holds -/

/-- The events and the first `i` bytes in progress are `data`, and there is nothing
behind them. -/
def Holds (i : Nat) (r : Recorder w) (data : List Byte) : Prop :=
  bytes (blocks r.events) ++ bytesAt r.pending 0 i = data ∧
    ∀ j, i ≤ j → 8 * j + 8 ≤ w → byteAt r.pending j = 0

/-- Appends what it is fed. -/
def logMachine (rate : Nat) : Machine (List Byte) Byte where
  rate := rate
  step _ b d := (d ++ [b], b)
  permute d := d

theorem feed_logMachine (rate : Nat) (d : List Byte) (i : Nat) (bs : List Byte) :
    ((logMachine rate).feed (d, i) bs).1.1 = d ++ bs := by
  induction bs generalizing d i with
  | nil => exact (List.append_nil d).symm
  | cons b bs ih =>
      have hadv : (logMachine rate).advance (d ++ [b]) i =
          (d ++ [b], ((logMachine rate).advance (d ++ [b]) i).2) := by
        rw [Machine.advance]
        split
        · rfl
        · rfl
      rw [Machine.feed]
      simp only [logMachine] at hadv ⊢
      rw [hadv]
      exact (ih _ _).trans (by rw [List.append_assoc, List.singleton_append])

theorem bytes_blocks_permute (r : Recorder w) :
    bytes (blocks ((recorder w).permute r).events) =
      bytes (blocks r.events) ++ bytesAt r.pending 0 (w / 8) := by
  simp only [recorder, blocks_append, bytes_append]
  exact congrArg (_ ++ ·) (List.append_nil _)

/-- One byte behind what is held. -/
theorem Holds.xorbuf {i : Nat} {r : Recorder w} {data : List Byte} (h : Holds i r data)
    (hi : 8 * i + 8 ≤ w) (b : Byte) : Holds (i + 1) ((recorder w).xorbuf r i [b]) (data ++ [b]) := by
  obtain ⟨hdata, hzero⟩ := h
  have hbyte : ∀ j, 8 * j + 8 ≤ w → byteAt (LittleEndian.xorbuf r.pending i [b]) j =
      if j = i then b else byteAt r.pending j := by
    intro j hj
    rw [byteAt_xorbuf _ _ _ hj]
    rcases Nat.lt_trichotomy j i with hlt | rfl | hgt
    · rw [if_neg (by omega), if_neg (by omega), BitVec.xor_zero]
    · rw [if_pos (Nat.le_refl _), if_pos rfl, Nat.sub_self, hzero j (Nat.le_refl _) hj]
      exact BitVec.zero_xor
    · rw [if_pos (by omega), if_neg (by omega), List.getElem?_eq_none (by simp; omega)]
      exact BitVec.xor_zero
  refine ⟨?_, ?_⟩
  · have hfirst : bytesAt (LittleEndian.xorbuf r.pending i [b]) 0 i = bytesAt r.pending 0 i := by
      apply bytesAt_congr
      intro j hj
      rw [hbyte _ (by omega), if_neg (by omega)]
    simp only [recorder]
    rw [bytesAt_add, hfirst, ← List.append_assoc, hdata, bytesAt_succ, hbyte _ (by omega),
      if_pos (by omega)]
    rfl
  · intro j hj hjw
    simp only [recorder]
    rw [hbyte j hjw, if_neg (by omega), hzero j (by omega) hjw]

theorem Holds.permute {rate : Nat} (hw : w = 8 * rate) {r : Recorder w} {data : List Byte}
    (h : Holds rate r data) : Holds 0 ((recorder w).permute r) data := by
  refine ⟨?_, ?_⟩
  · rw [bytes_blocks_permute, bytesAt_zero_len, List.append_nil, ← h.1]
    congr 2
    omega
  · intro j _ _
    exact byteAt_zero_mem j

/-- **A recorder holds what it is fed.** -/
theorem Holds.feed {rate i : Nat} (hw : w = 8 * rate) (hi : i < rate) {r : Recorder w}
    {data : List Byte} (h : Holds i r data) (bs : List Byte) :
    let c := (((recorder w).machine rate).feed (r, i) bs).1
    Holds c.2 c.1 (data ++ bs) := by
  have hrel := Machine.feed_rel (D := (recorder w).machine rate) (E := logMachine rate) Holds rfl
    (fun i b r d hi h => Holds.xorbuf h (by change i < rate at hi; omega) b)
    (fun r d h => Holds.permute hw h) hi h bs
  rw [feed_logMachine] at hrel
  exact hrel.1

/-- **The transcript shows the padding of what the recorder holds.** -/
theorem bytes_transcript {rate i : Nat} (hw : w = 8 * rate) (hi : i < rate) {r : Recorder w}
    {data : List Byte} (h : Holds i r data) (hpos : i = data.length % rate) :
    bytes (blocks ((recorder w).pad (r, i)).transcript) = pad10 1 0 rate data := by
  have hpad := h.xorbuf (show 8 * i + 8 ≤ w by omega) 1
  have hrest : bytesAt ((recorder w).pad (r, i)).pending (i + 1) (rate - 1 - i) =
      List.replicate (rate - 1 - i) 0 := by
    apply List.eq_replicate_iff.mpr
    refine ⟨length_bytesAt .., ?_⟩
    intro b hb
    obtain ⟨j, hj, rfl⟩ := List.mem_map.mp hb
    have hlt := List.mem_range.mp hj
    exact hpad.2 _ (by omega) (by omega)
  have hsplit : w / 8 = i + 1 + (rate - 1 - i) := by omega
  have hall : bytes (blocks ((recorder w).pad (r, i)).transcript) =
      bytes (blocks r.events) ++ bytesAt ((recorder w).pad (r, i)).pending 0 (w / 8) := by
    rw [Recorder.transcript, blocks_append, bytes_append]
    exact congrArg (_ ++ ·) (List.append_nil _)
  have hfirst : bytes (blocks r.events) ++
      bytesAt ((recorder w).pad (r, i)).pending 0 (i + 1) = data ++ [1] := hpad.1
  rw [hall, hsplit, bytesAt_add, Nat.zero_add, hrest, ← List.append_assoc, hfirst,
    List.append_assoc, List.singleton_append, pad10, ← hpos]

/-! ### Replay -/

section Replay

variable {σ : Type*} (S : SpongeOps σ)

def Event.apply (s : σ) : Event w → σ
  | .block b => S.xorbuf s 0 (bytesAt b 0 (w / 8))
  | .permute => S.permute s
  | .domain => S.domain s

def replay (s : σ) (t : List (Event w)) : σ := t.foldl (Event.apply S) s

/-- XORs into the rate add up. -/
structure SpongeOps.Xors (w : Nat) : Prop where
  zero : ∀ s, S.xorbuf s 0 (bytesAt (0 : BitVec w) 0 (w / 8)) = s
  merge : ∀ s (p : BitVec w) i b, 8 * i + 8 ≤ w →
    S.xorbuf (S.xorbuf s 0 (bytesAt p 0 (w / 8))) i [b] =
      S.xorbuf s 0 (bytesAt (LittleEndian.xorbuf p i [b]) 0 (w / 8))

/-- The state is the replay of the events with the bytes in progress XORed in. -/
def Replays (s₀ : σ) (r : Recorder w) (s : σ) : Prop :=
  s = S.xorbuf (replay S s₀ r.events) 0 (bytesAt r.pending 0 (w / 8))

variable {S} {s₀ s : σ} {r : Recorder w}

theorem replay_append (s : σ) (t t' : List (Event w)) :
    replay S s (t ++ t') = replay S (replay S s t) t' := List.foldl_append

theorem Replays.start (hx : S.Xors w) (s₀ : σ) : Replays S s₀ (Recorder.empty w) s₀ :=
  (hx.zero s₀).symm

theorem Replays.transcript (h : Replays S s₀ r s) : replay S s₀ r.transcript = s := by
  rw [Recorder.transcript, replay_append]
  exact h.symm

theorem Replays.xorbuf (hx : S.Xors w) (h : Replays S s₀ r s) {i : Nat} (hi : 8 * i + 8 ≤ w)
    (b : Byte) : Replays S s₀ ((recorder w).xorbuf r i [b]) (S.xorbuf s i [b]) := by
  rw [Replays] at h ⊢
  rw [h]
  exact hx.merge _ _ i b hi

theorem Replays.permute (hx : S.Xors w) (h : Replays S s₀ r s) :
    Replays S s₀ ((recorder w).permute r) (S.permute s) := by
  have hreplay : replay S s₀ ((recorder w).permute r).events = S.permute s := by
    rw [h]
    exact replay_append ..
  rw [Replays, hreplay]
  exact (hx.zero _).symm

/-- Domains are separated at the start of a block. -/
theorem Replays.domain (hx : S.Xors w) (h : Replays S s₀ r s) (h0 : r.pending = 0) :
    Replays S s₀ ((recorder w).domain r) (S.domain s) := by
  have hreplay : replay S s₀ ((recorder w).domain r).events = S.domain s := by
    rw [h, h0, hx.zero]
    exact replay_append ..
  rw [Replays, hreplay]
  simp only [recorder, h0, hx.zero]

/-- **Fed with the same bytes, the recorder replays the state.** -/
theorem Replays.feed (hx : S.Xors w) {rate i : Nat} (hw : w = 8 * rate) (hi : i < rate)
    (h : Replays S s₀ r s) (bs : List Byte) :
    Replays S s₀ (((recorder w).machine rate).feed (r, i) bs).1.1
        ((S.machine rate).feed (s, i) bs).1.1 ∧
      (((recorder w).machine rate).feed (r, i) bs).1.2 = ((S.machine rate).feed (s, i) bs).1.2 :=
  Machine.feed_rel (D := (recorder w).machine rate) (E := S.machine rate)
    (fun _ r s => Replays S s₀ r s) rfl
    (fun _ b _ _ hi h => h.xorbuf hx (by change _ < rate at hi; omega) b)
    (fun _ _ h => h.permute hx) hi h bs

theorem Replays.pad_feed (hx : S.Xors w) {rate : Nat} (hw : w = 8 * rate) (h0 : 0 < rate)
    (h : Replays S s₀ r s) (bs : List Byte) :
    Replays S s₀ ((recorder w).pad (((recorder w).machine rate).feed (r, 0) bs).1)
      (S.pad ((S.machine rate).feed (s, 0) bs).1) := by
  obtain ⟨hfeed, hpos⟩ := h.feed hx hw h0 bs
  have hlt : (((recorder w).machine rate).feed (r, 0) bs).1.2 < rate :=
    ((recorder w).machine rate).feed_lt h0 bs
  rw [SpongeOps.pad, SpongeOps.pad, ← hpos]
  exact hfeed.xorbuf hx (by omega) 1

end Replay

/-! ### Where the events go -/

/-- A list is split in one way only at the first place of a mark. -/
theorem split_first {α : Type*} {d : α} {A A' Q Q' : List α} (hA : d ∉ A) (hA' : d ∉ A')
    (h : A ++ d :: Q = A' ++ d :: Q') : A = A' ∧ Q = Q' := by
  induction A generalizing A' with
  | nil =>
      cases A' with
      | nil => exact ⟨rfl, (List.cons.inj h).2⟩
      | cons x A' => exact absurd ((List.cons.inj h).1 ▸ List.mem_cons_self) hA'
  | cons x A ih =>
      cases A' with
      | nil => exact absurd ((List.cons.inj h).1 ▸ List.mem_cons_self) hA
      | cons y A' =>
          obtain ⟨rfl, htail⟩ := List.cons.inj h
          obtain ⟨rfl, hQ⟩ := ih (List.not_mem_of_not_mem_cons hA)
            (List.not_mem_of_not_mem_cons hA') htail
          exact ⟨rfl, hQ⟩

/-- Earlier events stay in front. -/
theorem feed_events_append {rate i : Nat} (hi : i < rate) (pre : List (Event w)) (r : Recorder w)
    (bs : List Byte) :
    let D := (recorder w).machine rate
    (D.feed ({ r with events := pre ++ r.events }, i) bs).1 =
      ({ (D.feed (r, i) bs).1.1 with events := pre ++ (D.feed (r, i) bs).1.1.events },
        (D.feed (r, i) bs).1.2) := by
  intro D
  have hrel := Machine.feed_rel (D := D) (E := D)
    (fun _ r r' => r' = { r with events := pre ++ r.events }) rfl
    (fun i b r r' _ h => by rw [h]; rfl)
    (fun r r' h => by rw [h]; simp only [D, SpongeOps.machine, recorder, List.append_assoc])
    (s := r) hi rfl bs
  exact Prod.ext hrel.1 hrel.2.symm

/-- Data alone separate no domains. -/
theorem feed_domain {rate i : Nat} (hi : i < rate) {r : Recorder w}
    (h : Event.domain ∉ r.events) (bs : List Byte) :
    Event.domain ∉ (((recorder w).machine rate).feed (r, i) bs).1.1.events := by
  apply Machine.feed_invariant (D := (recorder w).machine rate)
    (fun _ r => Event.domain ∉ r.events) (fun _ _ _ _ h => h) _ hi h bs
  intro r h
  simp only [SpongeOps.machine, recorder, List.mem_append, not_or]
  exact ⟨h, by simp⟩

end Recording
