import Mathlib.Data.List.Basic
import Mathlib.Tactic.Common

/-!
# Byte-at-a-time duplex machines

A duplex machine takes symbols one at a time.  It keeps a state and a position
below `rate`; a symbol is taken by `step` at the current position and answers
with a symbol, and the symbol that fills the block is followed by `permute`.
`feed` runs a list of symbols.

Streaming code handles a chunk in phases: what is left of the current block,
then full blocks, then a new partial block.  The rules below turn such code into
`feed`, where the chunk boundaries no longer matter (`feed_append`,
`feedChunks_flatten`):

* `absorb` takes symbols at consecutive positions without `permute`;
  `feed_of_lt` and `feed_of_eq` say that `feed` is `absorb` inside a block.
* `whileBlocks` is the loop `while (len >= rate)` over full blocks, and
  `feed_whileBlocks` says what it computes.
* `threePhase` is the whole update; `threePhase_eq_feed`.
* `Machine.Inverts` relates two machines that undo each other; `feed_inverts`.
-/

namespace Duplex

variable {σ β γ : Type*}

structure Machine (σ β : Type*) where
  rate : Nat
  step : Nat → β → σ → σ × β
  permute : σ → σ

/-- `while (len >= rate) { body(data, rate); data += rate; len -= rate; }`: the
final state, what the bodies wrote, and the data left over. -/
def whileBlocks (rate : Nat) (body : List β → σ → σ × List γ) (s : σ) (data : List β) :
    σ × List γ × List β :=
  if _h : 0 < rate ∧ rate ≤ data.length then
    let r := body (data.take rate) s
    let t := whileBlocks rate body r.1 (data.drop rate)
    (t.1, r.2 ++ t.2.1, t.2.2)
  else (s, [], data)
termination_by data.length
decreasing_by
  rw [List.length_drop]
  omega

theorem whileBlocks_of_lt {rate : Nat} (body : List β → σ → σ × List γ) (s : σ) {data : List β}
    (h : data.length < rate) : whileBlocks rate body s data = (s, [], data) := by
  rw [whileBlocks, dif_neg (by omega)]

theorem whileBlocks_of_le {rate : Nat} (body : List β → σ → σ × List γ) (s : σ) {data : List β}
    (hr : 0 < rate) (h : rate ≤ data.length) :
    whileBlocks rate body s data =
      ((whileBlocks rate body (body (data.take rate) s).1 (data.drop rate)).1,
        (body (data.take rate) s).2 ++
          (whileBlocks rate body (body (data.take rate) s).1 (data.drop rate)).2.1,
        (whileBlocks rate body (body (data.take rate) s).1 (data.drop rate)).2.2) := by
  rw [whileBlocks, dif_pos ⟨hr, h⟩]

/-- Induction on the data of a block loop: fewer than `rate` symbols, or a block and then less. -/
@[elab_as_elim]
theorem blocks_induction (rate : Nat) {motive : List β → Prop} (data : List β)
    (short : ∀ data, ¬ (0 < rate ∧ rate ≤ data.length) → motive data)
    (block : ∀ data, 0 < rate → rate ≤ data.length → (data.take rate).length = rate →
      motive (data.drop rate) → motive data) : motive data := by
  induction hn : data.length using Nat.strongRecOn generalizing data with
  | ind n ih =>
    by_cases hb : 0 < rate ∧ rate ≤ data.length
    · obtain ⟨hr, hle⟩ := hb
      have hlen : (data.take rate).length = rate := by
        rw [List.length_take, Nat.min_eq_left hle]
      have hdrop : (data.drop rate).length < n := by
        rw [List.length_drop]
        omega
      exact block data hr hle hlen (ih _ hdrop (data.drop rate) rfl)
    · exact short data hb

/-- The loop leaves what does not fill a block. -/
theorem length_whileBlocks_rest_eq {rate : Nat} (hr : 0 < rate) (body : List β → σ → σ × List γ)
    (s : σ) (data : List β) : (whileBlocks rate body s data).2.2.length = data.length % rate := by
  induction data using blocks_induction rate generalizing s with
  | short data hb =>
      rw [whileBlocks_of_lt body s (by omega), Nat.mod_eq_of_lt (by omega)]
  | block data _ hle _ ih =>
      rw [whileBlocks_of_le body s hr hle, ih, List.length_drop]
      exact (Nat.mod_eq_sub_mod hle).symm

/-- What is left is the end of the data. -/
theorem whileBlocks_rest_eq {rate : Nat} (hr : 0 < rate) (body : List β → σ → σ × List γ) (s : σ)
    (data : List β) :
    (whileBlocks rate body s data).2.2 = data.drop (rate * (data.length / rate)) := by
  induction data using blocks_induction rate generalizing s with
  | short data hb =>
      rw [whileBlocks_of_lt body s (by omega), Nat.div_eq_of_lt (by omega), Nat.mul_zero,
        List.drop_zero]
  | block data _ hle _ ih =>
      have hdiv : data.length / rate = (data.length - rate) / rate + 1 :=
        Nat.div_eq_sub_div hr hle
      rw [whileBlocks_of_le body s hr hle, ih, List.length_drop, List.drop_drop, hdiv,
        Nat.mul_succ, Nat.add_comm]

theorem length_whileBlocks_rest {rate : Nat} (hr : 0 < rate) (body : List β → σ → σ × List γ)
    (s : σ) (data : List β) : (whileBlocks rate body s data).2.2.length < rate := by
  rw [length_whileBlocks_rest_eq hr]
  exact Nat.mod_lt _ hr

/-- The loop can stop after `data` and go on with what that left and `more`. -/
theorem whileBlocks_append {rate : Nat} (hr : 0 < rate) (body : List β → σ → σ × List γ) (s : σ)
    (data more : List β) :
    let w := whileBlocks rate body s data
    let v := whileBlocks rate body w.1 (w.2.2 ++ more)
    whileBlocks rate body s (data ++ more) = (v.1, w.2.1 ++ v.2.1, v.2.2) := by
  induction data using blocks_induction rate generalizing s with
  | short data hb =>
      rw [whileBlocks_of_lt body s (by omega)]
      rfl
  | block data _ h _ ih =>
      have hle : rate ≤ (data ++ more).length := by
        rw [List.length_append]
        omega
      simp only at ih
      rw [whileBlocks_of_le body s hr h, whileBlocks_of_le body s hr hle,
        List.take_append_of_le_length h, List.drop_append_of_le_length h, ih]
      simp only [List.append_assoc]

/-- Bodies that keep states related and write related data make related loops. -/
theorem whileBlocks_rel {τ δ : Type*} {rate : Nat} {body : List β → σ → σ × List γ}
    {body' : List β → τ → τ × List δ} (R : σ → τ → Prop) (S : List γ → List δ → Prop)
    (hnil : S [] []) (happ : ∀ x x' y y', S x x' → S y y' → S (x ++ y) (x' ++ y'))
    (h : ∀ blk s t, blk.length = rate → R s t →
      R (body blk s).1 (body' blk t).1 ∧ S (body blk s).2 (body' blk t).2)
    {s : σ} {t : τ} (hst : R s t) (data : List β) :
    R (whileBlocks rate body s data).1 (whileBlocks rate body' t data).1 ∧
      S (whileBlocks rate body s data).2.1 (whileBlocks rate body' t data).2.1 ∧
      (whileBlocks rate body s data).2.2 = (whileBlocks rate body' t data).2.2 := by
  induction data using blocks_induction rate generalizing s t with
  | short data hb =>
      rw [whileBlocks, whileBlocks, dif_neg hb, dif_neg hb]
      exact ⟨hst, hnil, rfl⟩
  | block data hr hle hlen ih =>
      obtain ⟨hR, hS⟩ := h _ s t hlen hst
      obtain ⟨hR', hS', hrest⟩ := ih hR
      rw [whileBlocks_of_le body s hr hle, whileBlocks_of_le body' t hr hle]
      exact ⟨hR', happ _ _ _ _ hS hS', hrest⟩

/-- The states and the rest depend on what the bodies do to the state only. -/
theorem whileBlocks_congr_state {δ : Type*} {rate : Nat} {body : List β → σ → σ × List γ}
    {body' : List β → σ → σ × List δ}
    (h : ∀ blk s, blk.length = rate → (body blk s).1 = (body' blk s).1) (s : σ) (data : List β) :
    (whileBlocks rate body s data).1 = (whileBlocks rate body' s data).1 ∧
      (whileBlocks rate body s data).2.2 = (whileBlocks rate body' s data).2.2 := by
  have hstep : ∀ blk s t, blk.length = rate → s = t →
      (body blk s).1 = (body' blk t).1 ∧ True := by
    rintro blk s _ hlen rfl
    exact ⟨h blk s hlen, trivial⟩
  obtain ⟨hstate, -, hrest⟩ := whileBlocks_rel (fun s t => s = t) (fun _ _ => True) trivial
    (fun _ _ _ _ _ _ => trivial) hstep rfl data
  exact ⟨hstate, hrest⟩

/-- What every body keeps, the loop keeps. -/
theorem whileBlocks_invariant {rate : Nat} {body : List β → σ → σ × List γ} (P : σ → Prop)
    (h : ∀ blk s, blk.length = rate → P s → P (body blk s).1) {s : σ} (hs : P s)
    (data : List β) : P (whileBlocks rate body s data).1 := by
  induction data using blocks_induction rate generalizing s with
  | short data hb =>
      rw [whileBlocks, dif_neg hb]
      exact hs
  | block data hr hle hlen ih =>
      rw [whileBlocks_of_le body s hr hle]
      exact ih (h _ s hlen hs)

/-- What no body changes, the loop does not change. -/
theorem whileBlocks_const {α : Type*} {rate : Nat} {body : List β → σ → σ × List γ} (f : σ → α)
    (h : ∀ blk s, f (body blk s).1 = f s) (s : σ) (data : List β) :
    f (whileBlocks rate body s data).1 = f s :=
  whileBlocks_invariant (fun t => f t = f s) (fun blk t _ ht => (h blk t).trans ht) rfl data

/-- What every body adds `rate` to counts the data taken. -/
theorem whileBlocks_count {rate : Nat} {body : List β → σ → σ × List γ} (f : σ → Nat)
    (h : ∀ blk s, blk.length = rate → f (body blk s).1 = f s + rate) (s : σ) (data : List β) :
    f (whileBlocks rate body s data).1 + (whileBlocks rate body s data).2.2.length =
      f s + data.length := by
  induction data using blocks_induction rate generalizing s with
  | short data hb => rw [whileBlocks, dif_neg hb]
  | block data hr hle hlen ih =>
      have hrest := ih (body (data.take rate) s).1
      rw [h _ s hlen, List.length_drop] at hrest
      rw [whileBlocks_of_le body s hr hle]
      simp only
      omega

/-! ### Streaming code -/

/-- Full blocks, then a new partial block. -/
def bulk (rate : Nat) (permute : σ → σ) (part : Nat → List β → σ → σ × List γ) (s : σ)
    (data : List β) : (σ × Nat) × List γ :=
  let body (blk : List β) (s : σ) : σ × List γ :=
    let r := part 0 blk s
    (permute r.1, r.2)
  let r := whileBlocks rate body s data
  let t := part 0 r.2.2 r.1
  ((t.1, r.2.2.length), r.2.1 ++ t.2)

/-- One chunk: fill the block in progress with `part`, return if it is still
short, otherwise permute and go on with `bulk`. -/
def threePhase (rate : Nat) (permute : σ → σ) (part : Nat → List β → σ → σ × List γ)
    (c : σ × Nat) (data : List β) : (σ × Nat) × List γ :=
  if c.2 ≠ 0 then
    let n := min (rate - c.2) data.length
    let r := part c.2 (data.take n) c.1
    if c.2 + n < rate then ((r.1, c.2 + n), r.2)
    else
      let t := bulk rate permute part (permute r.1) (data.drop n)
      (t.1, r.2 ++ t.2)
  else bulk rate permute part c.1 data

section CongrState

variable {δ : Type*} {rate : Nat} (permute : σ → σ) {part : Nat → List β → σ → σ × List γ}
  {part' : Nat → List β → σ → σ × List δ}
  (hpart : ∀ i bs s, i + bs.length ≤ rate → (part i bs s).1 = (part' i bs s).1)
include hpart

theorem bulk_congr_state (hr : 0 < rate) (s : σ) (data : List β) :
    (bulk rate permute part s data).1 = (bulk rate permute part' s data).1 := by
  have hbody : ∀ (blk : List β) (s : σ), blk.length = rate →
      permute (part 0 blk s).1 = permute (part' 0 blk s).1 := by
    intro blk s hlen
    rw [hpart 0 blk s (by omega)]
  let body (blk : List β) (s : σ) : σ × List γ := (permute (part 0 blk s).1, (part 0 blk s).2)
  let body' (blk : List β) (s : σ) : σ × List δ := (permute (part' 0 blk s).1, (part' 0 blk s).2)
  have hcongr : (whileBlocks rate body s data).1 = (whileBlocks rate body' s data).1 ∧
      (whileBlocks rate body s data).2.2 = (whileBlocks rate body' s data).2.2 :=
    whileBlocks_congr_state hbody s data
  obtain ⟨hstate, hrest⟩ := hcongr
  simp only [body, body'] at hstate hrest
  have hlt := length_whileBlocks_rest hr body' s data
  simp only [body'] at hlt
  simp only [bulk, hstate, hrest]
  rw [hpart 0 _ _ (by omega)]

/-- What the parts do to the state settles what the phases do to it. -/
theorem threePhase_congr_state {c : σ × Nat} (hc : c.2 < rate) (data : List β) :
    (threePhase rate permute part c data).1 = (threePhase rate permute part' c data).1 := by
  have hbulk := bulk_congr_state permute hpart (by omega)
  have hlen : (data.take (min (rate - c.2) data.length)).length = min (rate - c.2) data.length := by
    simp
  have hfill := hpart c.2 (data.take (min (rate - c.2) data.length)) c.1 (by omega)
  simp only [threePhase]
  by_cases h0 : c.2 ≠ 0
  · rw [if_pos h0, if_pos h0]
    by_cases hlt : c.2 + min (rate - c.2) data.length < rate
    · rw [if_pos hlt, if_pos hlt]
      simp only [hfill]
    · rw [if_neg hlt, if_neg hlt]
      simp only [hfill, hbulk]
  · rw [if_neg h0, if_neg h0]
    exact hbulk c.1 data

end CongrState

/-! ### The machine -/

namespace Machine

variable (D : Machine σ β)

/-- Symbols at positions `i`, `i + 1`, …, with no permutation. -/
def absorb (i : Nat) : List β → σ → σ × List β
  | [], s => (s, [])
  | b :: bs, s =>
    let r := D.step i b s
    let t := absorb (i + 1) bs r.1
    (t.1, r.2 :: t.2)

/-- The state and position after the symbol at position `i` has left `s`. -/
def advance (s : σ) (i : Nat) : σ × Nat := if i + 1 = D.rate then (D.permute s, 0) else (s, i + 1)

def feed (c : σ × Nat) : List β → (σ × Nat) × List β
  | [] => (c, [])
  | b :: bs =>
    let r := D.step c.2 b c.1
    let t := feed (D.advance r.1 c.2) bs
    (t.1, r.2 :: t.2)

/-- Chunks fed one after another, with the answer to each. -/
def feedChunks (c : σ × Nat) : List (List β) → (σ × Nat) × List (List β)
  | [] => (c, [])
  | bs :: chunks =>
    let r := D.feed c bs
    let t := feedChunks r.1 chunks
    (t.1, r.2 :: t.2)

@[simp] theorem absorb_nil (i : Nat) (s : σ) : D.absorb i [] s = (s, []) := rfl
@[simp] theorem feed_nil (c : σ × Nat) : D.feed c [] = (c, []) := rfl

@[simp] theorem length_absorb (i : Nat) (bs : List β) (s : σ) :
    (D.absorb i bs s).2.length = bs.length := by
  induction bs generalizing i s with
  | nil => rfl
  | cons b bs ih => simp only [absorb, List.length_cons, ih]

@[simp] theorem length_feed (c : σ × Nat) (bs : List β) : (D.feed c bs).2.length = bs.length := by
  induction bs generalizing c with
  | nil => rfl
  | cons b bs ih => simp only [feed, List.length_cons, ih]

theorem advance_lt {s : σ} {i : Nat} (hi : i < D.rate) : (D.advance s i).2 < D.rate := by
  unfold advance
  split
  · simp only
    omega
  · simp only
    omega

/-- The position stays below the rate. -/
theorem feed_lt {c : σ × Nat} (hc : c.2 < D.rate) (bs : List β) :
    (D.feed c bs).1.2 < D.rate := by
  induction bs generalizing c with
  | nil => exact hc
  | cons b bs ih => exact ih (D.advance_lt hc)

/-- The position counts the symbols modulo the rate. -/
theorem feed_position {c : σ × Nat} (hc : c.2 < D.rate) (bs : List β) :
    (D.feed c bs).1.2 = (c.2 + bs.length) % D.rate := by
  induction bs generalizing c with
  | nil => exact (Nat.mod_eq_of_lt hc).symm
  | cons b bs ih =>
      rw [feed, ih (D.advance_lt hc), List.length_cons, advance]
      split
      · next hfull => rw [show c.2 + (bs.length + 1) = bs.length + D.rate by omega]; simp
      · rw [show c.2 + 1 + bs.length = c.2 + (bs.length + 1) by omega]

theorem feed_append (c : σ × Nat) (xs ys : List β) :
    D.feed c (xs ++ ys) =
      ((D.feed (D.feed c xs).1 ys).1, (D.feed c xs).2 ++ (D.feed (D.feed c xs).1 ys).2) := by
  induction xs generalizing c with
  | nil => rfl
  | cons b xs ih => simp only [List.cons_append, feed, ih]

/-- What is answered so far does not depend on what comes next. -/
theorem feed_take (c : σ × Nat) (bs : List β) (n : Nat) :
    (D.feed c (bs.take n)).2 = (D.feed c bs).2.take n := by
  induction bs generalizing c n with
  | nil => simp only [List.take_nil, feed_nil]
  | cons b bs ih =>
      cases n with
      | zero => rfl
      | succ n => simp only [List.take_succ_cons, feed, ih]

/-- Symbol `i` is answered by `step` where the symbols before it lead. -/
theorem getElem?_feed (c : σ × Nat) (bs : List β) (i : Nat) :
    (D.feed c bs).2[i]? =
      bs[i]?.map fun b => (D.step (D.feed c (bs.take i)).1.2 b (D.feed c (bs.take i)).1.1).2 := by
  induction bs generalizing c i with
  | nil => simp only [feed_nil, List.getElem?_nil, Option.map_none]
  | cons b bs ih =>
      cases i with
      | zero => rfl
      | succ i => simp only [feed, List.getElem?_cons_succ, List.take_succ_cons, ih]

/-- **Chunk boundaries do not matter.** -/
theorem feedChunks_flatten (c : σ × Nat) (chunks : List (List β)) :
    D.feed c chunks.flatten = ((D.feedChunks c chunks).1, (D.feedChunks c chunks).2.flatten) := by
  induction chunks generalizing c with
  | nil => rfl
  | cons bs chunks ih => simp only [List.flatten_cons, feed_append, feedChunks, ih]

theorem length_feedChunks (c : σ × Nat) (chunks : List (List β)) :
    (D.feedChunks c chunks).2.map List.length = chunks.map List.length := by
  induction chunks generalizing c with
  | nil => rfl
  | cons bs chunks ih => simp only [feedChunks, List.map_cons, length_feed, ih]

/-- **Simulation.**  A relation between the states at each position that one
symbol and the permutation keep is kept by `feed`. -/
theorem feed_rel {τ : Type*} {D : Machine σ β} {E : Machine τ β} (R : Nat → σ → τ → Prop)
    (hrate : D.rate = E.rate)
    (hstep : ∀ i b s t, i < D.rate → R i s t → R (i + 1) (D.step i b s).1 (E.step i b t).1)
    (hpermute : ∀ s t, R D.rate s t → R 0 (D.permute s) (E.permute t)) {s : σ} {t : τ} {i : Nat}
    (hi : i < D.rate) (h : R i s t) (bs : List β) :
    R (D.feed (s, i) bs).1.2 (D.feed (s, i) bs).1.1 (E.feed (t, i) bs).1.1 ∧
      (D.feed (s, i) bs).1.2 = (E.feed (t, i) bs).1.2 := by
  induction bs generalizing s t i with
  | nil => exact ⟨h, rfl⟩
  | cons b bs ih =>
      have hnext := hstep i b s t hi h
      simp only [feed, advance, ← hrate]
      by_cases hfull : i + 1 = D.rate
      · rw [if_pos hfull, if_pos hfull]
        rw [hfull] at hnext
        exact ih (by omega) (hpermute _ _ hnext)
      · rw [if_neg hfull, if_neg hfull]
        exact ih (by omega) hnext

/-- What one symbol and the permutation keep, `feed` keeps. -/
theorem feed_invariant (P : Nat → σ → Prop)
    (hstep : ∀ i b s, i < D.rate → P i s → P (i + 1) (D.step i b s).1)
    (hpermute : ∀ s, P D.rate s → P 0 (D.permute s)) {s : σ} {i : Nat} (hi : i < D.rate)
    (h : P i s) (bs : List β) : P (D.feed (s, i) bs).1.2 (D.feed (s, i) bs).1.1 :=
  (feed_rel (E := D) (fun i s _ => P i s) rfl (fun i b s _ => hstep i b s)
    (fun s _ => hpermute s) (t := s) hi h bs).1

/-- The same symbols keep different states different. -/
theorem feed_injective (hstep : ∀ i b, Function.Injective fun s => (D.step i b s).1)
    (hpermute : Function.Injective D.permute) {s s' : σ} {i : Nat} {bs : List β}
    (h : (D.feed (s, i) bs).1.1 = (D.feed (s', i) bs).1.1) : s = s' := by
  induction bs generalizing s s' i with
  | nil => exact h
  | cons b bs ih =>
      simp only [feed, advance] at h
      by_cases hfull : i + 1 = D.rate
      · rw [if_pos hfull, if_pos hfull] at h
        exact hstep i b (hpermute (ih h))
      · rw [if_neg hfull, if_neg hfull] at h
        exact hstep i b (ih h)

/-! ### Inside a block -/

theorem feed_of_lt {s : σ} {i : Nat} {bs : List β} (h : i + bs.length < D.rate) :
    D.feed (s, i) bs = (((D.absorb i bs s).1, i + bs.length), (D.absorb i bs s).2) := by
  induction bs generalizing s i with
  | nil => rfl
  | cons b bs ih =>
      rw [List.length_cons] at h
      simp only [feed, absorb, advance, if_neg (show ¬ i + 1 = D.rate by omega)]
      rw [ih (by omega), List.length_cons, show i + 1 + bs.length = i + (bs.length + 1) by omega]

theorem feed_of_eq {s : σ} {i : Nat} {bs : List β} (hi : i < D.rate) (h : i + bs.length = D.rate) :
    D.feed (s, i) bs = ((D.permute (D.absorb i bs s).1, 0), (D.absorb i bs s).2) := by
  induction bs generalizing s i with
  | nil =>
      rw [List.length_nil] at h
      omega
  | cons b bs ih =>
      rw [List.length_cons] at h
      by_cases hn : i + 1 = D.rate
      · have hbs : bs = [] := List.eq_nil_of_length_eq_zero (by omega)
        subst hbs
        simp only [feed, absorb, advance, if_pos hn]
      · simp only [feed, absorb, advance, if_neg hn]
        rw [ih (by omega) (by omega)]

/-- A block filled as far as the data go. -/
theorem feed_fill {s : σ} {i : Nat} (hi : i < D.rate) (data : List β) :
    let n := min (D.rate - i) data.length
    (D.feed (s, i) (data.take n)).1 =
      if i + n = D.rate then (D.permute (D.absorb i (data.take n) s).1, 0)
      else ((D.absorb i (data.take n) s).1, i + n) := by
  intro n
  have hn : n = min (D.rate - i) data.length := rfl
  have hlen : (data.take n).length = n := by
    rw [List.length_take]
    omega
  by_cases hfull : i + n = D.rate
  · rw [if_pos hfull, D.feed_of_eq hi (by rw [hlen, hfull])]
  · rw [if_neg hfull, D.feed_of_lt (by omega), hlen]

/-- The bodies of a block loop that absorb a block and permute do what `feed` does. -/
theorem feed_whileBlocks {body : List β → σ → σ × List β} (hr : 0 < D.rate)
    (hbody : ∀ blk s, blk.length = D.rate →
      body blk s = (D.permute (D.absorb 0 blk s).1, (D.absorb 0 blk s).2))
    (s : σ) (data : List β) :
    D.feed (s, 0) data =
      let r := whileBlocks D.rate body s data
      (((D.absorb 0 r.2.2 r.1).1, r.2.2.length), r.2.1 ++ (D.absorb 0 r.2.2 r.1).2) := by
  induction data using blocks_induction D.rate generalizing s with
  | short data hb =>
      rw [whileBlocks_of_lt body s (by omega), D.feed_of_lt (by omega)]
      simp only [Nat.zero_add, List.nil_append]
  | block data _ hle hlen ih =>
      have hsplit : D.feed (s, 0) data =
          D.feed (s, 0) (data.take D.rate ++ data.drop D.rate) := by
        rw [List.take_append_drop]
      rw [hsplit, feed_append, D.feed_of_eq hr (by omega), whileBlocks_of_le body s hr hle,
        hbody _ _ hlen]
      simp only
      rw [ih]
      simp only [List.append_assoc]

/-- Bodies that absorb a block and permute, whatever they write. -/
theorem feed_absorbBlocks {body : List β → σ → σ × List γ} (hr : 0 < D.rate)
    (hbody : ∀ blk s, blk.length = D.rate → (body blk s).1 = D.permute (D.absorb 0 blk s).1)
    (s : σ) (data : List β) :
    (D.feed (s, 0) data).1 =
      let r := whileBlocks D.rate body s data
      ((D.absorb 0 r.2.2 r.1).1, r.2.2.length) := by
  let body' (blk : List β) (s : σ) : σ × List β :=
    (D.permute (D.absorb 0 blk s).1, (D.absorb 0 blk s).2)
  have hcongr : (whileBlocks D.rate body s data).1 = (whileBlocks D.rate body' s data).1 ∧
      (whileBlocks D.rate body s data).2.2 = (whileBlocks D.rate body' s data).2.2 :=
    whileBlocks_congr_state hbody s data
  obtain ⟨hstate, hrest⟩ := hcongr
  have hbody' : ∀ blk s, blk.length = D.rate →
      body' blk s = (D.permute (D.absorb 0 blk s).1, (D.absorb 0 blk s).2) := fun _ _ _ => rfl
  rw [D.feed_whileBlocks hr hbody' s data]
  simp only [hstate, hrest]

/-! ### The update in three phases -/

section ThreePhase

variable {part : Nat → List β → σ → σ × List β}
  (hpart : ∀ i bs s, i + bs.length ≤ D.rate → part i bs s = D.absorb i bs s)
include hpart

theorem bulk_eq_feed (hr : 0 < D.rate) (s : σ) (data : List β) :
    bulk D.rate D.permute part s data = D.feed (s, 0) data := by
  have hbody : ∀ (blk : List β) (s : σ), blk.length = D.rate →
      (D.permute (part 0 blk s).1, (part 0 blk s).2) =
        (D.permute (D.absorb 0 blk s).1, (D.absorb 0 blk s).2) := by
    intro blk s hb
    rw [hpart 0 blk s (by omega)]
  have hrest := length_whileBlocks_rest hr
    (fun (blk : List β) s => (D.permute (part 0 blk s).1, (part 0 blk s).2)) s data
  rw [D.feed_whileBlocks hr hbody s data]
  simp only [bulk]
  rw [hpart 0 _ _ (by omega)]

/-- **The three phases are `feed`** when `part` absorbs inside a block. -/
theorem threePhase_eq_feed {c : σ × Nat} (hc : c.2 < D.rate) (data : List β) :
    threePhase D.rate D.permute part c data = D.feed c data := by
  obtain ⟨s, i⟩ := c
  simp only at hc
  have hbulk := D.bulk_eq_feed hpart (by omega)
  simp only [threePhase, hbulk]
  by_cases hi : i = 0
  · subst hi
    rw [if_neg (by simp)]
  · have hn : (data.take (min (D.rate - i) data.length)).length =
        min (D.rate - i) data.length := by simp
    rw [if_pos hi, hpart _ _ _ (by omega)]
    by_cases hlt : i + min (D.rate - i) data.length < D.rate
    · have hall : min (D.rate - i) data.length = data.length := by omega
      rw [if_pos hlt, hall, List.take_length, D.feed_of_lt (by omega)]
    · rw [if_neg hlt]
      conv_rhs => rw [← List.take_append_drop (min (D.rate - i) data.length) data]
      rw [feed_append, D.feed_of_eq hc (by omega)]

end ThreePhase

/-- **The phases go where `feed` goes**, whatever their parts write. -/
theorem threePhase_state_eq_feed {part : Nat → List β → σ → σ × List γ}
    (hpart : ∀ i bs s, i + bs.length ≤ D.rate → (part i bs s).1 = (D.absorb i bs s).1)
    {c : σ × Nat} (hc : c.2 < D.rate) (data : List β) :
    (threePhase D.rate D.permute part c data).1 = (D.feed c data).1 := by
  rw [threePhase_congr_state D.permute hpart hc,
    D.threePhase_eq_feed (fun _ _ _ _ => rfl) hc]

/-! ### Machines that undo each other -/

/-- `D` undoes `E`: fed with `E`'s answer it answers the symbol and goes to the
same state. -/
structure Inverts (D E : Machine σ β) : Prop where
  rate_eq : D.rate = E.rate
  permute_eq : D.permute = E.permute
  step_eq : ∀ i b s, i < E.rate → D.step i (E.step i b s).2 s = ((E.step i b s).1, b)

theorem feed_inverts {D E : Machine σ β} (h : D.Inverts E) {c : σ × Nat} (hc : c.2 < E.rate)
    (bs : List β) : D.feed c (E.feed c bs).2 = ((E.feed c bs).1, bs) := by
  induction bs generalizing c with
  | nil => rfl
  | cons b bs ih =>
      have hadv : ∀ s i, D.advance s i = E.advance s i := by
        intro s i
        simp only [advance, h.rate_eq, h.permute_eq]
      simp only [feed, h.step_eq _ _ _ hc, hadv]
      rw [ih (E.advance_lt hc)]

end Machine

end Duplex
