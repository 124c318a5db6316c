import Mathlib.Logic.Function.Basic
import AsconDtls.Lib.Duplex
import AsconDtls.Lib.Run

/-!
# Streaming through memory

Streaming code reads from one pointer, writes to another and moves both on.  A `Window` is the
memory with the two pointers and the length that is left.  When the output runs no further than
the input does (`Window.Ahead`, which holds when the two are the same), what is still to be read is
as it was at the start, and the code leaves in the output what it gives on a list of the input.

* `put_data`: after a write the rest of the input is as before.
* `Does`: a piece of code on a window does what a function on lists does.
* `whileBlocksAt_eq`, `threePhaseAt_eq`: so do a loop over full blocks and streaming code.
* `updatesAt_eq`: so do calls with one chunk after another.
* `sameInPlace`: in place, they do what they do with two buffers.
-/

namespace InPlace

open Duplex (blocks_induction whileBlocks whileBlocks_of_le whileBlocks_of_lt threePhase bulk)

variable {σ β ο : Type*}

abbrev Mem (β : Type*) := Nat → β

/-- The `n` elements at `p`. -/
def load (m : Mem β) (p : Nat) : Nat → List β
  | 0 => []
  | n + 1 => m p :: load m (p + 1) n

/-- One element after another to `p`. -/
def store (m : Mem β) (p : Nat) : List β → Mem β
  | [] => m
  | b :: bs => store (Function.update m p b) (p + 1) bs

@[simp] theorem length_load (m : Mem β) (p n : Nat) : (load m p n).length = n := by
  induction n generalizing p with
  | zero => rfl
  | succ n ih => rw [load, List.length_cons, ih]

theorem load_add (m : Mem β) (p k n : Nat) :
    load m p (k + n) = load m p k ++ load m (p + k) n := by
  induction k generalizing p with
  | zero => rw [Nat.zero_add, load, List.nil_append, Nat.add_zero]
  | succ k ih =>
      rw [Nat.add_right_comm, load, ih, load, List.cons_append, Nat.add_right_comm p 1 k,
        Nat.add_assoc p k 1]

theorem take_load (m : Mem β) (p : Nat) {k n : Nat} (h : k ≤ n) :
    (load m p n).take k = load m p k := by
  obtain ⟨j, rfl⟩ := Nat.exists_eq_add_of_le h
  rw [load_add, List.take_left' (length_load m p k)]

theorem drop_load (m : Mem β) (p : Nat) {k n : Nat} (h : k ≤ n) :
    (load m p n).drop k = load m (p + k) (n - k) := by
  obtain ⟨j, rfl⟩ := Nat.exists_eq_add_of_le h
  rw [load_add, List.drop_left' (length_load m p k), Nat.add_sub_cancel_left]

theorem load_congr {m m' : Mem β} {p n : Nat} (h : ∀ a, p ≤ a → a < p + n → m a = m' a) :
    load m p n = load m' p n := by
  induction n generalizing p with
  | zero => rfl
  | succ n ih =>
      rw [load, load, h p (by omega) (by omega), ih fun a hp hn => h a (by omega) (by omega)]

/-- Where two loads agree, so does what they load. -/
theorem eq_of_load_eq {m m' : Mem β} {p q n : Nat} (h : load m p n = load m' q n) {i : Nat}
    (hi : i < n) : m (p + i) = m' (q + i) := by
  induction n generalizing p q i with
  | zero => omega
  | succ n ih =>
      rw [load, load] at h
      obtain ⟨hhead, htail⟩ := List.cons.inj h
      cases i with
      | zero => exact hhead
      | succ i =>
          have hnext := ih htail (Nat.lt_of_succ_lt_succ hi)
          rwa [Nat.add_assoc, Nat.add_assoc, Nat.add_comm 1 i] at hnext

/-- What is not written to stays. -/
theorem store_apart (m : Mem β) (p : Nat) (bs : List β) {a : Nat}
    (h : a < p ∨ p + bs.length ≤ a) : store m p bs a = m a := by
  induction bs generalizing m p with
  | nil => rfl
  | cons b bs ih =>
      rw [List.length_cons] at h
      rw [store, ih _ _ (by omega), Function.update_of_ne (by omega)]

theorem load_store_apart (m : Mem β) (p : Nat) (bs : List β) {q n : Nat}
    (h : q + n ≤ p ∨ p + bs.length ≤ q) : load (store m p bs) q n = load m q n :=
  load_congr fun _ _ _ => store_apart m p bs (by omega)

theorem load_store (m : Mem β) (p : Nat) (bs : List β) :
    load (store m p bs) p bs.length = bs := by
  induction bs generalizing m p with
  | nil => rfl
  | cons b bs ih =>
      rw [List.length_cons, load, store, ih, store_apart _ _ _ (Or.inl (Nat.lt_succ_self p)),
        Function.update_self]

theorem store_append (m : Mem β) (p : Nat) (bs cs : List β) :
    store (store m p bs) (p + bs.length) cs = store m p (bs ++ cs) := by
  induction bs generalizing m p with
  | nil => rfl
  | cons b bs ih =>
      rw [List.length_cons, store, List.cons_append, store, ← ih, Nat.add_right_comm,
        Nat.add_assoc p bs.length 1]

/-! ### Windows -/

/-- `out`, `in`, and the elements that are left to do. -/
structure Window (β : Type*) where
  mem : Mem β
  out : Nat
  inp : Nat
  size : Nat

namespace Window

/-- The input that is left. -/
def data (w : Window β) : List β := load w.mem w.inp w.size

/-- Nothing that is left to read is overwritten before. -/
def Ahead (w : Window β) : Prop := w.out ≤ w.inp ∨ w.inp + w.size ≤ w.out

/-- `in += k; out += k; inSz -= k;` after a write. -/
def advance (w : Window β) (m : Mem β) (k : Nat) : Window β :=
  ⟨m, w.out + k, w.inp + k, w.size - k⟩

/-- The window after `bs` have been written. -/
def put (w : Window β) (bs : List β) : Window β := w.advance (store w.mem w.out bs) bs.length

@[simp] theorem length_data (w : Window β) : w.data.length = w.size := length_load ..

theorem put_put (w : Window β) (bs cs : List β) : (w.put bs).put cs = w.put (bs ++ cs) := by
  simp only [put, advance, store_append, List.length_append, Nat.add_assoc, Nat.sub_sub]

theorem Ahead.put {w : Window β} (h : w.Ahead) {bs : List β} (hlen : bs.length ≤ w.size) :
    (w.put bs).Ahead := by
  simp only [Ahead, Window.put, advance] at h ⊢
  omega

theorem put_data {w : Window β} (h : w.Ahead) {bs : List β} (hlen : bs.length ≤ w.size) :
    (w.put bs).data = w.data.drop bs.length := by
  show load _ _ _ = (load w.mem w.inp w.size).drop bs.length
  rw [drop_load _ _ hlen]
  refine load_store_apart _ _ _ ?_
  show w.inp + bs.length + (w.size - bs.length) ≤ w.out ∨ w.out + bs.length ≤ w.inp + bs.length
  simp only [Ahead] at h
  omega

end Window

open Window

/-! ### Code that does what a function on lists does -/

/-- On the next `k` elements, `piece` does what `part` does on a list of them. -/
def Does (k : Nat) (piece : σ → Window β → σ × Mem β) (part : List β → σ → σ × List β) : Prop :=
  ∀ s w, w.Ahead → k ≤ w.size →
    piece s w = ((part (w.data.take k) s).1, store w.mem w.out (part (w.data.take k) s).2) ∧
      (part (w.data.take k) s).2.length = k

theorem Does.advance {k : Nat} {piece : σ → Window β → σ × Mem β}
    {part : List β → σ → σ × List β} (h : Does k piece part) (s : σ) {w : Window β}
    (hw : w.Ahead) (hk : k ≤ w.size) :
    (piece s w).1 = (part (w.data.take k) s).1 ∧
      w.advance (piece s w).2 k = w.put (part (w.data.take k) s).2 := by
  obtain ⟨hpiece, hlen⟩ := h s w hw hk
  rw [hpiece]
  refine ⟨rfl, ?_⟩
  rw [put, hlen]

/-- `while (len >= rate)`. -/
def whileBlocksAt (rate : Nat) (body : σ → Window β → σ × Mem β) (s : σ) (w : Window β) :
    σ × Window β :=
  if _h : 0 < rate ∧ rate ≤ w.size then
    let r := body s w
    whileBlocksAt rate body r.1 (w.advance r.2 rate)
  else (s, w)
termination_by w.size
decreasing_by
  show w.size - rate < w.size
  omega

/-- What a loop on lists writes and leaves is its input, by length. -/
theorem length_whileBlocks {rate : Nat} {body : List β → σ → σ × List β}
    (h : ∀ blk s, blk.length = rate → (body blk s).2.length = rate) (s : σ) (data : List β) :
    (whileBlocks rate body s data).2.1.length + (whileBlocks rate body s data).2.2.length =
      data.length := by
  induction data using blocks_induction rate generalizing s with
  | short data hb =>
      rw [whileBlocks, dif_neg hb]
      exact Nat.zero_add _
  | block data hr hle htake ih =>
      have hrest := ih (body (data.take rate) s).1
      rw [List.length_drop] at hrest
      rw [whileBlocks_of_le body s hr hle]
      simp only [List.length_append]
      rw [h _ _ htake]
      omega

/-- By induction on what is left: a round reads and writes one block, and the rest of the input is
as it was. -/
theorem whileBlocksAt_eq {rate : Nat} {body : σ → Window β → σ × Mem β}
    {body' : List β → σ → σ × List β} (h : Does rate body body') (s : σ) {w : Window β}
    (hw : w.Ahead) :
    whileBlocksAt rate body s w =
      ((whileBlocks rate body' s w.data).1, w.put (whileBlocks rate body' s w.data).2.1) ∧
      (w.put (whileBlocks rate body' s w.data).2.1).data = (whileBlocks rate body' s w.data).2.2 ∧
      (whileBlocks rate body' s w.data).2.1.length ≤ w.size := by
  induction hn : w.size using Nat.strongRecOn generalizing s w with
  | ind n ih =>
    rw [whileBlocksAt]
    by_cases hb : 0 < rate ∧ rate ≤ w.size
    · obtain ⟨hr, hle⟩ := hb
      obtain ⟨hstate, hadvance⟩ := h.advance s hw hle
      have hlen := (h s w hw hle).2
      have hput : (w.put (body' (w.data.take rate) s).2).data = w.data.drop _ :=
        put_data hw (by omega)
      have hsize : (w.put (body' (w.data.take rate) s).2).size = n - rate := by
        show w.size - _ = _
        rw [hlen, hn]
      obtain ⟨hloop, hrest, hout⟩ := ih (n - rate) (by omega) (body' (w.data.take rate) s).1
        (hw.put (by omega)) hsize
      rw [hlen] at hput
      rw [hput] at hloop hrest hout
      rw [put_put] at hloop hrest
      rw [dif_pos ⟨hr, hle⟩]
      simp only
      rw [hstate, hadvance, hloop, whileBlocks_of_le body' s hr (by rwa [length_data])]
      refine ⟨rfl, hrest, ?_⟩
      rw [List.length_append, hlen]
      omega
    · rw [dif_neg hb, whileBlocks, dif_neg (by rwa [length_data])]
      exact ⟨rfl, rfl, Nat.zero_le _⟩

section ThreePhase

variable (rate : Nat) (permute : σ → σ) (piece : Nat → Nat → σ → Window β → σ × Mem β)

/-- `Duplex.bulk` on a window. -/
def bulkAt (s : σ) (w : Window β) : (σ × Nat) × Window β :=
  let body (s : σ) (w : Window β) : σ × Mem β :=
    let u := piece 0 rate s w
    (permute u.1, u.2)
  let r := whileBlocksAt rate body s w
  let t := piece 0 r.2.size r.1 r.2
  ((t.1, r.2.size), r.2.advance t.2 r.2.size)

/-- `Duplex.threePhase` on a window. -/
def threePhaseAt (c : σ × Nat) (w : Window β) : (σ × Nat) × Window β :=
  if c.2 ≠ 0 then
    let n := min (rate - c.2) w.size
    let r := piece c.2 n c.1 w
    let w := w.advance r.2 n
    if c.2 + n < rate then ((r.1, c.2 + n), w) else bulkAt rate permute piece (permute r.1) w
  else bulkAt rate permute piece c.1 w

variable {rate piece} {part : Nat → List β → σ → σ × List β} (hr : 0 < rate)
  (hpiece : ∀ i n, i + n ≤ rate → Does n (piece i n) (part i))
include hr hpiece

theorem bulkAt_eq (s : σ) {w : Window β} (hw : w.Ahead) :
    bulkAt rate permute piece s w =
      ((bulk rate permute part s w.data).1, w.put (bulk rate permute part s w.data).2) := by
  have hbody : Does rate (fun s w => (permute (piece 0 rate s w).1, (piece 0 rate s w).2))
      (fun blk s => (permute (part 0 blk s).1, (part 0 blk s).2)) := by
    intro s w hw hle
    obtain ⟨hstep, hlen⟩ := hpiece 0 rate (by omega) s w hw hle
    exact ⟨by simp only [hstep], hlen⟩
  obtain ⟨hloop, hrest, hout⟩ := whileBlocksAt_eq hbody s hw
  have hahead := hw.put hout
  have hsize := Duplex.length_whileBlocks_rest hr
    (fun blk s => (permute (part 0 blk s).1, (part 0 blk s).2)) s w.data
  rw [← hrest, length_data] at hsize
  obtain ⟨hstate, hadvance⟩ := (hpiece 0 _ (by omega)).advance
    (whileBlocks rate (fun blk s => (permute (part 0 blk s).1, (part 0 blk s).2)) s w.data).1
    hahead (Nat.le_refl _)
  rw [← length_data, List.take_length, hrest] at hstate hadvance
  rw [put_put] at hadvance
  simp only [bulkAt, bulk]
  rw [hloop]
  simp only
  rw [← length_data, hrest, hstate, hadvance]

/-- **Streaming code on a window is streaming code on a list.** -/
theorem threePhaseAt_eq {c : σ × Nat} (hc : c.2 < rate) {w : Window β} (hw : w.Ahead) :
    threePhaseAt rate permute piece c w =
      ((threePhase rate permute part c w.data).1,
        w.put (threePhase rate permute part c w.data).2) := by
  rw [threePhaseAt, threePhase]
  split
  · simp only [length_data]
    obtain ⟨n, hn⟩ : ∃ n, n = min (rate - c.2) w.size := ⟨_, rfl⟩
    have hle : n ≤ w.size := hn ▸ Nat.min_le_right ..
    have hdoes := hpiece c.2 n (by omega)
    have hlen := (hdoes c.1 w hw hle).2
    obtain ⟨hstate, hadvance⟩ := hdoes.advance c.1 hw hle
    rw [← hn, hstate, hadvance]
    split
    · rfl
    · have hput : (w.put (part c.2 (w.data.take n) c.1).2).data = w.data.drop _ :=
        put_data hw (by omega)
      rw [bulkAt_eq permute hr hpiece _ (hw.put (by omega)), hput, hlen, put_put]
  · exact bulkAt_eq permute hr hpiece c.1 hw

end ThreePhase

section Length

variable (rate : Nat) (permute : σ → σ) {part : Nat → List β → σ → σ × List β}
  (hlen : ∀ i bs s, (part i bs s).2.length = bs.length)
include hlen

theorem length_bulk (s : σ) (data : List β) :
    (bulk rate permute part s data).2.length = data.length := by
  let body (blk : List β) (s : σ) : σ × List β := (permute (part 0 blk s).1, (part 0 blk s).2)
  have hbody : ∀ blk s, blk.length = rate → (body blk s).2.length = rate :=
    fun blk s h => (hlen 0 blk s).trans h
  have hloop := length_whileBlocks hbody s data
  rw [bulk, List.length_append, hlen]
  exact hloop

theorem length_threePhase (c : σ × Nat) (data : List β) :
    (threePhase rate permute part c data).2.length = data.length := by
  rw [threePhase]
  split
  · next h0 =>
      simp only
      split
      · next hlt =>
          rw [hlen, List.length_take]
          omega
      · rw [List.length_append, hlen, length_bulk rate permute hlen, List.length_take,
          List.length_drop]
        omega
  · exact length_bulk rate permute hlen c.1 data

end Length

/-! ### One call after another -/

/-- Where `P` holds of the state, a call on a window does what `f` does on the list of its input:
the state, the reply and the output. -/
def Streams (P : σ → Prop) (update : σ → Window β → (σ × ο) × Window β)
    (f : σ → List β → σ × ο × List β) : Prop :=
  ∀ s w, P s → w.Ahead →
    update s w = (((f s w.data).1, (f s w.data).2.1), w.put (f s w.data).2.2) ∧
      (f s w.data).2.2.length = w.size ∧ P (f s w.data).1

/-- Calls with chunks of these sizes, each at the end of the one before. -/
def updatesAt (update : σ → Window β → (σ × ο) × Window β) (s : σ) (m : Mem β) (out inp : Nat) :
    List Nat → (σ × List ο) × Mem β
  | [] => ((s, []), m)
  | n :: ns =>
    let r := update s ⟨m, out, inp, n⟩
    let t := updatesAt update r.1.1 r.2.mem (out + n) (inp + n) ns
    ((t.1.1, r.1.2 :: t.1.2), t.2)

/-- The output of a run on lists. -/
def outputs (rs : List (ο × List β)) : List β := (rs.map Prod.snd).flatten

theorem updatesAt_eq {P : σ → Prop} {update : σ → Window β → (σ × ο) × Window β}
    {f : σ → List β → σ × ο × List β} (h : Streams P update f) {s : σ} (hs : P s) {m : Mem β}
    {out inp : Nat} {chunks : List (List β)} (hdata : load m inp chunks.flatten.length =
      chunks.flatten) (hahead : out ≤ inp ∨ inp + chunks.flatten.length ≤ out) :
    let r := Run.run f s chunks
    updatesAt update s m out inp (chunks.map List.length) =
        ((r.1, r.2.map Prod.fst), store m out (outputs r.2)) ∧
      (outputs r.2).length = chunks.flatten.length := by
  induction chunks generalizing s m out inp with
  | nil => exact ⟨rfl, rfl⟩
  | cons bs chunks ih =>
      rw [List.flatten_cons, List.length_append] at hdata hahead
      rw [load_add] at hdata
      obtain ⟨hbs, hrest⟩ := List.append_inj hdata (length_load ..)
      let w : Window β := ⟨m, out, inp, bs.length⟩
      have hw : w.Ahead := by
        show out ≤ inp ∨ inp + bs.length ≤ out
        omega
      obtain ⟨hupdate, hlen, hnext⟩ := h s w hs hw
      have hdataw : w.data = bs := hbs
      rw [hdataw] at hupdate hlen hnext
      have hlater : load (store m out (f s bs).2.2) (inp + bs.length) chunks.flatten.length =
          chunks.flatten := by
        rw [load_store_apart _ _ _ ?_, hrest]
        rw [hlen]
        show _ ∨ out + bs.length ≤ _
        omega
      have hahead' : out + bs.length ≤ inp + bs.length ∨
          inp + bs.length + chunks.flatten.length ≤ out + bs.length := by
        omega
      obtain ⟨hrun, hout⟩ := ih hnext hlater hahead'
      have hmem : store (store m out (f s bs).2.2) (out + bs.length)
          (outputs (Run.run f (f s bs).1 chunks).2) =
          store m out (outputs ((f s bs).2 :: (Run.run f (f s bs).1 chunks).2)) := by
        have hsize : bs.length = (f s bs).2.2.length := hlen.symm
        rw [hsize, store_append]
        rfl
      rw [Run.run_cons]
      refine ⟨?_, ?_⟩
      · rw [List.map_cons, updatesAt]
        simp only
        rw [hupdate]
        simp only
        show ((_, _), _) = _
        rw [show (w.put (f s bs).2.2).mem = store m out (f s bs).2.2 from rfl, hrun, hmem]
        rfl
      · rw [outputs, List.map_cons, List.flatten_cons, List.length_append, hlen,
          List.flatten_cons, List.length_append]
        exact congrArg (bs.length + ·) hout

/-- Calls with any chunks in one buffer at `p` leave the state, the replies and the output of the
calls from `inp` to another buffer at `out`, which are those of a run of `f` on lists, and `close`
gives the same of either state. -/
def SameInPlace {φ : Type*} (update : σ → Window β → (σ × ο) × Window β)
    (f : σ → List β → σ × ο × List β) (close : σ → φ) (s : σ) : Prop :=
  ∀ (m : Mem β) (chunks : List (List β)) (p out inp : Nat),
    out + chunks.flatten.length ≤ inp ∨ inp + chunks.flatten.length ≤ out →
    let n := chunks.flatten.length
    let sizes := chunks.map List.length
    let here := updatesAt update s (store m p chunks.flatten) p p sizes
    let apart := updatesAt update s (store m inp chunks.flatten) out inp sizes
    let r := Run.run f s chunks
    here.1 = apart.1 ∧ load here.2 p n = load apart.2 out n ∧
      close here.1.1 = close apart.1.1 ∧
      here.1 = (r.1, r.2.map Prod.fst) ∧ load here.2 p n = outputs r.2

theorem sameInPlace {φ : Type*} {P : σ → Prop} {update : σ → Window β → (σ × ο) × Window β}
    {f : σ → List β → σ × ο × List β} (h : Streams P update f) (close : σ → φ) {s : σ}
    (hs : P s) : SameInPlace update f close s := by
  intro m chunks p out inp hapart n sizes here apart r
  obtain ⟨hhere, hlen⟩ : here = _ ∧ _ := updatesAt_eq h hs (load_store m p chunks.flatten)
    (Or.inl (Nat.le_refl p))
  have hahead : out ≤ inp ∨ inp + n ≤ out := by
    omega
  obtain ⟨hother, -⟩ : apart = _ ∧ _ :=
    updatesAt_eq h hs (load_store m inp chunks.flatten) hahead
  have hout : ∀ (m : Mem β) q, load (store m q (outputs r.2)) q n = outputs r.2 := by
    intro m q
    have hn : n = (outputs r.2).length := hlen.symm
    rw [hn, load_store]
  refine ⟨?_, ?_, ?_, ?_, ?_⟩
  · rw [hhere, hother]
  · rw [hhere, hother, hout, hout]
  · rw [hhere, hother]
  · rw [hhere]
  · rw [hhere, hout]

end InPlace
