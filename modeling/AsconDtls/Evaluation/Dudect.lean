import Mathlib.Data.List.Nodup
import Mathlib.Data.List.Perm.Basic
import Mathlib.Data.List.Range
import Mathlib.Logic.Equiv.Basic
import AsconDtls.Wolf.Leakage
import AsconDtls.Wolf.Stream

/-!
# The timing harness

`ascon_mask_dudect.c` measures `wc_AsconAEAD128_Mask` on inputs of two classes, in an order that it
shuffles in place before each round.  Its verdict is about the mask only if a time is counted for
the class of the input that it was taken on.  An array is a function of the index; the times, the
t-test and `order`, which nothing reads, are left out, so a round is the list of the calls that were
timed.

* `xorshift64_ne_zero`: the generator does not get stuck.
* `shuffle_shuffled`: the arrays are moved alike.
* `runTest_labels`: every round times every input once, under the class it was drawn for, and no
  call can be told from another by what it does.
-/

namespace AsconDtls.Evaluation.Dudect

open AsconDtls.Wolf (AsconAEAD128 Build Leak Reply leakStep setKey_fresh step)
open AsconDtls.Wolf.AsconAEAD128
open LittleEndian

/-! ### The generator -/

/-- `xs ^= xs << 13; xs ^= xs >> 7; xs ^= xs << 17`. -/
def xorshift64 (xs : BitVec 64) : BitVec 64 :=
  let xs := xs ^^^ (xs <<< 13)
  let xs := xs ^^^ (xs >>> 7)
  xs ^^^ (xs <<< 17)

/-- `rand_bytes(out, 16)`: a byte of each draw. -/
def randBytes (xs : BitVec 64) : Vector Byte 16 × BitVec 64 :=
  (Vector.ofFn fun i => (xorshift64^[i.val + 1] xs).setWidth 8, xorshift64^[16] xs)

/-! ### The test -/

/-- `mode` 0, 1 and 2. -/
inductive Mode
  | ct
  | key
  | control
deriving DecidableEq

def fixedCt : Vector Byte 16 := Vector.ofFn fun i => BitVec.ofNat 8 (0xA5 ^^^ i.val * 0x11)

def fixedKey : Vector Byte 16 := Vector.ofFn fun i => BitVec.ofNat 8 (i.val * 0x3C ^^^ 0x5A)

structure Arrays where
  xs : BitVec 64
  classes : Nat → Byte
  cts : Nat → Vector Byte 16
  keys : Nat → Vector Byte 16
  ctxs : Nat → AsconAEAD128

/-- One turn of the loop that fills `classes`, `cts` and `keys`. -/
def fillAt (mode : Mode) (a : Arrays) (i : Nat) : Arrays :=
  let xs := xorshift64 a.xs
  let cls : Byte := (xs &&& 1).setWidth 8
  let a := { a with xs := xs, classes := Function.update a.classes i cls }
  match mode with
  | .ct =>
    let r := if cls = 0 then (fixedCt, a.xs) else randBytes a.xs
    { a with xs := r.2, cts := Function.update a.cts i r.1, keys := Function.update a.keys i fixedKey }
  | .key =>
    let r := if cls = 0 then (fixedKey, a.xs) else randBytes a.xs
    { a with xs := r.2, cts := Function.update a.cts i fixedCt, keys := Function.update a.keys i r.1 }
  | .control =>
    let r := randBytes a.xs
    { a with xs := r.2, cts := Function.update a.cts i r.1, keys := Function.update a.keys i fixedKey }

/-- `for (size_t i = 0; i < n; i++)` of the inputs. -/
def fill (mode : Mode) (a : Arrays) : Nat → Arrays
  | 0 => a
  | i + 1 => fillAt mode (fill mode a i) i

section Harness

variable (B : Build)

/-- `wc_AsconAEAD128_Init` and `wc_AsconAEAD128_SetKey`. -/
def keyed (a : AsconAEAD128) (key : Vector Byte 16) : AsconAEAD128 :=
  (step B (step B a .init).1 (.setKey (some key))).1

/-- A context for each key in mode 1. -/
def initCtxs (a : Arrays) : Nat → Arrays
  | 0 => a
  | i + 1 =>
    let a := initCtxs a i
    { a with ctxs := Function.update a.ctxs i (keyed B (a.ctxs i) (a.keys i)) }

/-- The contexts of a test with `n` inputs. -/
def contexts (mode : Mode) (n : Nat) (a : Arrays) : Arrays :=
  match mode with
  | .key => initCtxs B a n
  | _ => { a with ctxs := Function.update a.ctxs 0 (keyed B (a.ctxs 0) fixedKey) }

def WARMUP : Nat := 5000

/-- One turn of the warm-up. -/
def warm (a : Arrays) : Arrays :=
  let r := randBytes a.xs
  { a with
    xs := r.2
    ctxs := Function.update a.ctxs 0 (step B (a.ctxs 0) (.mask (some r.1) .ptr)).1 }

/-- `tmp = f[i]; f[i] = f[j]; f[j] = tmp;`. -/
def swapAt {α : Type} (f : Nat → α) (i j : Nat) : Nat → α :=
  Function.update (Function.update f i (f j)) j (f i)

/-- `for (size_t i = ...; i > 0; i--)` of the shuffle. -/
def shuffle (mode : Mode) (a : Arrays) : Nat → Arrays
  | 0 => a
  | i + 1 =>
    let xs := xorshift64 a.xs
    let j := xs.toNat % (i + 1 + 1)
    let a := { a with xs := xs, classes := swapAt a.classes (i + 1) j, cts := swapAt a.cts (i + 1) j }
    let a := if mode = .key then { a with ctxs := swapAt a.ctxs (i + 1) j } else a
    shuffle mode a i

/-- A call that is timed: what it is counted for, its input, its result and what it does. -/
structure Timed where
  label : Byte
  ct : Vector Byte 16
  key : Vector Byte 16
  reply : Reply
  log : List Leak

/-- Which context `timed_mask` is called on. -/
def ctxAt (mode : Mode) (idx : Nat) : Nat := if mode = .key then idx else 0

/-- `for (size_t idx = 0; idx < n; idx++)` of the measurement. -/
def measure (mode : Mode) (a : Arrays) : Nat → Arrays × List Timed
  | 0 => (a, [])
  | idx + 1 =>
    let r := measure mode a idx
    let k := ctxAt mode idx
    let t := leakStep B (r.1.ctxs k) (.mask (some (r.1.cts idx)) .ptr)
    ({ r.1 with ctxs := Function.update r.1.ctxs k t.1.1 },
      r.2 ++ [⟨r.1.classes idx, r.1.cts idx, (r.1.ctxs k).keyBytes, t.1.2, t.2⟩])

/-- The rounds, as many as are run before one of the `break`s. -/
def rounds (mode : Mode) (n : Nat) (a : Arrays) : Nat → Arrays × List (List Timed)
  | 0 => (a, [])
  | r + 1 =>
    let m := measure B mode (shuffle mode a (n - 1)) n
    let t := rounds mode n m.1 r
    (t.1, m.2 :: t.2)

/-- `run_test`, from the arrays as `malloc` leaves them. -/
def runTest (mode : Mode) (n : Nat) (a : Arrays) (r : Nat) : Arrays × List (List Timed) :=
  rounds B mode n ((warm B)^[WARMUP] (contexts B mode n (fill mode a n))) r

end Harness

/-! ### What a round should be -/

/-- A class with an input of it. -/
structure Sample where
  label : Byte
  ct : Vector Byte 16
  key : Vector Byte 16
deriving DecidableEq

def Timed.sample (t : Timed) : Sample := ⟨t.label, t.ct, t.key⟩

/-- The inputs as they were drawn. -/
def drawn (mode : Mode) (n : Nat) (a : Arrays) : List Sample :=
  let a := fill mode a n
  (List.range n).map fun i => ⟨a.classes i, a.cts i, a.keys i⟩

/-- Class 0 is the fixed input; what the mode does not vary is fixed in both classes. -/
def Sample.Labelled (s : Sample) : Mode → Prop
  | .ct => s.key = fixedKey ∧ (s.label = 0 → s.ct = fixedCt)
  | .key => s.ct = fixedCt ∧ (s.label = 0 → s.key = fixedKey)
  | .control => s.key = fixedKey

/-- The call computes the mask, and what it does is the same for every input. -/
def Timed.Masks (t : Timed) : Prop :=
  t.reply = .ok (MaskPrf.maskPrfDerive t.key t.ct (MaskPrf.domsepTable .dtls)) ∧
    t.log = [.permutation .r12, .ret .ok]

/-! ### The generator does not get stuck -/

theorem shiftLeft_fix {x : BitVec 64} {k : Nat} (hk : 13 ≤ k) (h : x ^^^ x <<< k = 0) : x = 0 := by
  have hfix : x = x <<< k := BitVec.xor_eq_zero_iff.mp h
  have hmore : ∀ n, x = x <<< (n * k) := by
    intro n
    induction n with
    | zero => rw [Nat.zero_mul, BitVec.shiftLeft_zero]
    | succ n ih =>
        conv_lhs => rw [hfix, ih]
        rw [← BitVec.shiftLeft_add, Nat.succ_mul]
  rw [hmore 5, BitVec.shiftLeft_eq_zero (by omega)]
  rfl

theorem ushiftRight_fix {x : BitVec 64} {k : Nat} (hk : 7 ≤ k) (h : x ^^^ x >>> k = 0) : x = 0 := by
  have hfix : x = x >>> k := BitVec.xor_eq_zero_iff.mp h
  have hmore : ∀ n, x = x >>> (n * k) := by
    intro n
    induction n with
    | zero => rw [Nat.zero_mul, BitVec.ushiftRight_zero]
    | succ n ih =>
        conv_lhs => rw [hfix, ih]
        rw [← BitVec.shiftRight_add, Nat.succ_mul]
  rw [hmore 10, BitVec.ushiftRight_eq_zero (by omega)]
  rfl

theorem xorshift64_ne_zero {xs : BitVec 64} (h : xs ≠ 0) : xorshift64 xs ≠ 0 := by
  intro hzero
  rw [xorshift64] at hzero
  exact h (shiftLeft_fix (by decide) (ushiftRight_fix (by decide) (shiftLeft_fix (by decide) hzero)))

theorem randBytes_ne_zero {xs : BitVec 64} (h : xs ≠ 0) : (randBytes xs).2 ≠ 0 := by
  have hmore : ∀ n, xorshift64^[n] xs ≠ 0 := by
    intro n
    induction n with
    | zero => exact h
    | succ n ih =>
        rw [Function.iterate_succ_apply']
        exact xorshift64_ne_zero ih
  exact hmore 16

/-! ### The inputs -/

theorem fillAt_ne_zero (mode : Mode) {a : Arrays} (h : a.xs ≠ 0) (i : Nat) :
    (fillAt mode a i).xs ≠ 0 := by
  have hdraw := xorshift64_ne_zero h
  cases mode with
  | ct =>
      simp only [fillAt]
      split
      · exact hdraw
      · exact randBytes_ne_zero hdraw
  | key =>
      simp only [fillAt]
      split
      · exact hdraw
      · exact randBytes_ne_zero hdraw
  | control => exact randBytes_ne_zero hdraw

theorem fill_ne_zero (mode : Mode) {a : Arrays} (h : a.xs ≠ 0) (n : Nat) :
    (fill mode a n).xs ≠ 0 := by
  induction n with
  | zero => exact h
  | succ n ih => exact fillAt_ne_zero mode ih n

/-- The input at index `i`. -/
def inputAt (a : Arrays) (i : Nat) : Sample := ⟨a.classes i, a.cts i, a.keys i⟩

theorem inputAt_fillAt (mode : Mode) (a : Arrays) (i : Nat) :
    (inputAt (fillAt mode a i) i).Labelled mode ∧
      ∀ k, k ≠ i → inputAt (fillAt mode a i) k = inputAt a k := by
  refine ⟨?_, fun k hk => ?_⟩
  · cases mode with
    | ct =>
        simp only [inputAt, fillAt, Function.update_self, Sample.Labelled, true_and]
        intro hcls
        rw [if_pos hcls]
    | key =>
        simp only [inputAt, fillAt, Function.update_self, Sample.Labelled, true_and]
        intro hcls
        rw [if_pos hcls]
    | control => simp only [inputAt, fillAt, Function.update_self, Sample.Labelled]
  · cases mode <;> simp only [inputAt, fillAt, Function.update_of_ne hk]

theorem inputAt_fill (mode : Mode) (a : Arrays) {i n : Nat} (hi : i < n) :
    (inputAt (fill mode a n) i).Labelled mode := by
  induction n with
  | zero => exact absurd hi (Nat.not_lt_zero i)
  | succ n ih =>
      obtain ⟨hnew, hold⟩ := inputAt_fillAt mode (fill mode a n) n
      rcases Nat.lt_succ_iff_lt_or_eq.mp hi with hlt | rfl
      · rw [fill, hold i (Nat.ne_of_lt hlt)]
        exact ih hlt
      · exact hnew

theorem drawn_labelled (mode : Mode) (n : Nat) (a : Arrays) :
    ∀ s ∈ drawn mode n a, s.Labelled mode := by
  intro s hs
  obtain ⟨i, hi, rfl⟩ := List.mem_map.mp hs
  exact inputAt_fill mode a (List.mem_range.mp hi)

/-! ### The contexts -/

section Harness

variable (B : Build)

theorem keyed_eq (a : AsconAEAD128) (key : Vector Byte 16) :
    (keyed B a key).keySet = true ∧ (keyed B a key).key = loadLE 128 key.toList := by
  have hset : keyed B a key = (a.init.1.setKey (some key)).1 := rfl
  rw [hset, setKey_fresh _ _ rfl]
  exact ⟨rfl, rfl⟩

theorem keyed_keyBytes (a : AsconAEAD128) (key : Vector Byte 16) : (keyed B a key).keyBytes = key := by
  apply Vector.ext
  intro i hi
  rw [keyBytes, Vector.getElem_ofFn, (keyed_eq B a key).2, byteAt_loadLE _ (by omega)]
  simp [hi]

/-- A mask call leaves the context as it is. -/
theorem mask_fst (a : AsconAEAD128) (ct : Vector Byte 16) :
    (step B a (.mask (some ct) .ptr)).1 = a := by
  simp only [step, mask]
  split <;> rfl

theorem maskLeak_fst (a : AsconAEAD128) (ct : Vector Byte 16) :
    (leakStep B a (.mask (some ct) .ptr)).1.1 = a := by
  simp only [leakStep, maskLeak]
  split <;> rfl

theorem warm_eq (a : Arrays) : warm B a = { a with xs := (randBytes a.xs).2 } := by
  simp only [warm, mask_fst, Function.update_eq_self]

/-- The arrays hold `n` inputs `s`, each with a context that has its key. -/
structure Holds (mode : Mode) (n : Nat) (s : Nat → Sample) (a : Arrays) : Prop where
  label : ∀ i < n, a.classes i = (s i).label
  ct : ∀ i < n, a.cts i = (s i).ct
  key : ∀ i < n, (a.ctxs (ctxAt mode i)).keyBytes = (s i).key
  keySet : ∀ i < n, (a.ctxs (ctxAt mode i)).keySet = true

theorem initCtxs_eq (a : Arrays) (n : Nat) :
    ((initCtxs B a n).xs = a.xs ∧ (initCtxs B a n).classes = a.classes ∧
      (initCtxs B a n).cts = a.cts ∧ (initCtxs B a n).keys = a.keys) ∧
      ∀ i < n, ((initCtxs B a n).ctxs i).keyBytes = a.keys i ∧
        ((initCtxs B a n).ctxs i).keySet = true := by
  induction n with
  | zero => exact ⟨⟨rfl, rfl, rfl, rfl⟩, fun i hi => absurd hi (Nat.not_lt_zero i)⟩
  | succ n ih =>
      obtain ⟨⟨hxs, hclasses, hcts, hkeys⟩, hold⟩ := ih
      refine ⟨⟨hxs, hclasses, hcts, hkeys⟩, fun i hi => ?_⟩
      simp only [initCtxs]
      rcases Nat.lt_succ_iff_lt_or_eq.mp hi with hlt | rfl
      · rw [Function.update_of_ne (Nat.ne_of_lt hlt)]
        exact hold i hlt
      · rw [Function.update_self, keyed_keyBytes, hkeys]
        exact ⟨rfl, (keyed_eq B _ _).1⟩

/-- What is there before the warm-up. -/
theorem contexts_holds (mode : Mode) (n : Nat) (a : Arrays) :
    Holds mode n (inputAt (fill mode a n)) (contexts B mode n (fill mode a n)) ∧
      (contexts B mode n (fill mode a n)).xs = (fill mode a n).xs := by
  have hone : ∀ mode, mode ≠ .key → (∀ i < n, (fill mode a n).keys i = fixedKey) →
      Holds mode n (inputAt (fill mode a n))
        { fill mode a n with
          ctxs := Function.update (fill mode a n).ctxs 0 (keyed B ((fill mode a n).ctxs 0) fixedKey) }
      := by
    intro mode hmode hkeys
    have hctx : ∀ i, ctxAt mode i = 0 := fun i => if_neg hmode
    refine ⟨fun i _ => rfl, fun i _ => rfl, fun i hi => ?_, fun i _ => ?_⟩
    · rw [hctx]
      simp only [Function.update_self]
      rw [keyed_keyBytes, inputAt, hkeys i hi]
    · rw [hctx]
      simp only [Function.update_self]
      exact (keyed_eq B _ _).1
  cases mode with
  | ct => exact ⟨hone .ct (by decide) fun i hi => (inputAt_fill .ct a hi).1, rfl⟩
  | control => exact ⟨hone .control (by decide) fun i hi => inputAt_fill .control a hi, rfl⟩
  | key =>
      obtain ⟨⟨hxs, hclasses, hcts, -⟩, hctxs⟩ := initCtxs_eq B (fill .key a n) n
      refine ⟨⟨fun i _ => ?_, fun i _ => ?_, fun i hi => (hctxs i hi).1, fun i hi => (hctxs i hi).2⟩,
        hxs⟩
      · rw [contexts, hclasses]
        rfl
      · rw [contexts, hcts]
        rfl

theorem Holds.warm {mode : Mode} {n : Nat} {s : Nat → Sample} {a : Arrays} (h : Holds mode n s a)
    (k : Nat) : Holds mode n s ((warm B)^[k] a) ∧ (a.xs ≠ 0 → ((warm B)^[k] a).xs ≠ 0) := by
  induction k with
  | zero => exact ⟨h, id⟩
  | succ k ih =>
      obtain ⟨hk, hxs⟩ := ih
      rw [Function.iterate_succ_apply', warm_eq]
      exact ⟨⟨hk.label, hk.ct, hk.key, hk.keySet⟩, fun hne => randBytes_ne_zero (hxs hne)⟩

/-! ### The shuffle -/

theorem swapAt_eq {α : Type} (f : Nat → α) (i j k : Nat) :
    swapAt f i j k = f (Equiv.swap i j k) := by
  rw [swapAt, Equiv.swap_apply_def]
  by_cases hj : k = j
  · rw [hj, Function.update_self]
    by_cases hji : j = i
    · rw [if_pos hji, hji]
    · rw [if_neg hji, if_pos rfl]
  · rw [Function.update_of_ne hj]
    by_cases hki : k = i
    · rw [hki, Function.update_self, if_pos rfl]
    · rw [Function.update_of_ne hki, if_neg hki, if_neg hj]

/-- The indices below `n` stay below it. -/
theorem lt_of_fixes {σ : Equiv.Perm Nat} {n : Nat} (h : ∀ k, n ≤ k → σ k = k) {i : Nat} (hi : i < n) :
    σ i < n := by
  by_contra hge
  have hfix := σ.injective (h (σ i) (Nat.le_of_not_lt hge))
  omega

/-- The same swap in all arrays. -/
theorem Holds.swap {mode : Mode} {n i j : Nat} {s : Nat → Sample} {a : Arrays} (h : Holds mode n s a)
    (hi : i < n) (hj : j < n) (xs : BitVec 64) :
    let b : Arrays := { a with xs := xs, classes := swapAt a.classes i j, cts := swapAt a.cts i j }
    Holds mode n (s ∘ Equiv.swap i j)
      (if mode = .key then { b with ctxs := swapAt a.ctxs i j } else b) := by
  intro b
  have hswap : ∀ k < n, Equiv.swap i j k < n := by
    intro k hk
    refine lt_of_fixes (fun l hl => Equiv.swap_apply_of_ne_of_ne ?_ ?_) hk <;> omega
  by_cases hmode : mode = .key
  · have hctx : ∀ k, ctxAt mode k = k := fun k => if_pos hmode
    have hkey := h.key
    have hset := h.keySet
    simp only [hctx] at hkey hset
    rw [if_pos hmode]
    refine ⟨fun k hk => ?_, fun k hk => ?_, fun k hk => ?_, fun k hk => ?_⟩
    · exact (swapAt_eq _ i j k).trans (h.label _ (hswap k hk))
    · exact (swapAt_eq _ i j k).trans (h.ct _ (hswap k hk))
    · rw [hctx]
      exact (congrArg keyBytes (swapAt_eq a.ctxs i j k)).trans (hkey _ (hswap k hk))
    · rw [hctx]
      exact (congrArg AsconAEAD128.keySet (swapAt_eq a.ctxs i j k)).trans (hset _ (hswap k hk))
  · have hctx : ∀ k l, ctxAt mode k = ctxAt mode l := fun k l => by
      rw [ctxAt, ctxAt, if_neg hmode, if_neg hmode]
    rw [if_neg hmode]
    refine ⟨fun k hk => ?_, fun k hk => ?_, fun k hk => ?_, fun k hk => ?_⟩
    · exact (swapAt_eq _ i j k).trans (h.label _ (hswap k hk))
    · exact (swapAt_eq _ i j k).trans (h.ct _ (hswap k hk))
    · rw [hctx k (Equiv.swap i j k)]
      exact h.key _ (hswap k hk)
    · exact h.keySet k hk

/-- **The arrays are moved alike.** -/
theorem shuffle_shuffled {mode : Mode} {n i : Nat} (hi : i < n) {s : Nat → Sample} {a : Arrays}
    (h : Holds mode n s a) :
    (∃ σ : Equiv.Perm Nat, (∀ k, n ≤ k → σ k = k) ∧ Holds mode n (s ∘ σ) (shuffle mode a i)) ∧
      (a.xs ≠ 0 → (shuffle mode a i).xs ≠ 0) := by
  induction i generalizing a s with
  | zero => exact ⟨⟨Equiv.refl Nat, fun k _ => rfl, h⟩, id⟩
  | succ i ih =>
      have hj : (xorshift64 a.xs).toNat % (i + 1 + 1) < n :=
        Nat.lt_of_lt_of_le (Nat.mod_lt _ (Nat.succ_pos _)) hi
      obtain ⟨⟨σ, hσ, hrest⟩, hxs⟩ := ih (Nat.lt_of_succ_lt hi) (h.swap hi hj (xorshift64 a.xs))
      refine ⟨⟨σ.trans (Equiv.swap (i + 1) ((xorshift64 a.xs).toNat % (i + 1 + 1))), fun k hk => ?_,
        hrest⟩, fun hne => hxs ?_⟩
      · rw [Equiv.trans_apply, hσ k hk, Equiv.swap_apply_of_ne_of_ne (by omega) (by omega)]
      · split <;> exact xorshift64_ne_zero hne

/-! ### The measurement -/

/-- The call that is timed at an index. -/
def timedAt (mode : Mode) (a : Arrays) (idx : Nat) : Timed :=
  let t := leakStep B (a.ctxs (ctxAt mode idx)) (.mask (some (a.cts idx)) .ptr)
  ⟨a.classes idx, a.cts idx, (a.ctxs (ctxAt mode idx)).keyBytes, t.1.2, t.2⟩

theorem measure_eq (mode : Mode) (a : Arrays) (n : Nat) :
    measure B mode a n = (a, (List.range n).map (timedAt B mode a)) := by
  induction n with
  | zero => rfl
  | succ n ih =>
      rw [measure, ih, List.range_succ, List.map_append]
      simp only [maskLeak_fst, Function.update_eq_self]
      rfl

theorem timedAt_masks {mode : Mode} {n : Nat} {s : Nat → Sample} {a : Arrays} (h : Holds mode n s a)
    {i : Nat} (hi : i < n) : (timedAt B mode a i).Masks ∧ (timedAt B mode a i).sample = s i := by
  have hset := h.keySet i hi
  refine ⟨?_, ?_⟩
  · simp only [Timed.Masks, timedAt, leakStep, maskLeak, hset]
    exact ⟨rfl, rfl⟩
  · rw [Timed.sample, timedAt]
    simp only [h.label i hi, h.ct i hi, h.key i hi]

/-- A permutation of the indices permutes a list of all of them. -/
theorem map_range_perm {α : Type} (f : Nat → α) {n : Nat} {σ : Equiv.Perm Nat}
    (hσ : ∀ k, n ≤ k → σ k = k) :
    ((List.range n).map (f ∘ σ)).Perm ((List.range n).map f) := by
  rw [← List.map_map]
  refine List.Perm.map f ((List.perm_ext_iff_of_nodup ?_ List.nodup_range).mpr fun i => ?_)
  · exact (List.nodup_map_iff σ.injective).mpr List.nodup_range
  · have hinv : ∀ k, n ≤ k → σ.symm k = k := fun k hk => by
      rw [Equiv.symm_apply_eq, hσ k hk]
    rw [List.mem_map, List.mem_range]
    constructor
    · rintro ⟨k, hk, rfl⟩
      exact lt_of_fixes hσ (List.mem_range.mp hk)
    · intro hi
      exact ⟨σ.symm i, List.mem_range.mpr (lt_of_fixes hinv hi), σ.apply_symm_apply i⟩

/-- What every round keeps. -/
theorem rounds_holds {mode : Mode} {n : Nat} {s : Nat → Sample} {a : Arrays} (h : Holds mode n s a)
    (r : Nat) :
    (∀ round ∈ (rounds B mode n a r).2,
      (round.map Timed.sample).Perm ((List.range n).map s) ∧ ∀ t ∈ round, t.Masks) ∧
      (a.xs ≠ 0 → (rounds B mode n a r).1.xs ≠ 0) := by
  induction r generalizing a s with
  | zero => exact ⟨fun round hround => absurd hround List.not_mem_nil, id⟩
  | succ r ih =>
      obtain ⟨⟨σ, hσ, hmoved⟩, hxs⟩ : (∃ σ : Equiv.Perm Nat, (∀ k, n ≤ k → σ k = k) ∧
          Holds mode n (s ∘ σ) (shuffle mode a (n - 1))) ∧
          (a.xs ≠ 0 → (shuffle mode a (n - 1)).xs ≠ 0) := by
        cases n with
        | zero => exact ⟨⟨Equiv.refl Nat, fun k _ => rfl, h⟩, id⟩
        | succ n => exact shuffle_shuffled (Nat.lt_succ_self n) h
      have hperm := map_range_perm s hσ
      obtain ⟨hrest, hlive⟩ := ih hmoved
      rw [rounds, measure_eq]
      refine ⟨fun round hround => ?_, fun hne => hlive (hxs hne)⟩
      rcases List.mem_cons.mp hround with rfl | hround
      · refine ⟨?_, fun t ht => ?_⟩
        · have hsame : ((List.range n).map (timedAt B mode (shuffle mode a (n - 1)))).map Timed.sample =
              (List.range n).map (s ∘ σ) := by
            rw [List.map_map]
            exact List.map_congr_left fun i hi => (timedAt_masks B hmoved (List.mem_range.mp hi)).2
          rw [hsame]
          exact hperm
        · obtain ⟨i, hi, rfl⟩ := List.mem_map.mp ht
          exact (timedAt_masks B hmoved (List.mem_range.mp hi)).1
      · obtain ⟨hsame, hmasks⟩ := hrest round hround
        exact ⟨hsame.trans hperm, hmasks⟩

/-- **What the harness measures.**  In each of its rounds every input that was drawn is timed once
and counted for its own class, class 0 is the fixed input, and each call computes the mask by the
same steps; the generator never gets stuck. -/
theorem runTest_labels (mode : Mode) (n : Nat) (a : Arrays) (r : Nat) :
    (∀ round ∈ (runTest B mode n a r).2,
      (round.map Timed.sample).Perm (drawn mode n a) ∧
        ∀ t ∈ round, t.sample.Labelled mode ∧ t.Masks) ∧
      (a.xs ≠ 0 → (runTest B mode n a r).1.xs ≠ 0) := by
  obtain ⟨hstart, hxs⟩ := contexts_holds B mode n a
  obtain ⟨hwarm, hlive⟩ := hstart.warm B WARMUP
  obtain ⟨hrounds, hend⟩ := rounds_holds B hwarm r
  refine ⟨fun round hround => ?_, fun hne => hend (hlive ?_)⟩
  · obtain ⟨hperm, hmasks⟩ := hrounds round hround
    refine ⟨hperm, fun t ht => ⟨?_, hmasks t ht⟩⟩
    exact drawn_labelled mode n a _ (hperm.subset (List.mem_map_of_mem ht))
  · rw [hxs]
    exact fill_ne_zero mode hne n

end Harness

end AsconDtls.Evaluation.Dudect
