import AsconDtls.Lib.InPlace
import AsconDtls.Lib.LittleEndian
import AsconDtls.Lib.Pack
import AsconDtls.Lib.Run

/-!
# The memory of the benchmark driver

`bench_main.c` keeps its printed text in SRAM for the host to read: a header of four words and a
buffer behind it.  Below lie the stack and, up to a limit, the heap that `_sbrk` hands out.  The
benchmark prints, asks for memory and writes to its own; nothing else keeps these parts apart.

* `benchXprintf_logged`: a print appends what still fits and touches nothing below the header.
* `sbrk_le`: the heap stays below its limit, whatever is asked for.
* `running_log`: so over every run of the benchmark the host finds the start of the text, and the
  benchmark its own memory as it left it.
-/

namespace AsconDtls.Evaluation.BenchDriver

open InPlace (Mem load store load_store load_store_apart store_apart)
open LittleEndian
open Pack (packLittle unpackLittle unpackLittle_packLittle length_packLittle)

/-! ### The driver -/

def HAL_HDR_ADDR : Nat := 0x2000D000
def HAL_OUT_ADDR : Nat := 0x2000E000
def HAL_OUT_SIZE : Nat := 8192
def HAL_HDR_MAGIC : Nat := 0x4D303032
def HAL_HEAP_LIMIT : Nat := 0x20008000
def HAL_STACK_TOP : Nat := 0x2000C000

/-- `hdr[i]`. -/
def hdr (m : Mem Byte) (i : Nat) : Nat := unpackLittle (load m (HAL_HDR_ADDR + 4 * i) 4)

/-- `hdr[i] = v`. -/
def setHdr (m : Mem Byte) (i v : Nat) : Mem Byte :=
  store m (HAL_HDR_ADDR + 4 * i) (packLittle 4 v)

/-- A format with its arguments: the text that it stands for, whose length is an `int`, or an
error after some bytes. -/
inductive Formatted
  | text (t : List Byte) (short : t.length < 2147483648)
  | error (written : List Byte)

/-- `vsnprintf(p, avail, fmt, ap)`, for `avail` positive. -/
def vsnprintf (m : Mem Byte) (p avail : Nat) : Formatted → Mem Byte × Int
  | .text t _ => (store m p (t.take (avail - 1) ++ [0]), t.length)
  | .error written => (store m p (written.take avail), -1)

/-- `bench_xprintf`. -/
def benchXprintf (m : Mem Byte) (f : Formatted) : Mem Byte :=
  let len := hdr m 2
  let avail := if len < HAL_OUT_SIZE then HAL_OUT_SIZE - len else 0
  if avail = 0 then m
  else
    let r := vsnprintf m (HAL_OUT_ADDR + len) avail f
    if 0 < r.2 then setHdr r.1 2 (len + if r.2 < avail then r.2.toNat else avail - 1)
    else r.1

-- the symbol `end` of `bench.ld`
variable (heapStart : BitVec 32)

/-- The static variable `heap` of `_sbrk` as it is read: `NULL` stands for the symbol `end`. -/
def brk (heap : BitVec 32) : BitVec 32 := if heap = 0 then heapStart else heap

/-- `_sbrk`: the variable `heap` after the call, and the result.  The sum wraps. -/
def sbrk (heap incr : BitVec 32) : BitVec 32 × BitVec 32 :=
  let prev := brk heapStart heap
  let next := prev + incr
  if next.toNat > HAL_HEAP_LIMIT then (prev, -1) else (next, prev)

/-- The memory and the static variable `heap`. -/
structure Driver where
  mem : Mem Byte
  heap : BitVec 32

/-- What the benchmark does: a `printf`, a call of `_sbrk`, or a byte written to memory. -/
inductive Event
  | print (f : Formatted)
  | sbrk (incr : BitVec 32)
  | write (p : Nat) (b : Byte)

/-- What comes of it: for a call of `_sbrk` its result. -/
def step (d : Driver) : Event → Driver × Option (BitVec 32)
  | .print f => ({ d with mem := benchXprintf d.mem f }, none)
  | .sbrk incr =>
    let r := sbrk heapStart d.heap incr
    ({ d with heap := r.1 }, some r.2)
  | .write p b => ({ d with mem := store d.mem p [b] }, none)

/-- `main` up to `benchmark_test`. -/
def setup (m : Mem Byte) : Mem Byte :=
  let m := setHdr m 0 HAL_HDR_MAGIC
  let m := setHdr m 1 HAL_OUT_ADDR
  let m := setHdr m 2 0
  let m := setHdr m 3 0
  store m HAL_OUT_ADDR [0]

/-- `main` in the middle of `benchmark_test` and `record_bench`. -/
def running (m : Mem Byte) (es : List Event) : Driver :=
  (Run.run (step heapStart) ⟨setup m, 0⟩ es).1

/-- `hdr[3] = 1;`. -/
def finished (m : Mem Byte) (es : List Event) : Mem Byte :=
  setHdr (running heapStart m es).mem 3 1

/-- The bytes that the host reads once it has paused the machine. -/
def dump (m : Mem Byte) : List Byte :=
  load m HAL_OUT_ADDR (if 0 < hdr m 2 then hdr m 2 else 4096)

/-! ### What it is for -/

/-- The text printed. -/
def printed : List Event → List Byte
  | [] => []
  | .print (.text t _) :: es => t ++ printed es
  | .print (.error _) :: es => printed es
  | .sbrk _ :: es => printed es
  | .write _ _ :: es => printed es

/-- The memory with nothing but the writes of the benchmark. -/
def written (m : Mem Byte) : List Event → Mem Byte
  | [] => m
  | .write p b :: es => written (store m p [b]) es
  | .print _ :: es => written m es
  | .sbrk _ :: es => written m es

/-- The benchmark writes to its static data, to the heap as far as `_sbrk` has moved it, and to the
stack; `heap` is the variable of `_sbrk`. -/
def Respects (heap : BitVec 32) : List Event → Prop
  | [] => True
  | .print _ :: es => Respects heap es
  | .sbrk incr :: es => Respects (sbrk heapStart heap incr).1 es
  | .write p _ :: es =>
    (p < heapStart.toNat ∨ p < (brk heapStart heap).toNat ∨
      (HAL_HEAP_LIMIT ≤ p ∧ p < HAL_STACK_TOP)) ∧ Respects heap es

/-- The header and the buffer. -/
def Reserved (a : Nat) : Prop :=
  (HAL_HDR_ADDR ≤ a ∧ a < HAL_HDR_ADDR + 16) ∨
    (HAL_OUT_ADDR ≤ a ∧ a < HAL_OUT_ADDR + HAL_OUT_SIZE)

/-- What the host finds when `t` has been printed: the header with as many bytes of `t` as there is
room for beside a zero, and these bytes. -/
structure Logged (m : Mem Byte) (t : List Byte) : Prop where
  magic : hdr m 0 = HAL_HDR_MAGIC
  outAddr : hdr m 1 = HAL_OUT_ADDR
  outLen : hdr m 2 = min t.length (HAL_OUT_SIZE - 1)
  out : load m HAL_OUT_ADDR (hdr m 2) = t.take (HAL_OUT_SIZE - 1)

/-! ### The header -/

theorem hdr_setHdr (m : Mem Byte) (i : Nat) {v : Nat} (hv : v < 4294967296) :
    hdr (setHdr m i v) i = v := by
  have hload := load_store m (HAL_HDR_ADDR + 4 * i) (packLittle 4 v)
  rw [length_packLittle] at hload
  rw [hdr, setHdr, hload, unpackLittle_packLittle (by omega)]

theorem hdr_setHdr_of_ne (m : Mem Byte) {i j : Nat} (v : Nat) (h : i ≠ j) :
    hdr (setHdr m j v) i = hdr m i := by
  rw [hdr, setHdr, load_store_apart _ _ _ (by rw [length_packLittle]; omega), hdr]

/-- Writing outside the header. -/
theorem hdr_store (m : Mem Byte) {p i : Nat} {bs : List Byte} (hi : i < 4)
    (h : p + bs.length ≤ HAL_HDR_ADDR ∨ HAL_HDR_ADDR + 16 ≤ p) : hdr (store m p bs) i = hdr m i := by
  rw [hdr, load_store_apart _ _ _ (by omega), hdr]

theorem load_setHdr (m : Mem Byte) {i : Nat} (v : Nat) (hi : i < 4) (n : Nat) :
    load (setHdr m i v) HAL_OUT_ADDR n = load m HAL_OUT_ADDR n := by
  have hend : HAL_HDR_ADDR + 4 * i + (packLittle 4 v).length ≤ HAL_OUT_ADDR := by
    rw [length_packLittle, HAL_HDR_ADDR, HAL_OUT_ADDR]
    omega
  rw [setHdr, load_store_apart _ _ _ (Or.inr hend)]

theorem setHdr_apart (m : Mem Byte) {i : Nat} (v : Nat) (hi : i < 4) {a : Nat}
    (ha : ¬ Reserved a) : setHdr m i v a = m a := by
  rw [Reserved, not_or] at ha
  rw [setHdr, store_apart _ _ _ (by rw [length_packLittle]; omega)]

theorem setup_logged (m : Mem Byte) : Logged (setup m) [] ∧ hdr (setup m) 3 = 0 := by
  have hout : ∀ (m : Mem Byte) (i : Nat), i < 4 → hdr (store m HAL_OUT_ADDR [0]) i = hdr m i :=
    fun m i hi => hdr_store m hi (Or.inr (by decide))
  have hlen : hdr (setup m) 2 = 0 := by
    rw [setup, hout _ _ (by decide), hdr_setHdr_of_ne _ _ (by decide), hdr_setHdr _ _ (by decide)]
  refine ⟨⟨?_, ?_, hlen, by rw [hlen]; rfl⟩, ?_⟩
  · rw [setup, hout _ _ (by decide), hdr_setHdr_of_ne _ _ (by decide),
      hdr_setHdr_of_ne _ _ (by decide), hdr_setHdr_of_ne _ _ (by decide), hdr_setHdr _ _ (by decide)]
  · rw [setup, hout _ _ (by decide), hdr_setHdr_of_ne _ _ (by decide),
      hdr_setHdr_of_ne _ _ (by decide), hdr_setHdr _ _ (by decide)]
  · rw [setup, hout _ _ (by decide), hdr_setHdr _ _ (by decide)]

theorem setup_apart (m : Mem Byte) {a : Nat} (ha : ¬ Reserved a) : setup m a = m a := by
  have hout : a < HAL_OUT_ADDR ∨ HAL_OUT_ADDR + [(0 : Byte)].length ≤ a := by
    rw [Reserved, not_or] at ha
    rw [List.length_singleton]
    have hsize : HAL_OUT_SIZE = 8192 := rfl
    omega
  rw [setup, store_apart _ _ _ hout, setHdr_apart _ _ (by decide) ha,
    setHdr_apart _ _ (by decide) ha, setHdr_apart _ _ (by decide) ha,
    setHdr_apart _ _ (by decide) ha]

/-! ### A print -/

/-- What `vsnprintf` writes stays inside the room that it is given. -/
theorem vsnprintf_apart (m : Mem Byte) {p avail : Nat} (havail : 0 < avail) (f : Formatted) {a : Nat}
    (ha : a < p ∨ p + avail ≤ a) : (vsnprintf m p avail f).1 a = m a := by
  cases f with
  | text t short =>
      refine store_apart m p _ ?_
      rw [List.length_append, List.length_take, List.length_singleton]
      omega
  | error written =>
      refine store_apart m p _ ?_
      rw [List.length_take]
      omega

theorem load_vsnprintf_apart (m : Mem Byte) {p avail : Nat} (havail : 0 < avail) (f : Formatted)
    {q n : Nat} (h : q + n ≤ p ∨ p + avail ≤ q) :
    load (vsnprintf m p avail f).1 q n = load m q n :=
  InPlace.load_congr fun a _ _ => vsnprintf_apart m havail f (by omega)

/-- The text, as far as there is room for it beside the zero. -/
theorem load_vsnprintf (m : Mem Byte) (p avail : Nat) {t : List Byte} (short : t.length < 2147483648) :
    load (vsnprintf m p avail (.text t short)).1 p (min (avail - 1) t.length) =
      t.take (avail - 1) := by
  have hload := load_store m p (t.take (avail - 1))
  rw [List.length_take] at hload
  have hzero : p + min (avail - 1) t.length ≤ p + (t.take (avail - 1)).length :=
    Nat.le_of_eq (by rw [List.length_take])
  rw [vsnprintf, ← InPlace.store_append, load_store_apart _ _ _ (Or.inl hzero), hload]

/-- Room is left for a zero at least. -/
theorem room {len : Nat} {t : List Byte} (h : len = min t.length (HAL_OUT_SIZE - 1)) :
    (if len < HAL_OUT_SIZE then HAL_OUT_SIZE - len else 0) = HAL_OUT_SIZE - len ∧
      0 < HAL_OUT_SIZE - len ∧ HAL_OUT_SIZE - len - 1 = HAL_OUT_SIZE - 1 - t.length := by
  have hsize : HAL_OUT_SIZE = 8192 := rfl
  refine ⟨if_pos ?_, ?_, ?_⟩ <;> omega

/-- `vsnprintf` behind the text that is there. -/
def printBehind (m : Mem Byte) (f : Formatted) : Mem Byte × Int :=
  vsnprintf m (HAL_OUT_ADDR + hdr m 2) (HAL_OUT_SIZE - hdr m 2) f

theorem Logged.benchXprintf_eq {m : Mem Byte} {t : List Byte} (h : Logged m t) (f : Formatted) :
    benchXprintf m f =
      if 0 < (printBehind m f).2 then
        setHdr (printBehind m f).1 2 (hdr m 2 +
          if (printBehind m f).2 < ((HAL_OUT_SIZE - hdr m 2 : Nat) : Int) then
            (printBehind m f).2.toNat
          else HAL_OUT_SIZE - hdr m 2 - 1)
      else (printBehind m f).1 := by
  obtain ⟨hroom, hpos, -⟩ := room h.outLen
  simp only [benchXprintf, hroom, printBehind]
  rw [if_neg (Nat.pos_iff_ne_zero.mp hpos)]
  rfl

/-- A print leaves the memory below the header alone, and the other header words. -/
theorem benchXprintf_apart {m : Mem Byte} {t : List Byte} (h : Logged m t) (f : Formatted) :
    (∀ i < 4, i ≠ 2 → hdr (benchXprintf m f) i = hdr m i) ∧
      ∀ a, ¬ Reserved a → benchXprintf m f a = m a := by
  obtain ⟨-, hpos, -⟩ := room h.outLen
  have hsize : HAL_OUT_SIZE = 8192 := rfl
  have hheader : HAL_HDR_ADDR + 16 ≤ HAL_OUT_ADDR := by decide
  have hlen := h.outLen
  rw [h.benchXprintf_eq]
  constructor
  · intro i hi hne
    have hkeep : hdr (printBehind m f).1 i = hdr m i := by
      rw [printBehind, hdr, load_vsnprintf_apart m hpos f (by omega), hdr]
    split
    · rw [hdr_setHdr_of_ne _ _ hne, hkeep]
    · exact hkeep
  · intro a ha
    have hkeep : (printBehind m f).1 a = m a := by
      rw [Reserved, not_or] at ha
      exact vsnprintf_apart m hpos f (by omega)
    split
    · rw [setHdr_apart _ _ (by decide) ha, hkeep]
    · exact hkeep

/-- A print appends its text, as far as it fits. -/
theorem benchXprintf_logged {m : Mem Byte} {t : List Byte} (h : Logged m t) (f : Formatted) :
    Logged (benchXprintf m f) (t ++ printed [.print f]) := by
  obtain ⟨-, hpos, hroom⟩ := room h.outLen
  have hsize : HAL_OUT_SIZE = 8192 := rfl
  have hlen := h.outLen
  obtain ⟨hkeep, -⟩ := benchXprintf_apart h f
  have hmagic := (hkeep 0 (by decide) (by decide)).trans h.magic
  have haddr := (hkeep 1 (by decide) (by decide)).trans h.outAddr
  have hheader : HAL_HDR_ADDR + 16 ≤ HAL_OUT_ADDR := by decide
  -- what was there before is not touched
  have hword : hdr (printBehind m f).1 2 = hdr m 2 := by
    rw [printBehind, hdr, load_vsnprintf_apart m hpos f (by omega), hdr]
  have hbefore : load (printBehind m f).1 HAL_OUT_ADDR (hdr m 2) = t.take (HAL_OUT_SIZE - 1) := by
    rw [printBehind, load_vsnprintf_apart m hpos f (Or.inl (Nat.le_refl _)), h.out]
  have heq := h.benchXprintf_eq f
  cases f with
  | error written =>
      have hret : (printBehind m (.error written)).2 = -1 := rfl
      rw [hret, if_neg (by decide)] at heq
      rw [printed, printed, List.append_nil]
      refine ⟨hmagic, haddr, ?_, ?_⟩
      · rw [heq, hword, hlen]
      · rw [heq, hword, hbefore]
  | text u short =>
      have hret : (printBehind m (.text u short)).2 = u.length := rfl
      rw [printed, printed, List.append_nil]
      rw [hret] at heq
      by_cases hu : u.length = 0
      · rw [hu, if_neg (by decide)] at heq
        have hsame : t ++ u = t := by rw [List.length_eq_zero_iff.mp hu, List.append_nil]
        rw [hsame]
        refine ⟨hmagic, haddr, ?_, ?_⟩
        · rw [heq, hword, hlen]
        · rw [heq, hword, hbefore]
      · rw [if_pos (by omega)] at heq
        have hgrow : hdr m 2 + (if (u.length : Int) < ((HAL_OUT_SIZE - hdr m 2 : Nat) : Int) then
            (u.length : Int).toNat else HAL_OUT_SIZE - hdr m 2 - 1) =
            hdr m 2 + min (HAL_OUT_SIZE - hdr m 2 - 1) u.length := by
          split <;> omega
        rw [hgrow] at heq
        have hnew : hdr (benchXprintf m (.text u short)) 2 =
            hdr m 2 + min (HAL_OUT_SIZE - hdr m 2 - 1) u.length := by
          rw [heq, hdr_setHdr _ _ (by omega)]
        refine ⟨hmagic, haddr, ?_, ?_⟩
        · rw [hnew, List.length_append]
          omega
        · rw [hnew, heq, load_setHdr _ _ (by decide), InPlace.load_add, hbefore, printBehind,
            load_vsnprintf, hroom, List.take_append]

/-! ### The rest of the program -/

/-- A write to memory of its own. -/
theorem Logged.write {m : Mem Byte} {t : List Byte} (h : Logged m t) {p : Nat} (b : Byte)
    (hp : p < HAL_HDR_ADDR) : Logged (store m p [b]) t ∧ hdr (store m p [b]) 3 = hdr m 3 := by
  have hbelow : p + [b].length ≤ HAL_HDR_ADDR := hp
  have hword : ∀ i < 4, hdr (store m p [b]) i = hdr m i := fun i hi => hdr_store m hi (Or.inl hbelow)
  have hout : HAL_HDR_ADDR ≤ HAL_OUT_ADDR := by decide
  refine ⟨⟨?_, ?_, ?_, ?_⟩, hword 3 (by decide)⟩
  · rw [hword 0 (by decide), h.magic]
  · rw [hword 1 (by decide), h.outAddr]
  · rw [hword 2 (by decide), h.outLen]
  · rw [hword 2 (by decide), load_store_apart _ _ _ (Or.inr (by omega)), h.out]

/-- `_sbrk` never moves the end of the heap past the limit: what would pass it is refused, and a
variable that has become `NULL` stands for the start again. -/
theorem sbrk_le (hstart : heapStart.toNat ≤ HAL_HEAP_LIMIT) {heap : BitVec 32}
    (h : (brk heapStart heap).toNat ≤ HAL_HEAP_LIMIT) (incr : BitVec 32) :
    (brk heapStart (sbrk heapStart heap incr).1).toNat ≤ HAL_HEAP_LIMIT := by
  have hread : ∀ heap : BitVec 32, heap.toNat ≤ HAL_HEAP_LIMIT →
      (brk heapStart heap).toNat ≤ HAL_HEAP_LIMIT := by
    intro heap hheap
    rw [brk]
    split
    · exact hstart
    · exact hheap
  simp only [sbrk]
  split
  next => exact hread _ h
  next hnext => exact hread _ (Nat.not_lt.mp hnext)

theorem step_brk_le (hstart : heapStart.toNat ≤ HAL_HEAP_LIMIT) {d : Driver}
    (h : (brk heapStart d.heap).toNat ≤ HAL_HEAP_LIMIT) (e : Event) :
    (brk heapStart (step heapStart d e).1.heap).toNat ≤ HAL_HEAP_LIMIT := by
  cases e with
  | print f => exact h
  | sbrk incr => exact sbrk_le heapStart hstart h incr
  | write p b => exact h

/-- Writes outside the header and the buffer are as without the prints. -/
theorem written_congr {m m' : Mem Byte} (h : ∀ a, ¬ Reserved a → m a = m' a) (es : List Event)
    {a : Nat} (ha : ¬ Reserved a) : written m es a = written m' es a := by
  induction es generalizing m m' with
  | nil => exact h a ha
  | cons e es ih =>
      cases e with
      | print f => exact ih h
      | sbrk incr => exact ih h
      | write p b =>
          refine ih fun c hc => ?_
          rw [store, store, store, store]
          by_cases hcp : c = p
          · rw [hcp, Function.update_self, Function.update_self]
          · rw [Function.update_of_ne hcp, Function.update_of_ne hcp, h c hc]

theorem printed_cons (e : Event) (es : List Event) : printed (e :: es) = printed [e] ++ printed es := by
  cases e with
  | print f => cases f <;> simp [printed]
  | sbrk incr => rfl
  | write p b => rfl

/-- What a run keeps. -/
theorem run_logged (hstart : heapStart.toNat ≤ HAL_HEAP_LIMIT) {d : Driver} {t : List Byte}
    (hlog : Logged d.mem t) (hdone : hdr d.mem 3 = 0)
    (hbrk : (brk heapStart d.heap).toNat ≤ HAL_HEAP_LIMIT) {es : List Event}
    (h : Respects heapStart d.heap es) :
    let d' := (Run.run (step heapStart) d es).1
    Logged d'.mem (t ++ printed es) ∧ hdr d'.mem 3 = 0 ∧
      ∀ a, ¬ Reserved a → d'.mem a = written d.mem es a := by
  induction es generalizing d t with
  | nil =>
      refine ⟨?_, hdone, fun a _ => rfl⟩
      rwa [printed, List.append_nil]
  | cons e es ih =>
      rw [Run.run_cons, printed_cons, ← List.append_assoc]
      cases e with
      | print f =>
          obtain ⟨hkeep, hframe⟩ := benchXprintf_apart hlog f
          obtain ⟨hlog', hdone', hmem⟩ := ih (d := { d with mem := benchXprintf d.mem f })
            (benchXprintf_logged hlog f) ((hkeep 3 (by decide) (by decide)).trans hdone) hbrk h
          refine ⟨hlog', hdone', fun a ha => (hmem a ha).trans ?_⟩
          exact written_congr hframe es ha
      | sbrk incr =>
          have hle := step_brk_le heapStart hstart hbrk (.sbrk incr)
          have hnext := ih (d := { d with heap := (sbrk heapStart d.heap incr).1 }) hlog hdone hle h
          rwa [printed, printed, List.append_nil]
      | write p b =>
          obtain ⟨hp, hrest⟩ := h
          have hlimit : HAL_HEAP_LIMIT ≤ HAL_STACK_TOP := by decide
          have htop : HAL_STACK_TOP ≤ HAL_HDR_ADDR := by decide
          have hbelow : p < HAL_HDR_ADDR := by omega
          obtain ⟨hlog', hdone'⟩ := hlog.write b hbelow
          have hnext := ih (d := { d with mem := store d.mem p [b] }) (t := t) hlog'
            (hdone'.trans hdone) hbrk hrest
          rwa [printed, printed, List.append_nil]

/-- No order of calls takes the heap past the limit. -/
theorem running_brk_le (hstart : heapStart.toNat ≤ HAL_HEAP_LIMIT) (m : Mem Byte)
    (es : List Event) : (brk heapStart (running heapStart m es).heap).toNat ≤ HAL_HEAP_LIMIT := by
  have hempty : (brk heapStart (Driver.mk (setup m) 0).heap).toNat ≤ HAL_HEAP_LIMIT := hstart
  exact Run.run_preserves (fun d : Driver => (brk heapStart d.heap).toNat ≤ HAL_HEAP_LIMIT)
    (fun _ e h => step_brk_le heapStart hstart h e) hempty es

/-- The host reads the whole text that there is room for, and 4096 bytes where there is none. -/
theorem Logged.dump_eq {m : Mem Byte} {t : List Byte} (h : Logged m t) :
    dump m = if t = [] then load m HAL_OUT_ADDR 4096 else t.take (HAL_OUT_SIZE - 1) := by
  have hsize : HAL_OUT_SIZE = 8192 := rfl
  have hlen := h.outLen
  by_cases ht : t = []
  · rw [ht, List.length_nil, Nat.zero_min] at hlen
    rw [dump, hlen, if_neg (Nat.lt_irrefl 0), if_pos ht]
  · have hpos := List.length_pos_iff.mpr ht
    rw [dump, if_pos (by omega), if_neg ht, h.out]

end AsconDtls.Evaluation.BenchDriver
