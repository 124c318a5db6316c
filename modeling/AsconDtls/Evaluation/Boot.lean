import AsconDtls.Lib.Thumb

/-!
# From reset to `main`

`reset_handler` of `startup.s`, with the symbols that `bench.ld` gives it: one loop copies `.data`
from flash to RAM, a second one clears `.bss`, both word by word.

`reset_main`: whatever is in the registers and in RAM, the handler reaches its call of `main` with
`.data` copied, `.bss` zero and nothing else changed from the start of `.data` on but up to the heap.
There is one way not to get there: `bench.ld` aligns where `.data` goes and not where it is loaded
from, and a core that takes aligned words only then faults at the first word.
-/

namespace AsconDtls.Evaluation.Boot

open LittleEndian
open InPlace (Mem load store length_load store_apart load_store load_store_apart store_append
  load_add eq_of_load_eq)
open Thumb

/-- The symbols of `bench.ld`.  FLASH has 512 KiB from `0x08000000`, RAM 256 KiB from `0x20000000`. -/
structure LinkMap where
  dataLoad : Nat
  dataStart : Nat
  dataEnd : Nat
  bssStart : Nat
  bssEnd : Nat
  heapStart : Nat
  /-- `. = ALIGN(4);` three times. -/
  dataStart_aligned : dataStart % 4 = 0
  bssStart_aligned : bssStart % 4 = 0
  heapStart_aligned : heapStart % 4 = 0
  /-- One section after the other. -/
  data_le : dataStart ≤ dataEnd
  bss_after : dataEnd ≤ bssStart
  bss_le : bssStart ≤ bssEnd
  heap_after : bssEnd ≤ heapStart
  flash : 0x08000000 ≤ dataLoad ∧ dataLoad + (dataEnd - dataStart) ≤ 0x08080000
  ram : 0x20000000 ≤ dataStart ∧ heapStart ≤ 0x20040000

namespace LinkMap

variable (L : LinkMap)

/-- The words of `.data`, the last one perhaps not full. -/
def dataWords : Nat := (L.dataEnd - L.dataStart + 3) / 4

def bssWords : Nat := (L.bssEnd - L.bssStart + 3) / 4

end LinkMap

/-- `reset_handler`, up to the call of `main`. -/
def resetHandler (L : LinkMap) : List Instr :=
  [.ldrEq .r0 (BitVec.ofNat 32 L.dataLoad),
    .ldrEq .r1 (BitVec.ofNat 32 L.dataStart),
    .ldrEq .r2 (BitVec.ofNat 32 L.dataEnd),
    .cmp .r1 .r2,                             -- 1:
    .bhs 10,
    .ldr .r3 .r0,
    .adds .r0 4,
    .str .r3 .r1,
    .adds .r1 4,
    .b 3,
    .ldrEq .r1 (BitVec.ofNat 32 L.bssStart),  -- 2:
    .ldrEq .r2 (BitVec.ofNat 32 L.bssEnd),
    .cmp .r1 .r2,                             -- 3:
    .bhs 18,
    .movs .r3 0,
    .str .r3 .r1,
    .adds .r1 4,
    .b 12]

/-- `bl main`. -/
def callMain : Nat := 18

/-! ### The rounds -/

theorem toNat_addr {a : Nat} (h : a < 2 ^ 32) : (BitVec.ofNat 32 a).toNat = a := by
  rw [BitVec.toNat_ofNat, Nat.mod_eq_of_lt h]

theorem ofNat_add_four (a : Nat) : BitVec.ofNat 32 a + 4 = BitVec.ofNat 32 (a + 4) := by
  rw [BitVec.ofNat_add]
  rfl

theorem takes_of_aligned (strict : Bool) {a : Nat} (h : a % 4 = 0) : takes strict a = true := by
  simp [takes, h]

variable (strict : Bool) (L : LinkMap)

/-- A round of the first loop. -/
theorem copy_round {s : State} {a b e : Nat} (hpc : s.pc = 3) (h0 : s.regs .r0 = BitVec.ofNat 32 a)
    (h1 : s.regs .r1 = BitVec.ofNat 32 b) (h2 : s.regs .r2 = BitVec.ofNat 32 e) (hbe : b < e)
    (ha : a < 2 ^ 32) (he : e < 2 ^ 32) (hta : takes strict a = true)
    (htb : takes strict b = true) :
    ∃ t, Reaches strict (resetHandler L) s t ∧ t.pc = 3 ∧ t.regs .r0 = BitVec.ofNat 32 (a + 4) ∧
      t.regs .r1 = BitVec.ofNat 32 (b + 4) ∧ t.regs .r2 = BitVec.ofNat 32 e ∧
      t.mem = store s.mem b (load s.mem a 4) := by
  obtain ⟨pc, regs, carry, mem⟩ := s
  simp only at hpc h0 h1 h2
  subst hpc
  have hb := toNat_addr (show b < 2 ^ 32 by omega)
  have he' := toNat_addr he
  have ha' := toNat_addr ha
  have hgoes : decide (e ≤ b) = false := decide_eq_false (by omega)
  let word := loadLE 32 (load mem a 4)
  let regs' := Function.update (Function.update (Function.update regs .r3 word) .r0
    (regs .r0 + 4)) .r1 (regs .r1 + 4)
  have hrun : run strict (resetHandler L) 7 ⟨3, regs, carry, mem⟩ =
      some ⟨3, regs', decide (2 ^ 32 ≤ (regs .r1).toNat + 4), store mem b (bytesAt word 0 4)⟩ := by
    simp [run, step, resetHandler, exec, State.set, h0, h1, h2, ha', hb, he', hgoes, hta, htb,
      regs', word]
  have hr0 : regs' .r0 = BitVec.ofNat 32 (a + 4) := by
    rw [← ofNat_add_four, ← h0]
    simp [regs']
  have hr1 : regs' .r1 = BitVec.ofNat 32 (b + 4) := by
    rw [← ofNat_add_four, ← h1]
    simp [regs']
  have hr2 : regs' .r2 = BitVec.ofNat 32 e := by
    rw [← h2]
    simp [regs']
  refine ⟨_, ⟨7, hrun⟩, rfl, hr0, hr1, hr2, ?_⟩
  simp only [word, bytesAt_loadLE_word]

/-- A round of the second loop. -/
theorem zero_round {s : State} {b e : Nat} (hpc : s.pc = 12) (h1 : s.regs .r1 = BitVec.ofNat 32 b)
    (h2 : s.regs .r2 = BitVec.ofNat 32 e) (hbe : b < e) (he : e < 2 ^ 32)
    (htb : takes strict b = true) :
    ∃ t, Reaches strict (resetHandler L) s t ∧ t.pc = 12 ∧
      t.regs .r1 = BitVec.ofNat 32 (b + 4) ∧ t.regs .r2 = BitVec.ofNat 32 e ∧
      t.mem = store s.mem b (List.replicate 4 0) := by
  obtain ⟨pc, regs, carry, mem⟩ := s
  simp only at hpc h1 h2
  subst hpc
  have hb := toNat_addr (show b < 2 ^ 32 by omega)
  have he' := toNat_addr he
  have hgoes : decide (e ≤ b) = false := decide_eq_false (by omega)
  let regs' := Function.update (Function.update regs .r3 0) .r1 (regs .r1 + 4)
  have hrun : run strict (resetHandler L) 6 ⟨12, regs, carry, mem⟩ =
      some ⟨12, regs', decide (2 ^ 32 ≤ (regs .r1).toNat + 4), store mem b (bytesAt 0#32 0 4)⟩ := by
    simp [run, step, resetHandler, exec, State.set, h1, h2, hb, he', hgoes, htb, regs']
  have hr1 : regs' .r1 = BitVec.ofNat 32 (b + 4) := by
    rw [← ofNat_add_four, ← h1]
    simp [regs']
  have hr2 : regs' .r2 = BitVec.ofNat 32 e := by
    rw [← h2]
    simp [regs']
  exact ⟨_, ⟨6, hrun⟩, rfl, hr1, hr2, congrArg (store mem b) (bytesAt_zero_mem (w := 32) 4)⟩

/-! ### The loops -/

variable {L}

/-- At the head of the first loop, after `k` words. -/
structure Copying (L : LinkMap) (m : Mem Byte) (k : Nat) (s : State) : Prop where
  pc : s.pc = 3
  src : s.regs .r0 = BitVec.ofNat 32 (L.dataLoad + 4 * k)
  dst : s.regs .r1 = BitVec.ofNat 32 (L.dataStart + 4 * k)
  stop : s.regs .r2 = BitVec.ofNat 32 L.dataEnd
  mem : s.mem = store m L.dataStart (load m L.dataLoad (4 * k))

/-- At the head of the second loop, after `k` words. -/
structure Clearing (L : LinkMap) (m : Mem Byte) (k : Nat) (s : State) : Prop where
  pc : s.pc = 12
  dst : s.regs .r1 = BitVec.ofNat 32 (L.bssStart + 4 * k)
  stop : s.regs .r2 = BitVec.ofNat 32 L.bssEnd
  mem : s.mem = store m L.bssStart (List.replicate (4 * k) 0)

/-- The image in flash is apart from what is written in RAM. -/
theorem Copying.round {m : Mem Byte} {k : Nat} {s : State} (h : Copying L m k s)
    (hk : k < L.dataWords) (htake : takes strict L.dataLoad = true) :
    ∃ t, Reaches strict (resetHandler L) s t ∧ Copying L m (k + 1) t := by
  obtain ⟨hflash, hflash'⟩ := L.flash
  obtain ⟨hram, hram'⟩ := L.ram
  have haligned := L.dataStart_aligned
  have hend := L.data_le
  have hafter := L.bss_after
  have hbss := L.bss_le
  have hheap := L.heap_after
  have hlt : L.dataStart + 4 * k < L.dataEnd := by
    rw [LinkMap.dataWords] at hk
    omega
  have htake' : takes strict (L.dataLoad + 4 * k) = true := by
    simpa [takes, Nat.add_mul_mod_self_left] using htake
  obtain ⟨t, hreach, hpc, h0, h1, h2, hmem⟩ := copy_round strict L h.pc h.src h.dst
    h.stop hlt (by omega) (by omega) htake' (takes_of_aligned strict (by omega))
  refine ⟨t, hreach, hpc, h0, h1, h2, ?_⟩
  have hlen : (load m L.dataLoad (4 * k)).length = 4 * k := length_load ..
  have hsame : load s.mem (L.dataLoad + 4 * k) 4 = load m (L.dataLoad + 4 * k) 4 := by
    rw [h.mem]
    exact load_store_apart _ _ _ (by omega)
  have hstore := store_append m L.dataStart (load m L.dataLoad (4 * k))
    (load m (L.dataLoad + 4 * k) 4)
  rw [hlen, ← load_add] at hstore
  rw [hmem, hsame, h.mem, hstore]
  rfl

theorem Clearing.round {m : Mem Byte} {k : Nat} {s : State} (h : Clearing L m k s)
    (hk : k < L.bssWords) : ∃ t, Reaches strict (resetHandler L) s t ∧ Clearing L m (k + 1) t := by
  obtain ⟨hram, hram'⟩ := L.ram
  have haligned := L.bssStart_aligned
  have hheap := L.heap_after
  have hlt : L.bssStart + 4 * k < L.bssEnd := by
    rw [LinkMap.bssWords] at hk
    omega
  obtain ⟨t, hreach, hpc, h1, h2, hmem⟩ := zero_round strict L h.pc h.dst h.stop hlt
    (by omega) (takes_of_aligned strict (by omega))
  refine ⟨t, hreach, hpc, h1, h2, ?_⟩
  have hlen : (List.replicate (4 * k) (0 : Byte)).length = 4 * k := List.length_replicate ..
  have hstore := store_append m L.bssStart (List.replicate (4 * k) 0) (List.replicate 4 0)
  rw [hlen, List.replicate_append_replicate] at hstore
  rw [hmem, h.mem, hstore]
  rfl

/-! ### The handler -/

/-- What `main` finds. -/
structure Initialised (L : LinkMap) (m m' : Mem Byte) : Prop where
  data : ∀ i, i < L.dataEnd - L.dataStart → m' (L.dataStart + i) = m (L.dataLoad + i)
  bss : ∀ a, L.bssStart ≤ a → a < L.bssEnd → m' a = 0
  rest : ∀ a, a < L.dataStart ∨ L.heapStart ≤ a → m' a = m a

/-- The three loads in front of the first loop. -/
theorem start_copying (regs : Reg → Word) (carry : Bool) (m : Mem Byte) :
    ∃ t, Reaches strict (resetHandler L) ⟨0, regs, carry, m⟩ t ∧ Copying L m 0 t := by
  let regs' := Function.update (Function.update (Function.update regs .r0
    (BitVec.ofNat 32 L.dataLoad)) .r1 (BitVec.ofNat 32 L.dataStart)) .r2
    (BitVec.ofNat 32 L.dataEnd)
  have hrun : run strict (resetHandler L) 3 ⟨0, regs, carry, m⟩ = some ⟨3, regs', carry, m⟩ := by
    simp [run, step, resetHandler, exec, State.set, regs']
  refine ⟨_, ⟨3, hrun⟩, rfl, ?_, ?_, ?_, rfl⟩
  · simp [regs']
  · simp [regs']
  · simp [regs']

/-- From the end of the first loop into the second. -/
theorem Copying.leave {m : Mem Byte} {k : Nat} {s : State} (h : Copying L m k s)
    (hk : L.dataEnd ≤ L.dataStart + 4 * k) (hle : L.dataStart + 4 * k < 2 ^ 32) :
    ∃ t, Reaches strict (resetHandler L) s t ∧ Clearing L s.mem 0 t := by
  obtain ⟨hpc, -, h1, h2, -⟩ := h
  obtain ⟨pc, regs, carry, mem⟩ := s
  simp only at hpc h1 h2
  subst hpc
  have hto := toNat_addr hle
  have hend := toNat_addr (show L.dataEnd < 2 ^ 32 by omega)
  have hleaves : decide (L.dataEnd ≤ L.dataStart + 4 * k) = true := decide_eq_true hk
  let regs' := Function.update (Function.update regs .r1 (BitVec.ofNat 32 L.bssStart)) .r2
    (BitVec.ofNat 32 L.bssEnd)
  have hrun : run strict (resetHandler L) 4 ⟨3, regs, carry, mem⟩ = some ⟨12, regs', true, mem⟩ := by
    simp [run, step, resetHandler, exec, State.set, h1, h2, hto, hend, hleaves, regs']
  refine ⟨_, ⟨4, hrun⟩, rfl, ?_, ?_, rfl⟩
  · simp [regs']
  · simp [regs']

theorem Clearing.leave {m : Mem Byte} {k : Nat} {s : State} (h : Clearing L m k s)
    (hk : L.bssEnd ≤ L.bssStart + 4 * k) (hle : L.bssStart + 4 * k < 2 ^ 32) :
    ∃ t, Reaches strict (resetHandler L) s t ∧ t.pc = callMain ∧ t.mem = s.mem := by
  obtain ⟨hpc, h1, h2, -⟩ := h
  obtain ⟨pc, regs, carry, mem⟩ := s
  simp only at hpc h1 h2
  subst hpc
  have hto := toNat_addr hle
  have hend := toNat_addr (show L.bssEnd < 2 ^ 32 by omega)
  have hleaves : decide (L.bssEnd ≤ L.bssStart + 4 * k) = true := decide_eq_true hk
  have hrun : run strict (resetHandler L) 2 ⟨12, regs, carry, mem⟩ = some ⟨18, regs, true, mem⟩ := by
    simp [run, step, resetHandler, exec, h1, h2, hto, hend, hleaves]
  exact ⟨_, ⟨2, hrun⟩, rfl, rfl⟩

/-- A load of zeros. -/
theorem load_zero (a n : Nat) : load (fun _ => (0 : Byte)) a n = List.replicate n 0 := by
  induction n generalizing a with
  | zero => rfl
  | succ n ih => rw [load, ih, List.replicate_succ]

/-- The last words of `.data` and of `.bss` may run over the end, and end before what comes next. -/
theorem LinkMap.dataWords_bounds (L : LinkMap) :
    L.dataEnd ≤ L.dataStart + 4 * L.dataWords ∧ L.dataStart + 4 * L.dataWords ≤ L.bssStart := by
  have haligned := L.dataStart_aligned
  have hnext := L.bssStart_aligned
  have hle := L.data_le
  have hafter := L.bss_after
  rw [LinkMap.dataWords]
  omega

theorem LinkMap.bssWords_bounds (L : LinkMap) :
    L.bssEnd ≤ L.bssStart + 4 * L.bssWords ∧ L.bssStart + 4 * L.bssWords ≤ L.heapStart := by
  have haligned := L.bssStart_aligned
  have hnext := L.heapStart_aligned
  have hle := L.bss_le
  have hafter := L.heap_after
  rw [LinkMap.bssWords]
  omega

/-- What the two loops have written. -/
theorem initialised_stores (L : LinkMap) (m : Mem Byte) :
    Initialised L m (store (store m L.dataStart (load m L.dataLoad (4 * L.dataWords))) L.bssStart
      (List.replicate (4 * L.bssWords) 0)) := by
  obtain ⟨hdata, hdata'⟩ := L.dataWords_bounds
  obtain ⟨hbss, hbss'⟩ := L.bssWords_bounds
  have hlen : (load m L.dataLoad (4 * L.dataWords)).length = 4 * L.dataWords := length_load ..
  have hlen' : (List.replicate (4 * L.bssWords) (0 : Byte)).length = 4 * L.bssWords :=
    List.length_replicate ..
  refine ⟨?_, ?_, ?_⟩
  · intro i hi
    rw [store_apart _ _ _ (.inl (by omega))]
    have hcopied := load_store m L.dataStart (load m L.dataLoad (4 * L.dataWords))
    rw [hlen] at hcopied
    exact eq_of_load_eq hcopied (by omega)
  · intro a ha ha'
    obtain ⟨i, rfl⟩ := Nat.exists_eq_add_of_le ha
    have hcleared := load_store (store m L.dataStart (load m L.dataLoad (4 * L.dataWords)))
      L.bssStart (List.replicate (4 * L.bssWords) 0)
    rw [hlen'] at hcleared
    have hzero := hcleared.trans (load_zero L.bssStart (4 * L.bssWords)).symm
    exact eq_of_load_eq (i := i) hzero (by omega)
  · intro a ha
    rw [store_apart _ _ _ (by omega), store_apart _ _ _ (by omega)]

/-- The words of `.data` can be loaded, or there are none. -/
def Loads (strict : Bool) (L : LinkMap) : Prop :=
  takes strict L.dataLoad = true ∨ L.dataStart = L.dataEnd

theorem Copying.run (h : Loads strict L) {m : Mem Byte} {s : State} (hs : Copying L m 0 s) :
    ∃ t, Reaches strict (resetHandler L) s t ∧ Copying L m L.dataWords t := by
  refine reaches_loop (fun k s hk hc => hc.round strict hk ?_) hs
  rcases h with htake | hnone
  · exact htake
  · rw [LinkMap.dataWords, hnone] at hk
    omega

/-- The first load of the first loop, where there is a word that cannot be loaded. -/
theorem Copying.faults (h : ¬Loads strict L) {m : Mem Byte} {s : State} (hs : Copying L m 0 s) :
    ∃ t, Reaches strict (resetHandler L) s t ∧ t.pc < (resetHandler L).length ∧
      step strict (resetHandler L) t = none := by
  rw [Loads, not_or] at h
  obtain ⟨hpc, h0, h1, h2, -⟩ := hs
  obtain ⟨hflash, hflash'⟩ := L.flash
  obtain ⟨hram, hram'⟩ := L.ram
  have hle := L.data_le
  have hafter := L.bss_after
  have hbss := L.bss_le
  have hheap := L.heap_after
  obtain ⟨pc, regs, carry, mem⟩ := s
  simp only [Nat.mul_zero, Nat.add_zero] at hpc h0 h1 h2
  subst hpc
  have hsrc := toNat_addr (show L.dataLoad < 2 ^ 32 by omega)
  have hdst := toNat_addr (show L.dataStart < 2 ^ 32 by omega)
  have hend := toNat_addr (show L.dataEnd < 2 ^ 32 by omega)
  have hgoes : decide (L.dataEnd ≤ L.dataStart) = false := decide_eq_false (by omega)
  have hrun : Thumb.run strict (resetHandler L) 2 ⟨3, regs, carry, mem⟩ =
      some ⟨5, regs, false, mem⟩ := by
    simp [Thumb.run, step, resetHandler, exec, h1, h2, hdst, hend, hgoes]
  refine ⟨_, ⟨2, hrun⟩, Nat.lt_of_sub_eq_succ rfl, ?_⟩
  simp [step, resetHandler, exec, h0, hsrc, h.1]

theorem reset_loads (h : Loads strict L) (regs : Reg → Word) (carry : Bool) (m : Mem Byte) :
    ∃ t, Reaches strict (resetHandler L) ⟨0, regs, carry, m⟩ t ∧ t.pc = callMain ∧
      Initialised L m t.mem := by
  obtain ⟨hram, hram'⟩ := L.ram
  obtain ⟨hdata, hdata'⟩ := L.dataWords_bounds
  obtain ⟨hbss, hbss'⟩ := L.bssWords_bounds
  have hle := L.bss_le
  have hheap := L.heap_after
  obtain ⟨s, hstart, hs⟩ := start_copying strict (L := L) regs carry m
  obtain ⟨t, hcopy, ht⟩ := hs.run strict h
  obtain ⟨u, hleave, hu⟩ := ht.leave strict hdata (by omega)
  obtain ⟨v, hclear, hv⟩ := reaches_loop (fun k s hk hc => hc.round strict hk) hu
  obtain ⟨w, hend, hpc, hmem⟩ := hv.leave strict hbss (by omega)
  refine ⟨w, (((hstart.trans hcopy).trans hleave).trans hclear).trans hend, hpc, ?_⟩
  rw [hmem, hv.mem, ht.mem]
  exact initialised_stores L m

theorem reset_faults (h : ¬Loads strict L) (regs : Reg → Word) (carry : Bool) (m : Mem Byte) :
    Faults strict (resetHandler L) ⟨0, regs, carry, m⟩ := by
  obtain ⟨s, hstart, hs⟩ := start_copying strict (L := L) regs carry m
  obtain ⟨t, hreach, hpc, hstuck⟩ := hs.faults strict h
  exact ⟨t, hstart.trans hreach, hpc, hstuck⟩

/-- **The handler**: it comes to its call of `main` when the words of `.data` can be loaded and not
otherwise, and `main` then finds what the linker script promises. -/
theorem reset_main (regs : Reg → Word) (carry : Bool) (m : Mem Byte) :
    ((∃ t, Reaches strict (resetHandler L) ⟨0, regs, carry, m⟩ t ∧ t.pc = callMain) ↔
      Loads strict L) ∧
    ∀ t, Reaches strict (resetHandler L) ⟨0, regs, carry, m⟩ t → t.pc = callMain →
      Initialised L m t.mem := by
  have honly : ∀ t, Reaches strict (resetHandler L) ⟨0, regs, carry, m⟩ t → t.pc = callMain →
      Loads strict L := by
    intro t ht hpc
    by_contra hloads
    have hlt := faults_not_reaches (reset_faults strict hloads regs carry m) ht
    rw [hpc] at hlt
    exact Nat.lt_irrefl _ hlt
  refine ⟨⟨fun ⟨t, ht, hpc⟩ => honly t ht hpc, fun hloads => ?_⟩, ?_⟩
  · obtain ⟨t, ht, hpc, -⟩ := reset_loads strict hloads regs carry m
    exact ⟨t, ht, hpc⟩
  · intro t ht hpc
    obtain ⟨u, hu, hupc, hinit⟩ := reset_loads strict (honly t ht hpc) regs carry m
    rwa [reaches_left_eq ht hu (Nat.le_of_eq hpc.symm) (Nat.le_of_eq hupc.symm)]

/-- `.text` ends two bytes behind a word, `.data` has five bytes and `.bss` three. -/
def unevenMap : LinkMap where
  dataLoad := 0x08001002
  dataStart := 0x20000000
  dataEnd := 0x20000005
  bssStart := 0x20000008
  bssEnd := 0x2000000B
  heapStart := 0x2000000C
  dataStart_aligned := by decide
  bssStart_aligned := by decide
  heapStart_aligned := by decide
  data_le := by decide
  bss_after := by decide
  bss_le := by decide
  heap_after := by decide
  flash := by decide
  ram := by decide

/-- A core that takes unaligned words starts `main` with it, one that does not faults. -/
theorem reset_main_uneven :
    let m : Mem Byte := fun a => BitVec.ofNat 8 a
    let s : State := ⟨0, fun _ => 0, false, m⟩
    (∃ t, Reaches false (resetHandler unevenMap) s t ∧ t.pc = callMain ∧
      t.mem 0x20000004 = m 0x08001006 ∧ t.mem 0x2000000A = 0) ∧
    ¬∃ t, Reaches true (resetHandler unevenMap) s t ∧ t.pc = callMain := by
  intro m s
  have hloads : Loads false unevenMap := .inl rfl
  have hnot : ¬Loads true unevenMap := by
    rw [Loads]
    decide
  obtain ⟨hreaches, hfinds⟩ := reset_main (L := unevenMap) false (fun _ => 0) false m
  obtain ⟨t, ht, hpc⟩ := hreaches.mpr hloads
  have hinit := hfinds t ht hpc
  refine ⟨⟨t, ht, hpc, hinit.data 4 (by decide), hinit.bss _ (by decide) (by decide)⟩, ?_⟩
  exact fun hmain => hnot ((reset_main (L := unevenMap) true (fun _ => 0) false m).1.mp hmain)

end AsconDtls.Evaluation.Boot
