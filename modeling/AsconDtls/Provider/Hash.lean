import AsconDtls.Provider.Core
import AsconDtls.Wolf.Hash

/-!
# Ascon-Hash256 in the provider

`ascon_hash256_core_*` of `ascon_local.h` and the digest functions of
`digest_ascon_hash256.c`.  The update is one loop that permutes when a block
fills, where `wc_AsconHash256_Update` fills a block, takes full blocks and keeps
the rest; both are `feed` of the same machine.  So two contexts that have taken
the same bytes are in the same state at the same position (`hashes_agree`).
-/

namespace AsconDtls.Provider

open LittleEndian
open Duplex (Machine)
open Run (run run_append run_cons run_nil)

/-- `ASCON_HASH256_CTX`. -/
structure AsconHash256Ctx where
  s : AsconState
  lastBlkSz : Nat
deriving DecidableEq

def ASCON_HASH256_ROUNDS : Nat := 12

namespace AsconHash256Ctx

/-- `ascon_hash256_core_init`. -/
def coreInit (_h : AsconHash256Ctx) : AsconHash256Ctx :=
  let h : AsconHash256Ctx := { s := .zero, lastBlkSz := 0 }
  let h := { h with s := h.s.setS64 0 ASCON_HASH256_IV }
  { h with s := asconPermute h.s ASCON_HASH256_ROUNDS }

/-- `while (dataSz > 0)` of `ascon_hash256_core_update`.  A round takes a byte or
more, so a `fuel` of the length of the data is enough. -/
def coreUpdateLoop (h : AsconHash256Ctx) (data : List Byte) : Nat → AsconHash256Ctx
  | 0 => h
  | fuel + 1 =>
    if 0 < data.length then
      let n := min (ASCON_HASH256_RATE - h.lastBlkSz) data.length
      let h := { h with s := h.s.xorbuf h.lastBlkSz (data.take n) }
      let h := { h with lastBlkSz := u8 (h.lastBlkSz + u8 n) }
      let h :=
        if h.lastBlkSz = ASCON_HASH256_RATE then
          { s := asconPermute h.s ASCON_HASH256_ROUNDS, lastBlkSz := 0 }
        else h
      coreUpdateLoop h (data.drop n) fuel
    else h

/-- `ascon_hash256_core_update`. -/
def coreUpdate (h : AsconHash256Ctx) (data : List Byte) : AsconHash256Ctx :=
  coreUpdateLoop h data data.length

/-- `ascon_hash256_core_final`: the context and the digest. -/
def coreFinal (h : AsconHash256Ctx) : AsconHash256Ctx × List Byte :=
  let h := { h with s := h.s.xorS8 h.lastBlkSz 1 }
  let r := squeeze (fun s => asconPermute s ASCON_HASH256_ROUNDS) ASCON_HASH256_RATE
    (ASCON_HASH256_SZ / ASCON_HASH256_RATE) h.s
  ({ h with s := r.1 }, r.2)

end AsconHash256Ctx

/-- What `ascon_hash256_init`, `_update` and `_final` return and write. -/
structure HashReply where
  ret : Nat
  out : List Byte := []
deriving DecidableEq

inductive HashCall
  | init
  | update (data : List Byte)
  | final
deriving DecidableEq

def hashStep (h : AsconHash256Ctx) : HashCall → AsconHash256Ctx × HashReply
  | .init => (h.coreInit, { ret := 1 })
  | .update data => (h.coreUpdate data, { ret := 1 })
  | .final => (h.coreFinal.1, { ret := 1, out := h.coreFinal.2 })

namespace AsconHash256Ctx

/-- A context in the middle of a message. -/
def absorbing (c : AsconState × Nat) : AsconHash256Ctx := ⟨c.1, c.2⟩

theorem asconPermute_rounds : (fun s => asconPermute s ASCON_HASH256_ROUNDS) = permutePA :=
  funext fun s => asconPermute_eq_asconP s .r12

theorem coreInit_eq (h : AsconHash256Ctx) : h.coreInit = absorbing (hashStart, 0) := by
  rw [hashStart, ← asconPermute_rounds]
  rfl

/-- One round of the loop fills the block as far as the data go. -/
theorem coreUpdateLoop_succ {s : AsconState} {i n : Nat} (hi : i < ASCON_HASH256_RATE)
    {data : List Byte} (hpos : 0 < data.length) (hn : n = min (ASCON_HASH256_RATE - i) data.length)
    (fuel : Nat) :
    coreUpdateLoop (absorbing (s, i)) data (fuel + 1) =
      coreUpdateLoop (absorbing (hashMachine.feed (s, i) (data.take n)).1) (data.drop n) fuel := by
  have hi8 : i < 8 := hi
  have hn8 : n ≤ 8 - i := hn ▸ Nat.min_le_left ..
  have hlen : (data.take n).length ≤ 8 - i := by
    rw [List.length_take]
    omega
  have hu8 : u8 (i + u8 n) = i + n := by
    simp only [u8]
    omega
  have habsorb : (hashMachine.absorb i (data.take n) s).1 = s.xorbuf i (data.take n) := by
    rw [hashMachine, xorMachine_absorb _ _ _ (by omega)]
  have hfeed := hashMachine.feed_fill (s := s) hi data
  have hrate : hashMachine.rate = ASCON_HASH256_RATE := rfl
  have hpermute : hashMachine.permute = fun s => asconPermute s ASCON_HASH256_ROUNDS :=
    asconPermute_rounds.symm
  simp only [hrate, hpermute, ← hn, habsorb] at hfeed
  rw [hfeed, coreUpdateLoop, if_pos hpos]
  simp only [absorbing, ← hn, hu8]
  by_cases hfull : i + n = ASCON_HASH256_RATE
  · simp only [if_pos hfull]
  · simp only [if_neg hfull]

theorem coreUpdateLoop_eq_feed {c : AsconState × Nat} (hc : c.2 < ASCON_HASH256_RATE)
    {data : List Byte} {fuel : Nat} (hfuel : data.length ≤ fuel) :
    coreUpdateLoop (absorbing c) data fuel = absorbing (hashMachine.feed c data).1 := by
  induction fuel generalizing c data with
  | zero =>
      have hnil : data = [] := List.eq_nil_of_length_eq_zero (by omega)
      rw [hnil]
      rfl
  | succ fuel ih =>
      by_cases hpos : 0 < data.length
      · have hi : c.2 < 8 := hc
        obtain ⟨n, hn⟩ : ∃ n, n = min (ASCON_HASH256_RATE - c.2) data.length := ⟨_, rfl⟩
        have hdrop : (data.drop n).length ≤ fuel := by
          simp only [ASCON_HASH256_RATE] at hn
          rw [List.length_drop]
          omega
        have hfeed := hashMachine.feed_append c (data.take n) (data.drop n)
        rw [List.take_append_drop] at hfeed
        rw [coreUpdateLoop_succ hc hpos hn, ih (hashMachine.feed_lt hc _) hdrop, hfeed]
      · have hnil : data = [] := List.eq_nil_of_length_eq_zero (by omega)
        rw [hnil]
        rfl

/-- **An update is `feed`.** -/
theorem coreUpdate_absorbing {c : AsconState × Nat} (hc : c.2 < ASCON_HASH256_RATE)
    (data : List Byte) :
    (absorbing c).coreUpdate data = absorbing (hashMachine.feed c data).1 :=
  coreUpdateLoop_eq_feed hc (Nat.le_refl _)

theorem coreFinal_absorbing (c : AsconState × Nat) :
    (absorbing c).coreFinal.2 = hashClose c := by
  simp only [coreFinal, asconPermute_rounds]
  rfl

/-- The context after updates with `chunks`. -/
theorem run_updates {c : AsconState × Nat} (hc : c.2 < ASCON_HASH256_RATE)
    (chunks : List (List Byte)) :
    (run hashStep (absorbing c) (chunks.map .update)).1 =
      absorbing (hashMachine.feed c chunks.flatten).1 := by
  induction chunks generalizing c with
  | nil => rfl
  | cons bs chunks ih =>
      rw [List.map_cons, run_cons, List.flatten_cons, hashMachine.feed_append]
      simp only [hashStep, coreUpdate_absorbing hc bs]
      exact ih (hashMachine.feed_lt hc bs)

/-- The simulation relation: equal 320-bit states and equal `lastBlkSz`. -/
def Simulates (h : AsconHash256Ctx) (a : Wolf.AsconHash256) : Prop :=
  h.s = a.state ∧ h.lastBlkSz = a.lastBlkSz

theorem simulates_absorbing (c : AsconState × Nat) :
    Simulates (absorbing c) (Wolf.AsconHash256.absorbing c) := ⟨rfl, rfl⟩

/-- Every call of the digest returns 1. -/
theorem ret_run (h : AsconHash256Ctx) (calls : List HashCall) :
    ∀ r ∈ (run hashStep h calls).2, r.ret = 1 := by
  induction calls generalizing h with
  | nil => exact fun r hr => absurd hr List.not_mem_nil
  | cons call calls ih =>
      rw [run_cons]
      intro r hr
      rcases List.mem_cons.mp hr with rfl | hr
      · cases call <;> rfl
      · exact ih _ r hr

end AsconHash256Ctx

open AsconHash256Ctx (Simulates)

/-- **The two implementations of the hash agree.**  After updates with the same
bytes, whatever the chunks on either side, the two contexts are in the simulation
relation and close with the same digest; no call fails. -/
theorem hashes_agree (B : Wolf.Build) (h : AsconHash256Ctx) (a : Wolf.AsconHash256)
    (chunks chunks' : List (List Byte)) (hflat : chunks.flatten = chunks'.flatten) :
    let p := run hashStep h (.init :: chunks.map .update)
    let w := run (Wolf.hashStep B) a (.init :: chunks'.map fun bs => .update (.ptr bs))
    Simulates p.1 w.1 ∧
      (hashStep p.1 .final).2.out = (Wolf.hashStep B w.1 (.final .ptr)).2.out ∧
      (∀ r ∈ p.2, r.ret = 1) ∧ (hashStep p.1 .final).2.ret = 1 ∧
      (∀ r ∈ w.2, r = .ok []) ∧
      (Wolf.hashStep B w.1 (.final .ptr)).2 = .ok (hash256 chunks.flatten) := by
  intro p w
  obtain ⟨c, hc⟩ : ∃ c, c = (hashMachine.feed (hashStart, 0) chunks.flatten).1 := ⟨_, rfl⟩
  have hp : p.1 = AsconHash256Ctx.absorbing c := by
    simp only [p, run_cons, hashStep, AsconHash256Ctx.coreInit_eq]
    rw [AsconHash256Ctx.run_updates (by decide), hc]
  have hw : w = (Wolf.AsconHash256.absorbing c, .ok [] :: chunks'.map fun _ => .ok []) := by
    simp only [w, run_cons, Wolf.hashStep, Wolf.AsconHash256.init_eq]
    rw [Wolf.AsconHash256.run_updates B (by decide), hc, hflat]
  have hout : (hashStep p.1 .final).2.out = hashClose c := by
    rw [hp]
    exact AsconHash256Ctx.coreFinal_absorbing c
  have hfinal : (Wolf.hashStep B w.1 (.final .ptr)).2 = .ok (hashClose c) := by
    rw [hw, Wolf.hashStep, Wolf.AsconHash256.final_absorbing]
  refine ⟨?_, ?_, AsconHash256Ctx.ret_run _ _, rfl, ?_, ?_⟩
  · rw [hp, hw]
    exact AsconHash256Ctx.simulates_absorbing c
  · rw [hout, hfinal]
    rfl
  · rw [hw]
    intro r hr
    rcases List.mem_cons.mp hr with rfl | hr
    · rfl
    · obtain ⟨bs, -, rfl⟩ := List.mem_map.mp hr
      rfl
  · rw [hfinal, hash256, hc]

/-- One byte and then eight, against three and then six. -/
theorem hashes_agree_example :
    let B : Wolf.Build := ⟨.looped, fun x y => if x = y then 0 else 1⟩
    let p := run hashStep ⟨.zero, 0⟩ [.init, .update [1], .update [2, 3, 4, 5, 6, 7, 8, 9]]
    let w := run (Wolf.hashStep B) ⟨.zero, 0⟩
      [.init, .update (.ptr [1, 2, 3]), .update (.ptr [4, 5, 6, 7, 8, 9])]
    Simulates p.1 w.1 :=
  (hashes_agree _ ⟨.zero, 0⟩ ⟨.zero, 0⟩ [[1], [2, 3, 4, 5, 6, 7, 8, 9]]
    [[1, 2, 3], [4, 5, 6, 7, 8, 9]] rfl).1

end AsconDtls.Provider
