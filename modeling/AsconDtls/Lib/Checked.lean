import AsconDtls.Lib.Duplex
import AsconDtls.Lib.Run

/-!
# Code that stops at a bad access

A function written a second time in `Except Fault` stops where it would leave a buffer, take a
difference below zero, lose bits in a conversion to a byte, or not end a loop.  That the second
text gives `.ok` of what the first gives says that the first does none of these.

* `inside_ok`, `sub_ok`, `toByte_ok`: when a check passes.
* `whileBlocks_ok`: a loop over full blocks.
* `run_ok`: a run whose steps pass in every state of an invariant.
-/

namespace Checked

/-- Why the code stops. -/
inductive Fault
  | outside
  | underflow
  | narrowed
  | unfinished
deriving DecidableEq

variable {σ β γ ι ο : Type}

/-- The bytes `pos`, …, `pos + len - 1` of a buffer with `size` bytes. -/
def inside (size pos len : Nat) : Except Fault Unit :=
  if pos + len ≤ size then .ok () else .error .outside

/-- `m - n` of unsigned numbers. -/
def sub (m n : Nat) : Except Fault Nat := if n ≤ m then .ok (m - n) else .error .underflow

/-- `(uint8_t)n`. -/
def toByte (n : Nat) : Except Fault Nat := if n < 256 then .ok n else .error .narrowed

theorem inside_ok {size pos len : Nat} (h : pos + len ≤ size) : inside size pos len = .ok () :=
  if_pos h

theorem sub_ok {m n : Nat} (h : n ≤ m) : sub m n = .ok (m - n) := if_pos h

theorem toByte_ok {n : Nat} (h : n < 256) : toByte n = .ok n := if_pos h

theorem ok_bind {α δ : Type} (a : α) (f : α → Except Fault δ) :
    (Except.ok a >>= f) = f a := by
  cases h : f a <;> exact h

/-- `while (len >= rate)` with a body that can stop. -/
def whileBlocks (rate : Nat) (body : List β → σ → Except Fault (σ × List γ)) (s : σ)
    (data : List β) : Nat → Except Fault (σ × List γ × List β)
  | 0 => if rate ≤ data.length then .error .unfinished else .ok (s, [], data)
  | fuel + 1 =>
    if rate ≤ data.length then do
      let r ← body (data.take rate) s
      let t ← whileBlocks rate body r.1 (data.drop rate) fuel
      .ok (t.1, r.2 ++ t.2.1, t.2.2)
    else .ok (s, [], data)

/-- By induction on the fuel: each round takes `rate` bytes. -/
theorem whileBlocks_ok {rate : Nat} (hr : 0 < rate)
    {body : List β → σ → Except Fault (σ × List γ)} {body' : List β → σ → σ × List γ}
    (h : ∀ blk s, blk.length = rate → body blk s = .ok (body' blk s)) (s : σ) {data : List β}
    {fuel : Nat} (hfuel : data.length ≤ fuel) :
    whileBlocks rate body s data fuel = .ok (Duplex.whileBlocks rate body' s data) := by
  induction fuel generalizing s data with
  | zero =>
      rw [whileBlocks, if_neg (by omega), Duplex.whileBlocks_of_lt _ _ (by omega)]
  | succ fuel ih =>
      rw [whileBlocks]
      by_cases hle : rate ≤ data.length
      · have hblk : (data.take rate).length = rate := by
          rw [List.length_take]
          omega
        have hrest : (data.drop rate).length ≤ fuel := by
          rw [List.length_drop]
          omega
        rw [if_pos hle, h _ _ hblk, ok_bind, ih _ hrest, ok_bind,
          Duplex.whileBlocks_of_le body' s hr hle]
      · rw [if_neg hle, Duplex.whileBlocks_of_lt _ _ (by omega)]

/-- A run of a machine whose steps can stop. -/
def run (step : σ → ι → Except Fault (σ × ο)) : σ → List ι → Except Fault (σ × List ο)
  | s, [] => .ok (s, [])
  | s, c :: cs => do
    let r ← step s c
    let t ← run step r.1 cs
    .ok (t.1, r.2 :: t.2)

theorem run_ok {step : σ → ι → Except Fault (σ × ο)} {step' : σ → ι → σ × ο} (Inv : σ → Prop)
    (h : ∀ s c, Inv s → step s c = .ok (step' s c) ∧ Inv (step' s c).1) {s : σ} (hs : Inv s)
    (cs : List ι) :
    run step s cs = .ok (Run.run step' s cs) ∧ Inv (Run.run step' s cs).1 := by
  induction cs generalizing s with
  | nil => exact ⟨rfl, hs⟩
  | cons c cs ih =>
      obtain ⟨hstep, hnext⟩ := h s c hs
      obtain ⟨hrun, hend⟩ := ih hnext
      refine ⟨?_, hend⟩
      rw [run, hstep, ok_bind, hrun, ok_bind, Run.run_cons]

end Checked
