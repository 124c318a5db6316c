import AsconDtls.Lib.Duplex

/-!
# Where streaming code touches its block

`whileBlocks` and `threePhase` run over any state, so they also run over a state with a
log: `logged` notes the position and the length of every part, `loggedByte` that of a single
byte.  Without the log it is
the same run (`whileBlocks_logged`, `threePhase_logged`), and the accesses of a
`threePhase` that starts below the rate stay inside the block (`threePhase_inside`).
-/

namespace Duplex

variable {σ β γ : Type*}

/-- The bytes `pos`, …, `pos + len - 1`. -/
structure Access where
  pos : Nat
  len : Nat
deriving DecidableEq

def Access.Inside (rate : Nat) (x : Access) : Prop := x.pos + x.len ≤ rate

instance (rate : Nat) (x : Access) : Decidable (x.Inside rate) :=
  inferInstanceAs (Decidable (_ ≤ _))

/-- `part`, with a note of where it was called. -/
def logged (part : Nat → List β → σ → σ × List γ) (i : Nat) (bs : List β)
    (s : σ × List Access) : (σ × List Access) × List γ :=
  (((part i bs s.1).1, s.2 ++ [⟨i, bs.length⟩]), (part i bs s.1).2)

/-- A change at one byte, with a note of where it was made. -/
def loggedByte (change : Nat → β → σ → σ) (i : Nat) (b : β) (s : σ × List Access) :
    σ × List Access :=
  (change i b s.1, s.2 ++ [⟨i, 1⟩])

def keepLog (permute : σ → σ) (s : σ × List Access) : σ × List Access := (permute s.1, s.2)

/-! ### The log changes nothing -/

theorem whileBlocks_logged {rate : Nat} {body : List β → σ → σ × List γ}
    {body' : List β → σ × List Access → (σ × List Access) × List γ}
    (h : ∀ blk s, (body' blk s).1.1 = (body blk s.1).1 ∧ (body' blk s).2 = (body blk s.1).2)
    (s : σ × List Access) (data : List β) :
    (whileBlocks rate body' s data).1.1 = (whileBlocks rate body s.1 data).1 ∧
      (whileBlocks rate body' s data).2 = (whileBlocks rate body s.1 data).2 := by
  have hbody : ∀ blk (t : σ × List Access) (s : σ), blk.length = rate → t.1 = s →
      (body' blk t).1.1 = (body blk s).1 ∧ (body' blk t).2 = (body blk s).2 := by
    rintro blk t _ - rfl
    exact h blk t
  obtain ⟨hstate, hout, hrest⟩ := whileBlocks_rel (fun (t : σ × List Access) s => t.1 = s)
    (fun x y => x = y) rfl (fun x x' y y' hx hy => by rw [hx, hy]) hbody (rfl : s.1 = s.1) data
  exact ⟨hstate, Prod.ext hout hrest⟩

section Logged

variable (rate : Nat) (permute : σ → σ) (part : Nat → List β → σ → σ × List γ)

theorem bulk_logged (s : σ × List Access) (data : List β) :
    let r := bulk rate (keepLog permute) (logged part) s data
    bulk rate permute part s.1 data = ((r.1.1.1, r.1.2), r.2) := by
  let body (blk : List β) (s : σ) : σ × List γ := (permute (part 0 blk s).1, (part 0 blk s).2)
  let body' (blk : List β) (s : σ × List Access) : (σ × List Access) × List γ :=
    (keepLog permute (logged part 0 blk s).1, (logged part 0 blk s).2)
  have hloop : (whileBlocks rate body' s data).1.1 = (whileBlocks rate body s.1 data).1 ∧
      (whileBlocks rate body' s data).2 = (whileBlocks rate body s.1 data).2 :=
    whileBlocks_logged (fun _ _ => ⟨rfl, rfl⟩) s data
  obtain ⟨hstate, hout⟩ := hloop
  simp only [body, body'] at hstate hout
  simp only [bulk, ← hstate, ← hout]
  rfl

theorem threePhase_logged (c : (σ × List Access) × Nat) (data : List β) :
    let r := threePhase rate (keepLog permute) (logged part) c data
    threePhase rate permute part (c.1.1, c.2) data = ((r.1.1.1, r.1.2), r.2) := by
  intro r
  have hr : r = threePhase rate (keepLog permute) (logged part) c data := rfl
  simp only [threePhase] at hr
  simp only [threePhase, hr]
  by_cases h0 : c.2 ≠ 0
  · rw [if_pos h0, if_pos h0]
    by_cases hlt : c.2 + min (rate - c.2) data.length < rate
    · rw [if_pos hlt, if_pos hlt]
      rfl
    · have hbulk := bulk_logged rate permute part
        (keepLog permute (logged part c.2 (data.take (min (rate - c.2) data.length)) c.1).1)
        (data.drop (min (rate - c.2) data.length))
      simp only [keepLog, logged] at hbulk
      rw [if_neg hlt, if_neg hlt]
      simp only [keepLog, logged]
      rw [hbulk]
  · rw [if_neg h0, if_neg h0]
    exact bulk_logged rate permute part c.1 data

end Logged

/-! ### The accesses -/

/-- All accesses noted so far are inside the block. -/
def AllInside (rate : Nat) (log : List Access) : Prop := ∀ x ∈ log, x.Inside rate

theorem allInside_nil (rate : Nat) : AllInside rate [] := by
  intro x hx
  cases hx

theorem AllInside.concat {rate : Nat} {log : List Access} (h : AllInside rate log) {x : Access}
    (hx : x.Inside rate) : AllInside rate (log ++ [x]) := by
  intro y hy
  rcases List.mem_append.mp hy with hy | hy
  · exact h y hy
  · obtain rfl := List.mem_singleton.mp hy
    exact hx

theorem AllInside.loggedByte {rate : Nat} (change : Nat → β → σ → σ) {i : Nat} (hi : i < rate)
    (b : β) {s : σ × List Access} (h : AllInside rate s.2) :
    AllInside rate (loggedByte change i b s).2 :=
  h.concat hi

section Inside

variable {rate : Nat} (hr : 0 < rate) (permute : σ → σ) (part : Nat → List β → σ → σ × List γ)
include hr

theorem bulk_inside {s : σ × List Access} (h : AllInside rate s.2) (data : List β) :
    AllInside rate (bulk rate (keepLog permute) (logged part) s data).1.1.2 ∧
      (bulk rate (keepLog permute) (logged part) s data).1.2 < rate := by
  let body (blk : List β) (s : σ × List Access) : (σ × List Access) × List γ :=
    (keepLog permute (logged part 0 blk s).1, (logged part 0 blk s).2)
  have hloop : AllInside rate (whileBlocks rate body s data).1.2 := by
    refine whileBlocks_invariant (fun s : σ × List Access => AllInside rate s.2) ?_ h data
    intro blk s hlen hs
    exact hs.concat (by simp only [Access.Inside]; omega)
  have hrest := length_whileBlocks_rest hr body s data
  refine ⟨hloop.concat ?_, hrest⟩
  show 0 + (whileBlocks rate body s data).2.2.length ≤ rate
  omega

/-- **Streaming code that starts below the rate stays inside the block**, and ends below the
rate. -/
theorem threePhase_inside {c : (σ × List Access) × Nat} (hc : c.2 < rate)
    (h : AllInside rate c.1.2) (data : List β) :
    AllInside rate (threePhase rate (keepLog permute) (logged part) c data).1.1.2 ∧
      (threePhase rate (keepLog permute) (logged part) c data).1.2 < rate := by
  simp only [threePhase]
  by_cases h0 : c.2 ≠ 0
  · have hfill : AllInside rate
        (logged part c.2 (data.take (min (rate - c.2) data.length)) c.1).1.2 := by
      refine h.concat ?_
      simp only [Access.Inside, List.length_take]
      omega
    rw [if_pos h0]
    by_cases hlt : c.2 + min (rate - c.2) data.length < rate
    · rw [if_pos hlt]
      exact ⟨hfill, hlt⟩
    · rw [if_neg hlt]
      exact bulk_inside hr permute part
        (s := keepLog permute (logged part c.2 (data.take (min (rate - c.2) data.length)) c.1).1)
        hfill (data.drop (min (rate - c.2) data.length))
  · rw [if_neg h0]
    exact bulk_inside hr permute part h data

end Inside

end Duplex
