import AsconDtls.Lib.Duplex
import Mathlib.Data.List.Forall2

/-!
# What streaming code lets an observer see

An observer of the time that code takes sees which branches it takes and which places it
touches.  `emit` and `emitPart` note such events beside the state; `whileBlocks` and
`threePhase` run over the noted state as they run over the state.

`threePhase_forall₂` relates two runs whose data are related symbol by symbol.  Related by
equality, it says that the notes change nothing (`threePhase_emit`).  Related by length alone, it
says that the notes depend on lengths alone (`threePhase_events`).
-/

namespace Duplex

variable {σ τ β β' γ γ' ε : Type*}

/-- `f`, with the event `e` noted. -/
def emit (f : σ → σ) (e : ε) (s : σ × List ε) : σ × List ε := (f s.1, s.2 ++ [e])

/-- `part`, with a note of its place and its length. -/
def emitPart (part : Nat → List β → σ → σ × List γ) (note : Nat → Nat → ε) (i : Nat)
    (bs : List β) (s : σ × List ε) : (σ × List ε) × List γ :=
  (((part i bs s.1).1, s.2 ++ [note i bs.length]), (part i bs s.1).2)

section Forall₂

variable (R : σ → τ → Prop) (S : β → β' → Prop) (T : γ → γ' → Prop)

/-- Related bodies make related loops. -/
theorem whileBlocks_forall₂ (rate : Nat) (body : List β → σ → σ × List γ)
    (body' : List β' → τ → τ × List γ')
    (h : ∀ blk blk' s t, List.Forall₂ S blk blk' → R s t →
      R (body blk s).1 (body' blk' t).1 ∧ List.Forall₂ T (body blk s).2 (body' blk' t).2)
    {s : σ} {t : τ} (hst : R s t) {data : List β} {data' : List β'}
    (hdata : List.Forall₂ S data data') :
    R (whileBlocks rate body s data).1 (whileBlocks rate body' t data').1 ∧
      List.Forall₂ T (whileBlocks rate body s data).2.1 (whileBlocks rate body' t data').2.1 ∧
      List.Forall₂ S (whileBlocks rate body s data).2.2 (whileBlocks rate body' t data').2.2 := by
  induction data using blocks_induction rate generalizing s t data' with
  | short data hb =>
    have hb' : ¬ (0 < rate ∧ rate ≤ data'.length) := by rwa [← hdata.length_eq]
    rw [whileBlocks, whileBlocks, dif_neg hb, dif_neg hb']
    exact ⟨hst, .nil, hdata⟩
  | block data hr hle hlen ih =>
    have hle' : rate ≤ data'.length := by rwa [← hdata.length_eq]
    obtain ⟨hR, hT⟩ := h _ _ s t (List.forall₂_take rate hdata) hst
    obtain ⟨hR', hT', hrest⟩ := ih hR (List.forall₂_drop rate hdata)
    rw [whileBlocks_of_le body s hr hle, whileBlocks_of_le body' t hr hle']
    exact ⟨hR', List.rel_append hT hT', hrest⟩

variable {R S T} (rate : Nat) {permute : σ → σ} {permute' : τ → τ}
  {part : Nat → List β → σ → σ × List γ} {part' : Nat → List β' → τ → τ × List γ'}
  (hperm : ∀ s t, R s t → R (permute s) (permute' t))
  (hpart : ∀ i bs bs' s t, List.Forall₂ S bs bs' → R s t →
    R (part i bs s).1 (part' i bs' t).1 ∧ List.Forall₂ T (part i bs s).2 (part' i bs' t).2)
include hperm hpart

theorem bulk_forall₂ {s : σ} {t : τ} (hst : R s t) {data : List β} {data' : List β'}
    (hdata : List.Forall₂ S data data') :
    R (bulk rate permute part s data).1.1 (bulk rate permute' part' t data').1.1 ∧
      (bulk rate permute part s data).1.2 = (bulk rate permute' part' t data').1.2 ∧
      List.Forall₂ T (bulk rate permute part s data).2 (bulk rate permute' part' t data').2 := by
  let body (blk : List β) (s : σ) : σ × List γ := (permute (part 0 blk s).1, (part 0 blk s).2)
  let body' (blk : List β') (t : τ) : τ × List γ' :=
    (permute' (part' 0 blk t).1, (part' 0 blk t).2)
  obtain ⟨hR, hT, hrest⟩ := whileBlocks_forall₂ R S T rate body body' (fun blk blk' s t hblk hst =>
      ⟨hperm _ _ (hpart 0 blk blk' s t hblk hst).1, (hpart 0 blk blk' s t hblk hst).2⟩) hst hdata
  obtain ⟨hR', hT'⟩ := hpart 0 _ _ _ _ hrest hR
  exact ⟨hR', hrest.length_eq, List.rel_append hT hT'⟩

/-- **Related parts make related phases.** -/
theorem threePhase_forall₂ {c : σ × Nat} {c' : τ × Nat} (hst : R c.1 c'.1) (hpos : c.2 = c'.2)
    {data : List β} {data' : List β'} (hdata : List.Forall₂ S data data') :
    R (threePhase rate permute part c data).1.1 (threePhase rate permute' part' c' data').1.1 ∧
      (threePhase rate permute part c data).1.2 =
        (threePhase rate permute' part' c' data').1.2 ∧
      List.Forall₂ T (threePhase rate permute part c data).2
        (threePhase rate permute' part' c' data').2 := by
  obtain ⟨s, i⟩ := c
  obtain ⟨t, i'⟩ := c'
  obtain rfl : i = i' := hpos
  have hlen := hdata.length_eq
  have hfill := hpart i _ _ s t (List.forall₂_take (min (rate - i) data.length) hdata) hst
  simp only [threePhase, ← hlen]
  by_cases h0 : i ≠ 0
  · rw [if_pos h0, if_pos h0]
    by_cases hlt : i + min (rate - i) data.length < rate
    · rw [if_pos hlt, if_pos hlt]
      exact ⟨hfill.1, rfl, hfill.2⟩
    · rw [if_neg hlt, if_neg hlt]
      obtain ⟨hR, hrest, hT⟩ := bulk_forall₂ rate hperm hpart (hperm _ _ hfill.1)
        (List.forall₂_drop (min (rate - i) data.length) hdata)
      exact ⟨hR, hrest, List.rel_append hfill.2 hT⟩
  · rw [if_neg h0, if_neg h0]
    exact bulk_forall₂ rate hperm hpart hst hdata

end Forall₂

/-! ### The notes -/

/-- Of equal length, and nothing else. -/
theorem forall₂_iff_length_eq {l : List β} {l' : List β'} :
    List.Forall₂ (fun _ _ => True) l l' ↔ l.length = l'.length := by
  refine ⟨List.Forall₂.length_eq, ?_⟩
  intro h
  induction l generalizing l' with
  | nil => rw [List.length_eq_zero_iff.1 h.symm]; exact .nil
  | cons x l ih =>
    cases l' with
    | nil => cases h
    | cons x' l' => exact .cons trivial (ih (Nat.succ.inj h))

section Notes

variable {rate : Nat} {permute : σ → σ} {part : Nat → List β → σ → σ × List γ} {e : ε}
  {note : Nat → Nat → ε}

/-- The notes change nothing. -/
theorem whileBlocks_emit {body : List β → σ → σ × List γ}
    {body' : List β → σ × List ε → (σ × List ε) × List γ}
    (h : ∀ blk s, (body' blk s).1.1 = (body blk s.1).1 ∧ (body' blk s).2 = (body blk s.1).2)
    (s : σ × List ε) (data : List β) :
    (whileBlocks rate body' s data).1.1 = (whileBlocks rate body s.1 data).1 ∧
      (whileBlocks rate body' s data).2 = (whileBlocks rate body s.1 data).2 := by
  have hrel := whileBlocks_forall₂ (fun (x : σ × List ε) (y : σ) => x.1 = y) Eq Eq rate
    body' body ?_ (rfl : s.1 = s.1) (show List.Forall₂ Eq data data by rw [List.forall₂_eq_eq_eq])
  · obtain ⟨hstate, hout, hrest⟩ := hrel
    rw [List.forall₂_eq_eq_eq] at hout hrest
    exact ⟨hstate, Prod.ext hout hrest⟩
  · rintro blk blk' x _ hblk rfl
    rw [List.forall₂_eq_eq_eq] at hblk ⊢
    subst hblk
    exact h blk x

/-- The notes of a loop depend on the length alone. -/
theorem whileBlocks_events {body : List β → σ × List ε → (σ × List ε) × List γ}
    (h : ∀ blk blk' s s', blk.length = blk'.length → s.2 = s'.2 →
      (body blk s).1.2 = (body blk' s').1.2 ∧ (body blk s).2.length = (body blk' s').2.length)
    {s s' : σ × List ε} (hlog : s.2 = s'.2) {data data' : List β}
    (hdata : data.length = data'.length) :
    (whileBlocks rate body s data).1.2 = (whileBlocks rate body s' data').1.2 ∧
      (whileBlocks rate body s data).2.2.length =
        (whileBlocks rate body s' data').2.2.length := by
  have hrel := whileBlocks_forall₂ (fun x y : σ × List ε => x.2 = y.2) (fun _ _ => True)
    (fun _ _ => True) rate body body ?_ hlog
    (forall₂_iff_length_eq.2 hdata)
  · exact ⟨hrel.1, forall₂_iff_length_eq.1 hrel.2.2⟩
  · intro blk blk' x y hblk hxy
    rw [forall₂_iff_length_eq] at hblk ⊢
    exact h blk blk' x y hblk hxy

variable (rate permute part e note) in
/-- The notes change nothing, in the phases either. -/
theorem threePhase_emit (c : (σ × List ε) × Nat) (data : List β) :
    let r := threePhase rate (emit permute e) (emitPart part note) c data
    threePhase rate permute part (c.1.1, c.2) data = ((r.1.1.1, r.1.2), r.2) := by
  intro r
  have hperm : ∀ (x : σ × List ε) (y : σ), x.1 = y → (emit permute e x).1 = permute y := by
    rintro x _ rfl
    rfl
  have hpart : ∀ i bs bs' (x : σ × List ε) (y : σ), List.Forall₂ Eq bs bs' → x.1 = y →
      (emitPart part note i bs x).1.1 = (part i bs' y).1 ∧
        List.Forall₂ Eq (emitPart part note i bs x).2 (part i bs' y).2 := by
    rintro i bs bs' x _ hbs rfl
    rw [List.forall₂_eq_eq_eq] at hbs ⊢
    subst hbs
    exact ⟨rfl, rfl⟩
  obtain ⟨hstate, hpos, hout⟩ := threePhase_forall₂ rate hperm hpart
    (show c.1.1 = (c.1.1, c.2).1 from rfl) rfl (show List.Forall₂ Eq data data by
      rw [List.forall₂_eq_eq_eq])
  rw [List.forall₂_eq_eq_eq] at hout
  exact Prod.ext (Prod.ext hstate.symm hpos.symm) hout.symm

variable (rate permute part e note) in
/-- **The notes depend on lengths alone.** -/
theorem threePhase_events
    (hlen : ∀ i bs bs' s s', bs.length = bs'.length →
      (part i bs s).2.length = (part i bs' s').2.length)
    {c c' : (σ × List ε) × Nat} (hlog : c.1.2 = c'.1.2) (hpos : c.2 = c'.2)
    {data data' : List β} (hdata : data.length = data'.length) :
    let r := threePhase rate (emit permute e) (emitPart part note) c data
    let r' := threePhase rate (emit permute e) (emitPart part note) c' data'
    r.1.1.2 = r'.1.1.2 ∧ r.1.2 = r'.1.2 ∧ r.2.length = r'.2.length := by
  intro r r'
  have hperm : ∀ x y : σ × List ε, x.2 = y.2 → (emit permute e x).2 = (emit permute e y).2 := by
    intro x y h
    simp only [emit, h]
  have hpart : ∀ i bs bs' (x y : σ × List ε), List.Forall₂ (fun _ _ => True) bs bs' →
      x.2 = y.2 → (emitPart part note i bs x).1.2 = (emitPart part note i bs' y).1.2 ∧
        List.Forall₂ (fun _ _ => True) (emitPart part note i bs x).2
          (emitPart part note i bs' y).2 := by
    intro i bs bs' x y hbs h
    rw [forall₂_iff_length_eq] at hbs ⊢
    refine ⟨?_, hlen i bs bs' x.1 y.1 hbs⟩
    simp only [emitPart, h, hbs]
  have hrel := threePhase_forall₂ rate hperm hpart hlog hpos (forall₂_iff_length_eq.2 hdata)
  rw [forall₂_iff_length_eq] at hrel
  exact hrel

end Notes

end Duplex
