import AsconDtls.Permutation.Bijective
import AsconDtls.Provider.Transcript

/-!
# Associated data in several calls

`absorbAad` stages a partial block in `adPart` and `aadFinalize` absorbs all 16
bytes of the buffer, also those behind `adPartSz`.  When the calls cut a block of
the data in two, the whole block goes through the buffer and its bytes stay there;
`staleBlock` is the last such block and `staleTail` what of it lies behind the
rest of the data.

* `foldl_absorbAad`: the context after any sequence of calls.
* `aad_chunking`: two ways of cutting the same data give the same state exactly
  when the data are whole blocks or the stale tails agree.
-/

namespace AsconDtls.Provider

open LittleEndian
open Duplex (whileBlocks)

/-! ### The blocks that calls cut -/

/-- Where the calls end, counted from `p`. -/
def boundaries (p : Nat) : List (List Byte) → List Nat
  | [] => []
  | ad :: chunks => (p + ad.length) :: boundaries (p + ad.length) chunks

/-- A boundary inside block `n`. -/
def cutsBlock (cuts : List Nat) (n : Nat) : Bool :=
  cuts.any fun p => decide (16 * n < p ∧ p < 16 * (n + 1))

/-- The last of the first `n` blocks of `data` that a boundary falls inside, or
zeros. -/
def cutBlock (cuts : List Nat) (data : List Byte) : Nat → List Byte
  | 0 => List.replicate 16 0
  | n + 1 => if cutsBlock cuts n then (data.drop (16 * n)).take 16 else cutBlock cuts data n

/-- The last whole block of the data that the calls cut. -/
def staleBlock (chunks : List (List Byte)) : List Byte :=
  cutBlock (boundaries 0 chunks) chunks.flatten (chunks.flatten.length / 16)

/-- Its bytes behind the rest of the data. -/
def staleTail (chunks : List (List Byte)) : List Byte :=
  (staleBlock chunks).drop (chunks.flatten.length % 16)

theorem boundaries_concat (p : Nat) (chunks : List (List Byte)) (ad : List Byte) :
    boundaries p (chunks ++ [ad]) =
      boundaries p chunks ++ [p + chunks.flatten.length + ad.length] := by
  induction chunks generalizing p with
  | nil => rfl
  | cons bs chunks ih =>
      rw [List.cons_append, boundaries, ih, boundaries, List.cons_append, List.flatten_cons,
        List.length_append, Nat.add_assoc p]

theorem boundaries_le {p q : Nat} {chunks : List (List Byte)} (h : q ∈ boundaries p chunks) :
    q ≤ p + chunks.flatten.length := by
  induction chunks generalizing p with
  | nil => cases h
  | cons bs chunks ih =>
      rw [List.flatten_cons, List.length_append]
      rcases List.mem_cons.mp h with rfl | h
      · omega
      · have hle := ih h
        omega

theorem last_mem_boundaries (p : Nat) {chunks : List (List Byte)} (h : chunks ≠ []) :
    p + chunks.flatten.length ∈ boundaries p chunks := by
  induction chunks generalizing p with
  | nil => exact absurd rfl h
  | cons bs chunks ih =>
      rw [boundaries, List.flatten_cons, List.length_append]
      by_cases hnil : chunks = []
      · subst hnil
        exact List.mem_cons_self
      · have hmem := ih (p + bs.length) hnil
        rw [Nat.add_assoc] at hmem
        exact List.mem_cons_of_mem _ hmem

theorem cutsBlock_iff {cuts : List Nat} {n : Nat} :
    cutsBlock cuts n = true ↔ ∃ p ∈ cuts, 16 * n < p ∧ p < 16 * (n + 1) := by
  simp only [cutsBlock, List.any_eq_true, decide_eq_true_eq]

theorem length_cutBlock (cuts : List Nat) {data : List Byte} {n : Nat}
    (h : 16 * n ≤ data.length) : (cutBlock cuts data n).length = 16 := by
  induction n with
  | zero => exact List.length_replicate
  | succ n ih =>
      rw [cutBlock]
      split
      · rw [List.length_take, List.length_drop]
        omega
      · exact ih (by omega)

/-- The blocks before a new boundary stay as they are. -/
theorem cutBlock_concat (cuts : List Nat) {p : Nat} {data : List Byte} (more : List Byte) {n : Nat}
    (hp : 16 * n ≤ p) (hn : 16 * n ≤ data.length) :
    cutBlock (cuts ++ [p]) (data ++ more) n = cutBlock cuts data n := by
  induction n with
  | zero => rfl
  | succ n ih =>
      have hcuts : cutsBlock (cuts ++ [p]) n = cutsBlock cuts n := by
        simp only [cutsBlock, List.any_append, List.any_cons, List.any_nil, Bool.or_false]
        rw [decide_eq_false (by omega), Bool.or_false]
      have hblock : ((data ++ more).drop (16 * n)).take 16 = (data.drop (16 * n)).take 16 := by
        rw [List.drop_append_of_le_length (by omega), List.take_append_of_le_length]
        rw [List.length_drop]
        omega
      rw [cutBlock, cutBlock, hcuts, hblock, ih (by omega) (by omega)]

/-- No boundary falls inside the blocks between the last two boundaries. -/
theorem cutBlock_between {cuts : List Nat} {q : Nat} (data : List Byte) {m n : Nat} (hm : q ≤ 16 * m) (hmn : m ≤ n)
    (hn : ∀ p ∈ cuts, p ≤ q ∨ 16 * n ≤ p) :
    cutBlock cuts data n = cutBlock cuts data m := by
  induction n with
  | zero =>
      have hm0 : m = 0 := by omega
      rw [hm0]
  | succ n ih =>
      by_cases hlast : m = n + 1
      · rw [hlast]
      · have hcut : cutsBlock cuts n = false := by
          rw [Bool.eq_false_iff, Ne, cutsBlock_iff]
          rintro ⟨p, hp, hlo, hhi⟩
          rcases hn p hp with h | h
          · omega
          · omega
        rw [cutBlock, hcut, if_neg Bool.false_ne_true]
        refine ih (by omega) ?_
        intro p hp
        rcases hn p hp with h | h
        · exact .inl h
        · exact .inr (by omega)

/-- **One more call.**  A block in progress that the call fills becomes the stale
block, any other call leaves the stale block as it is. -/
theorem staleBlock_concat (chunks : List (List Byte)) (ad : List Byte) :
    let rest := chunks.flatten.drop (16 * (chunks.flatten.length / 16))
    staleBlock (chunks ++ [ad]) =
      if rest ≠ [] ∧ 16 ≤ rest.length + ad.length then rest ++ ad.take (16 - rest.length)
      else staleBlock chunks := by
  intro rest
  obtain ⟨data, hdata⟩ : ∃ data, data = chunks.flatten := ⟨_, rfl⟩
  have hflat : (chunks ++ [ad]).flatten = data ++ ad := by
    rw [hdata, List.flatten_append, List.flatten_singleton]
  have hrest : rest = data.drop (16 * (data.length / 16)) := by rw [hdata]
  have hlen : rest.length = data.length % 16 := by
    rw [hrest, List.length_drop]
    omega
  have hcuts : boundaries 0 (chunks ++ [ad]) =
      boundaries 0 chunks ++ [data.length + ad.length] := by
    rw [boundaries_concat, Nat.zero_add, hdata]
  have hle : ∀ p ∈ boundaries 0 chunks, p ≤ data.length := by
    intro p hp
    have h := boundaries_le hp
    rwa [Nat.zero_add, ← hdata] at h
  have hblock : ((data ++ ad).drop (16 * (data.length / 16))).take 16 =
      rest ++ ad.take (16 - rest.length) := by
    rw [List.drop_append_of_le_length (by omega), ← hrest, List.take_append,
      List.take_of_length_le (by omega)]
  have hbefore : cutBlock (boundaries 0 chunks ++ [data.length + ad.length]) (data ++ ad)
      (data.length / 16) = cutBlock (boundaries 0 chunks) data (data.length / 16) :=
    cutBlock_concat _ ad (by omega) (by omega)
  have hnil : rest = [] ↔ data.length % 16 = 0 := by
    rw [← hlen, List.length_eq_zero_iff]
  rw [staleBlock, staleBlock, hflat, hcuts, ← hdata, List.length_append]
  by_cases hN : (data.length + ad.length) / 16 = data.length / 16
  · rw [hN, hbefore, if_neg]
    rintro ⟨-, hfull⟩
    omega
  · have hcut : cutsBlock (boundaries 0 chunks ++ [data.length + ad.length]) (data.length / 16) =
        true ↔ rest ≠ [] := by
      rw [cutsBlock_iff, Ne, hnil]
      refine ⟨?_, ?_⟩
      · rintro ⟨p, hp, hlo, hhi⟩
        rcases List.mem_append.mp hp with hp | hp
        · have h := hle p hp
          omega
        · have h := List.mem_singleton.mp hp
          omega
      · intro hmod
        have hne : chunks ≠ [] := by
          rintro rfl
          rw [hdata] at hmod
          exact hmod rfl
        have hmem := last_mem_boundaries 0 hne
        rw [Nat.zero_add, ← hdata] at hmem
        exact ⟨data.length, List.mem_append_left _ hmem, by omega, by omega⟩
    have hjump : cutBlock (boundaries 0 chunks ++ [data.length + ad.length]) (data ++ ad)
        ((data.length + ad.length) / 16) =
        cutBlock (boundaries 0 chunks ++ [data.length + ad.length]) (data ++ ad)
          (data.length / 16 + 1) := by
      refine cutBlock_between (q := data.length) _ (by omega) (by omega) ?_
      intro p hp
      rcases List.mem_append.mp hp with hp | hp
      · exact .inl (hle p hp)
      · have h := List.mem_singleton.mp hp
        exact .inr (by omega)
    rw [hjump, cutBlock, hblock, hbefore]
    by_cases h0 : rest ≠ []
    · rw [if_pos (hcut.mpr h0), if_pos ⟨h0, by omega⟩]
    · rw [if_neg (fun h => h0 (hcut.mp h)), if_neg (fun h => h0 h.1)]

/-! ### The context after any calls -/

section Staged

variable {σ : Type} (ops : StateOps σ) {a : AsconAead128Ctx σ}

/-- What `absorbAad` does behind the refill. -/
def absorbBlocks (a : AsconAead128Ctx σ) (ad : List Byte) : AsconAead128Ctx σ :=
  let w := aadBlocks ops a.s ad
  let a := { a with s := w.1 }
  if 0 < w.2.2.length then
    { a with adPart := memcpy a.adPart 0 w.2.2, adPartSz := u8 w.2.2.length }
  else a

theorem absorbAad_started (h : a.adStarted = true) (ad : List Byte) :
    absorbAad ops a ad =
      absorbBlocks ops (refill ops a ad (ad.length + 1)).1 (refill ops a ad (ad.length + 1)).2 := by
  simp only [absorbAad, h, Bool.not_true, Bool.false_eq_true, if_false]
  rfl

/-- The first call adds the key. -/
theorem absorbAad_open (h : a.adStarted = false) (ad : List Byte) :
    absorbAad ops a ad = absorbAad ops { keyed ops a with adStarted := true } ad := by
  simp only [absorbAad, h, Bool.not_false, if_true, Bool.not_true, Bool.false_eq_true, if_false]

theorem absorbBlocks_empty (h : a.adPartSz = 0) (ad : List Byte) :
    let w := aadBlocks ops a.s ad
    absorbBlocks ops a ad =
      { a with s := w.1, adPart := memcpy a.adPart 0 w.2.2, adPartSz := w.2.2.length } := by
  intro w
  have hlt : w.2.2.length < 16 := length_aadBlocks_rest ops a.s ad
  have hu8 : u8 w.2.2.length = w.2.2.length := Nat.mod_eq_of_lt (by omega)
  by_cases hpos : 0 < w.2.2.length
  · simp only [absorbBlocks]
    rw [if_pos hpos, hu8]
  · have hnil : w.2.2 = [] := List.eq_nil_of_length_eq_zero (by omega)
    simp only [absorbBlocks]
    rw [if_neg hpos, hnil, memcpy_nil, List.length_nil, ← h]

/-- Nothing to absorb leaves the buffer alone. -/
theorem absorbBlocks_nil (a : AsconAead128Ctx σ) : absorbBlocks ops a [] = a := by
  have hw : aadBlocks ops a.s [] = (a.s, [], []) := Duplex.whileBlocks_of_lt _ _ (by decide)
  simp only [absorbBlocks, hw]
  rfl

theorem refill_nil (a : AsconAead128Ctx σ) (fuel : Nat) : refill ops a [] fuel = (a, []) := by
  cases fuel with
  | zero => rfl
  | succ fuel => rw [refill, if_neg (by simp)]

/-- Data that end inside the block in progress. -/
theorem refill_short {ad : List Byte} (hpos : 0 < a.adPartSz) (had : ad ≠ [])
    (hshort : a.adPartSz + ad.length < 16) :
    refill ops a ad (ad.length + 1) =
      ({ a with
        adPart := memcpy a.adPart a.adPartSz ad
        adPartSz := a.adPartSz + ad.length }, []) := by
  have hn : min (ASCON_AEAD128_RATE - a.adPartSz) ad.length = ad.length := by
    simp only [ASCON_AEAD128_RATE]
    omega
  have hu8 : u8 (a.adPartSz + u8 ad.length) = a.adPartSz + ad.length := by
    simp only [u8]
    omega
  have hne : ¬ a.adPartSz + ad.length = ASCON_AEAD128_RATE := by
    simp only [ASCON_AEAD128_RATE]
    omega
  rw [refill, if_pos ⟨hpos, List.length_pos_iff.mpr had⟩]
  simp only [hn, hu8, if_neg hne, List.take_length, List.drop_length, refill_nil]

/-- Data that fill the block in progress: the buffer goes into the state. -/
theorem refill_full {ad blk : List Byte} (hpos : 0 < a.adPartSz) (hlt : a.adPartSz < 16)
    (hfull : 16 ≤ a.adPartSz + ad.length)
    (hblk : memcpy a.adPart a.adPartSz (ad.take (16 - a.adPartSz)) = loadLE 128 blk) :
    refill ops a ad (ad.length + 1) =
      ({ a with s := xorPermute ops a.s (wordOf blk), adPart := loadLE 128 blk, adPartSz := 0 },
        ad.drop (16 - a.adPartSz)) := by
  have hn : min (ASCON_AEAD128_RATE - a.adPartSz) ad.length = 16 - a.adPartSz := by
    simp only [ASCON_AEAD128_RATE]
    omega
  have hu8 : u8 (a.adPartSz + u8 (16 - a.adPartSz)) = ASCON_AEAD128_RATE := by
    simp only [u8, ASCON_AEAD128_RATE]
    omega
  have hwords : xorPermute ops a.s (fun i => readAt (loadLE 128 blk) (8 * i) 64) =
      xorPermute ops a.s (wordOf blk) := by
    simp only [xorPermute, wordOf_eq_readAt (show 0 < 2 by omega),
      wordOf_eq_readAt (show 1 < 2 by omega)]
  rw [refill, if_pos ⟨hpos, by omega⟩]
  simp only [hn, hu8, hblk, if_true]
  rw [refill_empty ops rfl, ← hwords]
  rfl

/-- **One call on a staged context.** -/
theorem absorbAad_staged {rest old : List Byte} (hstarted : a.adStarted = true)
    (hrest : rest.length < 16) (hpart : a.adPart = memcpy (loadLE 128 old) 0 rest)
    (hsz : a.adPartSz = rest.length) (ad : List Byte) :
    let v := aadBlocks ops a.s (rest ++ ad)
    let old' :=
      if rest ≠ [] ∧ 16 ≤ rest.length + ad.length then rest ++ ad.take (16 - rest.length) else old
    absorbAad ops a ad =
      { a with s := v.1, adPart := memcpy (loadLE 128 old') 0 v.2.2, adPartSz := v.2.2.length } := by
  intro v old'
  have hcopy : ∀ bs, memcpy a.adPart rest.length bs = memcpy (loadLE 128 old) 0 (rest ++ bs) := by
    intro bs
    rw [hpart, memcpy_append, Nat.zero_add]
  rw [absorbAad_started ops hstarted]
  by_cases h0 : rest = []
  · -- the buffer is empty
    subst h0
    have hold : old' = old := if_neg (by simp)
    rw [hold, refill_empty ops hsz, absorbBlocks_empty ops hsz, hpart]
    rfl
  · have hpos : 0 < rest.length := List.length_pos_iff.mpr h0
    by_cases hfull : 16 ≤ rest.length + ad.length
    · -- the block in progress is filled and goes into the state
      obtain ⟨n, hn⟩ : ∃ n, n = 16 - rest.length := ⟨_, rfl⟩
      have hlen : (rest ++ ad.take n).length = 16 := by
        rw [List.length_append, List.length_take]
        omega
      have hold : old' = rest ++ ad.take n := by
        rw [hn]
        exact if_pos ⟨h0, hfull⟩
      have hblk : memcpy a.adPart a.adPartSz (ad.take (16 - a.adPartSz)) =
          loadLE 128 (rest ++ ad.take n) := by
        rw [hsz, ← hn, hcopy]
        exact memcpy_zero_eq_loadLE _ (by decide) _ (by omega)
      have hv : v.1 = (aadBlocks ops (xorPermute ops a.s (wordOf (rest ++ ad.take n)))
            (ad.drop n)).1 ∧
          v.2.2 = (aadBlocks ops (xorPermute ops a.s (wordOf (rest ++ ad.take n)))
            (ad.drop n)).2.2 := by
        have htake : (rest ++ ad).take 16 = rest ++ ad.take n := by
          rw [List.take_append, List.take_of_length_le (by omega), hn]
        have hdrop : (rest ++ ad).drop 16 = ad.drop n := by
          rw [List.drop_append, List.drop_of_length_le (by omega), hn, List.nil_append]
        have hle : ASCON_AEAD128_RATE ≤ (rest ++ ad).length := by
          rw [List.length_append]
          exact hfull
        simp only [v]
        rw [aadBlocks, Duplex.whileBlocks_of_le _ _ (by decide) hle, ← htake, ← hdrop]
        exact ⟨rfl, rfl⟩
      rw [refill_full ops (by omega) (by omega) (by omega) hblk, absorbBlocks_empty ops rfl, hold,
        hv.1, hv.2, hsz, ← hn]
    · by_cases had : ad = []
      · -- nothing new
        subst had
        have hold : old' = old := if_neg (fun h => hfull h.2)
        have hv : v = (a.s, [], rest) := by
          simp only [v, List.append_nil]
          exact Duplex.whileBlocks_of_lt _ _ hrest
        rw [hold, refill_nil, absorbBlocks_nil, hv, ← hpart, ← hsz]
      · -- the data end inside the block in progress
        have hold : old' = old := if_neg (fun h => hfull h.2)
        have hv : v = (a.s, [], rest ++ ad) := by
          refine Duplex.whileBlocks_of_lt _ _ ?_
          rw [List.length_append]
          exact Nat.lt_of_not_le hfull
        rw [refill_short ops (by omega) had (by omega), absorbBlocks_nil, hold, hv, hsz, hcopy,
          List.length_append]

/-- The context after calls with the chunks. -/
def stagedCtx (a : AsconAead128Ctx σ) (chunks : List (List Byte)) : AsconAead128Ctx σ :=
  let w := aadBlocks ops (keyed ops a).s chunks.flatten
  { a with
    s := w.1
    adPart := memcpy (loadLE 128 (staleBlock chunks)) 0 w.2.2
    adPartSz := w.2.2.length
    adStarted := true }

theorem aadBlocks_rest (s : σ) (ad : List Byte) :
    (aadBlocks ops s ad).2.2 = ad.drop (16 * (ad.length / 16)) :=
  Duplex.whileBlocks_rest_eq (by decide) _ s ad

theorem stagedCtx_concat (a : AsconAead128Ctx σ) (chunks : List (List Byte)) (ad : List Byte) :
    absorbAad ops (stagedCtx ops a chunks) ad = stagedCtx ops a (chunks ++ [ad]) := by
  obtain ⟨w, hw⟩ : ∃ w, w = aadBlocks ops (keyed ops a).s chunks.flatten := ⟨_, rfl⟩
  have hrest : w.2.2 = chunks.flatten.drop (16 * (chunks.flatten.length / 16)) := by
    rw [hw, aadBlocks_rest]
  have hlt : w.2.2.length < 16 := by
    rw [hw]
    exact length_aadBlocks_rest ops _ _
  have happ : (aadBlocks ops w.1 (w.2.2 ++ ad)).1 =
        (aadBlocks ops (keyed ops a).s (chunks ++ [ad]).flatten).1 ∧
      (aadBlocks ops w.1 (w.2.2 ++ ad)).2.2 =
        (aadBlocks ops (keyed ops a).s (chunks ++ [ad]).flatten).2.2 := by
    have hflat : (chunks ++ [ad]).flatten = chunks.flatten ++ ad := by
      rw [List.flatten_append, List.flatten_singleton]
    have hwhole : aadBlocks ops (keyed ops a).s (chunks.flatten ++ ad) = _ :=
      Duplex.whileBlocks_append (by decide) _ (keyed ops a).s chunks.flatten ad
    rw [hflat, hwhole, hw]
    exact ⟨rfl, rfl⟩
  have hstale := staleBlock_concat chunks ad
  simp only [← hrest] at hstale
  have hctx : stagedCtx ops a chunks =
      { a with
        s := w.1
        adPart := memcpy (loadLE 128 (staleBlock chunks)) 0 w.2.2
        adPartSz := w.2.2.length
        adStarted := true } := by
    rw [stagedCtx, ← hw]
  rw [hctx, absorbAad_staged ops rfl hlt rfl rfl]
  simp only [← hstale, happ.1, happ.2]
  rfl

/-- Before the first call. -/
theorem stagedCtx_nil (h : Cleared a) :
    stagedCtx ops a [] = { keyed ops a with adStarted := true } := by
  have hw : aadBlocks ops (keyed ops a).s [] = ((keyed ops a).s, [], []) :=
    Duplex.whileBlocks_of_lt _ _ (by decide)
  have hzero : loadLE 128 (staleBlock []) = a.adPart := by
    rw [h.adPart]
    decide
  have hsz : a.adPartSz = 0 := h.adPartSz
  simp only [stagedCtx, List.flatten_nil, hw, memcpy_nil, hzero, List.length_nil, ← hsz]
  rfl

/-- **Any calls with associated data.** -/
theorem foldl_absorbAad (h : Cleared a) {chunks : List (List Byte)} (hne : chunks ≠ []) :
    chunks.foldl (absorbAad ops) a = stagedCtx ops a chunks := by
  induction chunks using List.reverseRecOn with
  | nil => exact absurd rfl hne
  | append_singleton chunks ad ih =>
      rw [List.foldl_append, List.foldl_cons, List.foldl_nil, ← stagedCtx_concat]
      by_cases hnil : chunks = []
      · subst hnil
        rw [List.foldl_nil, absorbAad_open ops h.adStarted, stagedCtx_nil ops h]
      · rw [ih hnil]

/-- The state at the end of the associated data `ad`, with `old` left in the buffer. -/
def closedState (s : σ) (ad old : List Byte) : σ :=
  let w := aadBlocks ops s ad
  let s :=
    if 0 < w.2.2.length then
      xorPermute ops w.1 fun i => readAt (padded (loadLE 128 old) w.2.2) (8 * i) 64
    else w.1
  ops.xorWord s 4 (1#64 <<< 63)

/-- **The state after any calls and `aadFinalize`.** -/
theorem aadFinalize_foldl (h : Cleared a) (chunks : List (List Byte)) :
    (aadFinalize ops (chunks.foldl (absorbAad ops) a)).s =
      closedState ops (keyed ops a).s chunks.flatten (staleBlock chunks) := by
  by_cases hne : chunks = []
  · subst hne
    have hw : aadBlocks ops (keyed ops a).s [] = ((keyed ops a).s, [], []) :=
      Duplex.whileBlocks_of_lt _ _ (by decide)
    rw [List.foldl_nil, aadFinalize_fresh ops h.adStarted h.adPartSz h.adDone]
    simp only [aadOnce, closedState, List.flatten_nil, hw, List.length_nil, Nat.lt_irrefl,
      if_false]
  · have hdone : (stagedCtx ops a chunks).adDone = false := h.adDone
    rw [foldl_absorbAad ops h hne, aadFinalize_open ops hdone, keyedUnlessStarted_started ops rfl]
    simp only [closedState]
    congr 1
    by_cases hpart : 0 < (aadBlocks ops (keyed ops a).s chunks.flatten).2.2.length
    · rw [if_pos hpart, padAad, if_pos (by exact hpart)]
      rfl
    · rw [if_neg hpart, padAad_empty ops (Nat.eq_zero_of_not_pos hpart)]
      rfl

end Staged

/-! ### When the cuts do not matter -/

/-- A buffer with the rest copied over it. -/
theorem memcpy_loadLE (rest old : List Byte) :
    memcpy (loadLE 128 old) 0 rest = loadLE 128 (rest ++ old.drop rest.length) := by
  apply ext_byteAt
  intro i hi
  rw [byteAt_memcpy _ _ _ (by omega), byteAt_loadLE _ (by omega), byteAt_loadLE _ (by omega),
    Nat.sub_zero, Nat.zero_add]
  by_cases hlt : i < rest.length
  · rw [if_pos ⟨Nat.zero_le i, hlt⟩, List.getElem?_append_left hlt]
  · rw [if_neg (by omega), List.getElem?_append_right (by omega), List.getElem?_drop,
      show rest.length + (i - rest.length) = i by omega]

/-- The bytes behind the rest are the only trace of what is left in the buffer. -/
theorem padded_eq_iff {rest old old' : List Byte} (hrest : rest.length < 16)
    (hold : old.length = 16) (hold' : old'.length = 16) :
    padded (loadLE 128 old) rest = padded (loadLE 128 old') rest ↔
      old.drop rest.length = old'.drop rest.length := by
  have hlen : ∀ {old : List Byte}, old.length = 16 →
      (rest ++ old.drop rest.length).length = 16 := by
    intro old h
    rw [List.length_append, List.length_drop]
    omega
  rw [padded, padded, memcpy_loadLE, memcpy_loadLE]
  refine ⟨?_, ?_⟩
  · intro h
    have hload := (BitVec.xor_left_inj _).mp h
    exact List.append_cancel_left
      (loadLE_injective (by rw [hlen hold]) (by rw [hlen hold']) hload)
  · intro h
    rw [h]

theorem xorBlock_injective (s : AsconState) : Function.Injective (s.xorBlock 0) := by
  intro v v' h
  apply ext_byteAt
  intro i hi
  have hbyte := congrArg (AsconState.s8 · i) h
  simp only [s8_xorBlock s _ (show i < 40 by omega)] at hbyte
  exact (BitVec.xor_right_inj _).mp hbyte

theorem xorS64_injective {i : Nat} (v : BitVec 64) :
    Function.Injective (AsconState.xorS64 · i v) := by
  intro s s' h
  exact AsconState.ext_mem ((BitVec.xor_left_inj _).mp (congrArg AsconState.mem h))

/-- **Two closed states.** -/
theorem closedState_eq_iff (s : AsconState) {ad old old' : List Byte} (hold : old.length = 16)
    (hold' : old'.length = 16) :
    closedState .ascon s ad old = closedState .ascon s ad old' ↔
      ad.length % 16 = 0 ∨ old.drop (ad.length % 16) = old'.drop (ad.length % 16) := by
  obtain ⟨w, hw⟩ : ∃ w, w = aadBlocks .ascon s ad := ⟨_, rfl⟩
  have hrest : w.2.2.length = ad.length % 16 := by
    rw [hw]
    exact Duplex.length_whileBlocks_rest_eq (by decide) _ s ad
  simp only [closedState, ← hw, ← hrest]
  by_cases hpart : 0 < w.2.2.length
  · have hshort : w.2.2.length < 16 := by omega
    rw [if_pos hpart, if_pos hpart, xorPermute_block, xorPermute_block,
      ← padded_eq_iff hshort hold hold']
    refine ⟨?_, ?_⟩
    · intro h
      exact .inr (xorBlock_injective _ (asconP_injective .r8 (xorS64_injective _ h)))
    · rintro (h | h)
      · omega
      · rw [h]
  · rw [if_neg hpart, if_neg hpart]
    exact ⟨fun _ => .inl (by omega), fun _ => rfl⟩

theorem length_staleBlock (chunks : List (List Byte)) : (staleBlock chunks).length = 16 :=
  length_cutBlock _ (by omega)

/-- A context just reset has taken nothing. -/
theorem reset_cleared (a : Ctx) (key nonce : List Byte) : Cleared (reset a key nonce) :=
  ⟨rfl, rfl, rfl, rfl⟩

/-- The state after a reset, the calls and `aadFinalize`. -/
def aadState (a : Ctx) (key nonce : Vector Byte 16) (chunks : List (List Byte)) : AsconState :=
  (aadFinalize .ascon
    (chunks.foldl (absorbAad .ascon) (reset a key.toList nonce.toList))).s

/-- **When the cuts of the associated data do not matter.**  Two ways of calling
`absorbAad` with the same data give the same state exactly when the data are whole
blocks or the stale bytes behind the data agree. -/
theorem aad_chunking (a : Ctx) (key nonce : Vector Byte 16) (chunks chunks' : List (List Byte))
    (hflat : chunks.flatten = chunks'.flatten) :
    aadState a key nonce chunks = aadState a key nonce chunks' ↔
      chunks.flatten.length % 16 = 0 ∨ staleTail chunks = staleTail chunks' := by
  have hclear := reset_cleared a key.toList nonce.toList
  rw [aadState, aadState, aadFinalize_foldl .ascon hclear, aadFinalize_foldl .ascon hclear, ← hflat,
    closedState_eq_iff _ (length_staleBlock chunks) (length_staleBlock chunks'), staleTail,
    staleTail, ← hflat]

/-- Eight zero bytes and fourteen ones, cut at eight or not at all. -/
theorem aad_chunking_example :
    let data : List Byte := List.replicate 8 0 ++ List.replicate 14 1
    aadState .zero (Vector.replicate 16 0) (Vector.replicate 16 0)
        [data.take 8, data.drop 8] ≠
      aadState .zero (Vector.replicate 16 0) (Vector.replicate 16 0) [data] := by
  intro data h
  have hiff := (aad_chunking .zero (Vector.replicate 16 0) (Vector.replicate 16 0)
    [data.take 8, data.drop 8] [data] (by decide)).mp h
  exact absurd hiff (by decide)

/-- **The cuts do matter**: `adPart` keeps the second half of the cut block. -/
theorem aad_chunking_fails :
    ¬ ∀ (a : Ctx) (key nonce : Vector Byte 16) (chunks chunks' : List (List Byte)),
      chunks.flatten = chunks'.flatten →
        aadState a key nonce chunks = aadState a key nonce chunks' := by
  intro h
  have hstate := h .zero (Vector.replicate 16 0) (Vector.replicate 16 0)
    [List.replicate 8 0, List.replicate 14 1] [List.replicate 8 0 ++ List.replicate 14 1]
    (by decide)
  revert hstate
  decide +kernel

end AsconDtls.Provider
