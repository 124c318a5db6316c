import AsconDtls.Lib.RandomPerm

/-!
# A keyed function from a public permutation

A uniform permutation `π` that everybody may ask, forwards and backwards, and a
secret key: the function answers a part of `π (pack k x)`, the other part stays
hidden.  `gReal` is this world; in `gIdeal` the function is a random one that has
nothing to do with `π`.

`distance` is what a program can still gain: the key and the hidden parts are
drawn afterwards, and count as long as nothing asked so far depends on them
(`Good`).  One query loses at most `loss` (`distance_query_le`), so `q` queries
lose the sum (`gReal_sub_gIdeal_le`).
-/

namespace KeyedPerm

open FinDist OracleGame RandomPerm

/-- The function on `α`, or the permutation of `σ` in one of its directions. -/
inductive Query (α σ : Type)
  | mask (x : α)
  | forward (s : σ)
  | backward (s : σ)

inductive Answer (β σ : Type)
  | block (b : β)
  | state (s : σ)

section Worlds

variable {κ α β η σ : Type} (pack : κ → α → σ) (split : σ ≃ β × η)

/-- The function through the permutation, under the key `k`. -/
def real (k : κ) (π : Equiv.Perm σ) : Oracle (Query α σ) (Answer β σ) Unit
  | .mask x, m => pure (.block (split (π (pack k x))).1, m)
  | .forward s, m => pure (.state (π s), m)
  | .backward s, m => pure (.state (π⁻¹ s), m)

/-- A random function beside the permutation. -/
def ideal [DecidableEq α] [FinEnum β] [Inhabited β] (π : Equiv.Perm σ) :
    Oracle (Query α σ) (Answer β σ) (List (α × β))
  | .mask x, f => do
    let (b, f) ← lazyFun α β x f
    pure (.block b, f)
  | .forward s, f => pure (.state (π s), f)
  | .backward s, f => pure (.state (π⁻¹ s), f)

variable [FinEnum κ] [Inhabited κ] [DecidableEq α] [FinEnum β] [Inhabited β] [FinEnum σ]

noncomputable def gReal (A : Adv (Query α σ) (Answer β σ)) : FinDist Bool := do
  let k ← rnd κ
  let π ← extending []
  A.run (real pack split k π) ()

noncomputable def gIdeal (A : Adv (Query α σ) (Answer β σ)) : FinDist Bool := do
  let π ← extending []
  A.run (ideal π) []

end Worlds

/-! ### Values after a table -/

section Values

variable {κ α β η σ : Type} (pack : κ → α → σ) (split : σ ≃ β × η) [FinEnum σ]

/-- The real world, once `π` has the entries of `T`. -/
noncomputable def valueReal (A : Adv (Query α σ) (Answer β σ)) (k : κ) (T : Table σ) : ℚ :=
  (extending T).E fun π => (A.run (real pack split k π) ()).prob true

/-- The ideal world, once the function has the entries of `f` and `π` those of `t`. -/
noncomputable def valueIdeal [DecidableEq α] [FinEnum β] [Inhabited β]
    (A : Adv (Query α σ) (Answer β σ)) (f : List (α × β)) (t : Table σ) : ℚ :=
  (extending t).E fun π => (A.run (ideal π) f).prob true

variable {A : Adv (Query α σ) (Answer β σ)} {k : κ} {T : Table σ}

theorem valueReal_mem (A : Adv (Query α σ) (Answer β σ)) (k : κ) (T : Table σ) :
    0 ≤ valueReal pack split A k T ∧ valueReal pack split A k T ≤ 1 :=
  ⟨E_nonneg fun _ _ => prob_nonneg _ _, E_le_one fun _ _ => prob_le_one _ _⟩

theorem valueReal_congr {T' : Table σ} (h : ∀ p, p ∈ T ↔ p ∈ T') :
    valueReal pack split A k T = valueReal pack split A k T' := by
  rw [valueReal, valueReal, extending, extending, extensions_congr h]

theorem valueReal_ret (b : Bool) :
    valueReal pack split (.ret b) k T = if b = true then 1 else 0 := by
  simp only [valueReal, Adv.prob_run_ret, E_const]

theorem valueReal_sample (d : FinDist Nat) (next : Nat → Adv (Query α σ) (Answer β σ)) :
    valueReal pack split (.sample d next) k T =
      d.E fun n => valueReal pack split (next n) k T := by
  simp only [valueReal, Adv.prob_run_sample]
  exact E_comm _ _ _

variable (next : Answer β σ → Adv (Query α σ) (Answer β σ))

theorem valueReal_mask (x : α) : valueReal pack split (.query (.mask x) next) k T =
    (extending T).E fun π =>
      ((next (.block (split (π (pack k x))).1)).run (real pack split k π) ()).prob true := by
  simp only [valueReal, Adv.prob_run_query, real, E_pure]

theorem valueReal_forward (s : σ) : valueReal pack split (.query (.forward s) next) k T =
    (extending T).E fun π => ((next (.state (π s))).run (real pack split k π) ()).prob true := by
  simp only [valueReal, Adv.prob_run_query, real, E_pure]

theorem valueReal_backward (s : σ) : valueReal pack split (.query (.backward s) next) k T =
    (extending T).E fun π =>
      ((next (.state (π⁻¹ s))).run (real pack split k π) ()).prob true := by
  simp only [valueReal, Adv.prob_run_query, real, E_pure]

variable [DecidableEq α] [FinEnum β] [Inhabited β] {f : List (α × β)} {t : Table σ}

omit κ η pack split in
theorem valueIdeal_mem (A : Adv (Query α σ) (Answer β σ)) (f : List (α × β)) (t : Table σ) :
    0 ≤ valueIdeal A f t ∧ valueIdeal A f t ≤ 1 :=
  ⟨E_nonneg fun _ _ => prob_nonneg _ _, E_le_one fun _ _ => prob_le_one _ _⟩

theorem valueIdeal_ret (b : Bool) :
    valueIdeal (.ret b : Adv (Query α σ) (Answer β σ)) f t = if b = true then 1 else 0 := by
  simp only [valueIdeal, Adv.prob_run_ret, E_const]

theorem valueIdeal_sample (d : FinDist Nat) (next : Nat → Adv (Query α σ) (Answer β σ)) :
    valueIdeal (.sample d next) f t = d.E fun n => valueIdeal (next n) f t := by
  simp only [valueIdeal, Adv.prob_run_sample]
  exact E_comm _ _ _

theorem valueIdeal_mask_known {x : α} {b : β} (hx : f.lookup x = some b) :
    valueIdeal (.query (.mask x) next) f t = valueIdeal (next (.block b)) f t := by
  simp only [valueIdeal, Adv.prob_run_query, ideal, E_bind, E_pure, lazyFun,
    lazyOracle_hit _ hx]

theorem valueIdeal_mask_fresh {x : α} (hx : f.lookup x = none) :
    valueIdeal (.query (.mask x) next) f t =
      (rnd β).E fun b => valueIdeal (next (.block b)) ((x, b) :: f) t := by
  simp only [valueIdeal, Adv.prob_run_query, ideal, E_bind, E_pure, lazyFun,
    lazyOracle_fresh _ hx]
  exact E_comm _ _ _

theorem valueIdeal_forward (s : σ) : valueIdeal (.query (.forward s) next) f t =
    (extending t).E fun π => ((next (.state (π s))).run (ideal π) f).prob true := by
  simp only [valueIdeal, Adv.prob_run_query, ideal, E_pure]

theorem valueIdeal_backward (s : σ) : valueIdeal (.query (.backward s) next) f t =
    (extending t).E fun π => ((next (.state (π⁻¹ s))).run (ideal π) f).prob true := by
  simp only [valueIdeal, Adv.prob_run_query, ideal, E_pure]

end Values

/-! ### The tables behind what has been asked -/

section Tables

variable {κ α β η σ : Type} (pack : κ → α → σ) (split : σ ≃ β × η)

/-- The entries that the function has given to `π`, with the hidden parts `h`. -/
def masks (k : κ) (f : List (α × β)) (h : α → η) : Table σ :=
  f.map fun p => (pack k p.1, split.symm (p.2, h p.1))

/-- All entries of `π` in the real world. -/
def joint (k : κ) (f : List (α × β)) (h : α → η) (t : Table σ) : Table σ :=
  masks pack split k f h ++ t

/-- Nothing asked so far depends on the key and the hidden parts. -/
def Good [FinEnum σ] (k : κ) (f : List (α × β)) (h : α → η) (t : Table σ) : Prop :=
  (extensions (joint pack split k f h t)).Nonempty ∧ ∀ p ∈ t, ∀ x, p.1 ≠ pack k x

variable {pack split} {k : κ} {f : List (α × β)} {h : α → η} {t : Table σ} {x : α} {b : β} {s : σ}

theorem length_joint : (joint pack split k f h t).length = f.length + t.length := by
  rw [joint, masks, List.length_append, List.length_map]

theorem mem_joint_of_mask (hx : (x, b) ∈ f) :
    (pack k x, split.symm (b, h x)) ∈ joint pack split k f h t :=
  List.mem_append_left _ (List.mem_map.2 ⟨(x, b), hx, rfl⟩)

theorem mem_joint_of_table {p : σ × σ} (hp : p ∈ t) : p ∈ joint pack split k f h t :=
  List.mem_append_right _ hp

/-- A point of `π` is one of the table, or the key is part of it. -/
theorem point_mem_joint (hs : s ∈ (joint pack split k f h t).map Prod.fst) :
    (∃ x, s = pack k x) ∨ s ∈ t.map Prod.fst := by
  rw [joint, List.map_append, List.mem_append] at hs
  rcases hs with hs | hs
  · obtain ⟨p, hp, rfl⟩ := List.mem_map.1 hs
    obtain ⟨q, -, rfl⟩ := List.mem_map.1 hp
    exact .inl ⟨q.1, rfl⟩
  · exact .inr hs

/-- A value of `π` is one of the table, or it has the hidden part of an answer. -/
theorem value_mem_joint (hs : s ∈ (joint pack split k f h t).map Prod.snd) :
    (∃ p ∈ f, h p.1 = (split s).2) ∨ s ∈ t.map Prod.snd := by
  rw [joint, List.map_append, List.mem_append] at hs
  rcases hs with hs | hs
  · obtain ⟨p, hp, rfl⟩ := List.mem_map.1 hs
    obtain ⟨q, hq, rfl⟩ := List.mem_map.1 hp
    exact .inl ⟨q, hq, by rw [Equiv.apply_symm_apply]⟩
  · exact .inr hs

/-- A new answer of the function is a new entry of `π`. -/
theorem joint_cons [DecidableEq α] (hx : x ∉ f.map Prod.fst) (s : σ) :
    joint pack split k ((x, (split s).1) :: f) (Function.update h x (split s).2) t =
      (pack k x, s) :: joint pack split k f h t := by
  have hrest : masks pack split k f (Function.update h x (split s).2) =
      masks pack split k f h := by
    apply List.map_congr_left
    intro p hp
    have hne : p.1 ≠ x := fun heq => hx (List.mem_map.2 ⟨p, hp, heq⟩)
    rw [Function.update_of_ne hne]
  have hnew : split.symm ((split s).1, (split s).2) = s := split.symm_apply_apply s
  rw [joint, joint, ← hrest, masks, List.map_cons, Function.update_self, hnew]
  rfl

/-- A new entry of the table is a new entry of `π`. -/
theorem mem_joint_table_cons (p q : σ × σ) :
    p ∈ joint pack split k f h (q :: t) ↔ p ∈ q :: joint pack split k f h t := by
  simp only [joint, List.mem_append, List.mem_cons]
  tauto

/-- A new point of the function is a new point of `π`. -/
theorem pack_notMem_joint [FinEnum σ]
    (pack_inj : ∀ k k' x x', pack k x = pack k' x' → k = k' ∧ x = x')
    (hG : Good pack split k f h t) (hx : x ∉ f.map Prod.fst) :
    pack k x ∉ (joint pack split k f h t).map Prod.fst := by
  intro hmem
  rw [joint, List.map_append, List.mem_append] at hmem
  rcases hmem with hmem | hmem
  · obtain ⟨p, hp, hpx⟩ := List.mem_map.1 hmem
    obtain ⟨q, hq, rfl⟩ := List.mem_map.1 hp
    exact hx (List.mem_map.2 ⟨q, hq, (pack_inj _ _ _ _ hpx).2⟩)
  · obtain ⟨p, hp, hpx⟩ := List.mem_map.1 hmem
    exact hG.2 p hp x hpx

/-- All but `j` of the values are free. -/
theorem card_sub_freeValues_joint_le [FinEnum σ] {j : Nat} (hj : f.length + t.length ≤ j) :
    (Fintype.card σ : ℚ) - (freeValues (joint pack split k f h t)).card ≤ j := by
  refine (card_sub_freeValues_le _).trans ?_
  rw [length_joint]
  exact_mod_cast hj

theorem card_sub_freePoints_joint_le [FinEnum σ] {j : Nat} (hj : f.length + t.length ≤ j) :
    (Fintype.card σ : ℚ) - (freePoints (joint pack split k f h t)).card ≤ j := by
  rw [← freeValues_inverse]
  refine (card_sub_freeValues_le _).trans ?_
  rw [inverse, List.length_map, length_joint]
  exact_mod_cast hj

/-- The table alone has an extension too. -/
theorem Good.table [FinEnum σ] (hG : Good pack split k f h t) : (extensions t).Nonempty :=
  hG.1.mono (extensions_subset fun _ hp => mem_joint_of_table hp)

end Tables

/-! ### What a program can still gain -/

section Distance

variable {κ α β η σ : Type} (pack : κ → α → σ) (split : σ ≃ β × η)
  [DecidableEq α] [FinEnum β] [Inhabited β] [FinEnum σ]

open Classical in
/-- The difference of the two worlds, as long as key and hidden parts are out of sight. -/
noncomputable def gap (A : Adv (Query α σ) (Answer β σ)) (f : List (α × β)) (t : Table σ) (k : κ)
    (h : α → η) : ℚ :=
  if Good pack split k f h t then
    |valueReal pack split A k (joint pack split k f h t) - valueIdeal A f t|
  else 0

variable {pack split} {A : Adv (Query α σ) (Answer β σ)} {f : List (α × β)} {t : Table σ} {k : κ}
  {h : α → η}

theorem gap_of_good (hG : Good pack split k f h t) : gap pack split A f t k h =
    |valueReal pack split A k (joint pack split k f h t) - valueIdeal A f t| := if_pos hG

theorem gap_of_not_good (hG : ¬Good pack split k f h t) : gap pack split A f t k h = 0 := if_neg hG

theorem gap_nonneg : 0 ≤ gap pack split A f t k h := by
  by_cases hG : Good pack split k f h t
  · rw [gap_of_good hG]
    exact abs_nonneg _
  · rw [gap_of_not_good hG]

/-- The gap is at most `e`, if it is so where it counts. -/
theorem gap_le {e : ℚ} (he : 0 ≤ e) (hle : Good pack split k f h t →
    |valueReal pack split A k (joint pack split k f h t) - valueIdeal A f t| ≤ e) :
    gap pack split A f t k h ≤ e := by
  by_cases hG : Good pack split k f h t
  · rw [gap_of_good hG]
    exact hle hG
  · rw [gap_of_not_good hG]
    exact he

variable [FinEnum κ] [Inhabited κ] [Fintype α] [FinEnum η] [Inhabited η] (pack split)

/-- The mean gap over the key and the hidden parts. -/
noncomputable def distance (A : Adv (Query α σ) (Answer β σ)) (f : List (α × β)) (t : Table σ) :
    ℚ :=
  (rnd κ).E fun k => (among Finset.univ).E fun h => gap pack split A f t k h

end Distance

/-! ### One query -/

section Query

variable {κ α β η σ : Type} {pack : κ → α → σ} {split : σ ≃ β × η}
  [DecidableEq α] [FinEnum β] [Inhabited β] [FinEnum σ]
  {next : Answer β σ → Adv (Query α σ) (Answer β σ)} {f : List (α × β)} {t : Table σ} {k : κ}
  {h : α → η} {x : α} {s : σ}

theorem gap_mask_known {b : β} (hx : f.lookup x = some b) :
    gap pack split (.query (.mask x) next) f t k h ≤ gap pack split (next (.block b)) f t k h := by
  apply gap_le gap_nonneg
  intro hG
  have hmem : (x, b) ∈ f := by
    obtain ⟨l₁, l₂, rfl, -⟩ := List.lookup_eq_some_iff.1 hx
    exact List.mem_append_right _ List.mem_cons_self
  rw [gap_of_good hG, valueIdeal_mask_known next hx, valueReal_mask,
    E_extending_apply_known (fun s π =>
      ((next (.block (split s).1)).run (real pack split k π) ()).prob true) hG.1
      (mem_joint_of_mask hmem), Equiv.apply_symm_apply]
  rfl

theorem gap_forward_known {y : σ} (hy : (s, y) ∈ t) :
    gap pack split (.query (.forward s) next) f t k h ≤
      gap pack split (next (.state y)) f t k h := by
  apply gap_le gap_nonneg
  intro hG
  rw [gap_of_good hG, valueReal_forward, valueIdeal_forward,
    E_extending_apply_known (fun s π =>
      ((next (.state s)).run (real pack split k π) ()).prob true) hG.1 (mem_joint_of_table hy),
    E_extending_apply_known (fun s π => ((next (.state s)).run (ideal π) f).prob true) hG.table hy]
  rfl

theorem gap_backward_known {y : σ} (hy : (y, s) ∈ t) :
    gap pack split (.query (.backward s) next) f t k h ≤
      gap pack split (next (.state y)) f t k h := by
  apply gap_le gap_nonneg
  intro hG
  rw [gap_of_good hG, valueReal_backward, valueIdeal_backward,
    E_extending_symm_known (fun s π =>
      ((next (.state s)).run (real pack split k π) ()).prob true) hG.1 (mem_joint_of_table hy),
    E_extending_symm_known (fun s π => ((next (.state s)).run (ideal π) f).prob true) hG.table hy]
  rfl

variable [Inhabited σ] {j : Nat}

/-- **A new question to the function** loses the chance that a used value is drawn. -/
theorem gap_mask_fresh [FinEnum η] [Inhabited η]
    (pack_inj : ∀ k k' x x', pack k x = pack k' x' → k = k' ∧ x = x')
    (hj : f.length + t.length ≤ j) (hx : f.lookup x = none) :
    gap pack split (.query (.mask x) next) f t k h ≤
      ((rnd σ).E fun s => gap pack split (next (.block (split s).1)) ((x, (split s).1) :: f) t k
        (Function.update h x (split s).2)) + (j : ℚ) / Fintype.card σ := by
  have hfresh : x ∉ f.map Prod.fst := by
    intro hmem
    obtain ⟨p, hp, rfl⟩ := List.mem_map.1 hmem
    simpa using List.lookup_eq_none_iff.1 hx p hp
  apply gap_le (add_nonneg (E_nonneg fun _ _ => gap_nonneg) (by positivity))
  intro hG
  have hpoint := pack_notMem_joint pack_inj hG hfresh
  have hblock : ((rnd β).E fun b => valueIdeal (next (.block b)) ((x, b) :: f) t) =
      (among Finset.univ).E fun s =>
        valueIdeal (next (.block (split s).1)) ((x, (split s).1) :: f) t := by
    rw [← E_rnd_eq_among]
    exact (E_rnd_fst split _).symm
  rw [valueReal_mask, E_extending_apply_fresh (fun s π =>
      ((next (.block (split s).1)).run (real pack split k π) ()).prob true) hG.1 hpoint,
    valueIdeal_mask_fresh next hx, hblock]
  refine (abs_E_among_sub_le subset_rfl (Finset.subset_univ _) (freeValues_nonempty hG.1 hpoint)
    (card_sub_freeValues_joint_le hj) (fun s => valueReal_mem pack split _ k _)
    fun s => valueIdeal_mem _ _ _).trans ?_
  apply add_le_add _ le_rfl
  apply E_mono
  intro s _
  split
  · next hs =>
    have hG' : Good pack split k ((x, (split s).1) :: f) (Function.update h x (split s).2) t := by
      refine ⟨?_, hG.2⟩
      rw [joint_cons hfresh]
      exact extensions_cons_nonempty hG.1 hpoint hs
    rw [gap_of_good hG', joint_cons hfresh, valueReal]
  · exact gap_nonneg

/-- **A new question to the permutation** loses the chance that it contains the key, too. -/
theorem gap_forward_fresh (hj : f.length + t.length ≤ j) (hs : s ∉ t.map Prod.fst) :
    gap pack split (.query (.forward s) next) f t k h ≤
      (ind (∃ x, s = pack k x) +
        (rnd σ).E fun y => gap pack split (next (.state y)) f ((s, y) :: t) k h) +
          (j : ℚ) / Fintype.card σ := by
  have hrest : 0 ≤ (rnd σ).E fun y => gap pack split (next (.state y)) f ((s, y) :: t) k h :=
    E_nonneg fun _ _ => gap_nonneg
  apply gap_le (add_nonneg (add_nonneg (ind_nonneg _) hrest) (by positivity))
  intro hG
  by_cases hkey : ∃ x, s = pack k x
  · rw [ind_of hkey]
    refine (abs_sub_le_one (valueReal_mem pack split _ k _) (valueIdeal_mem _ _ _)).trans ?_
    have hloss : (0 : ℚ) ≤ (j : ℚ) / Fintype.card σ := by positivity
    linarith
  · have hpoint : s ∉ (joint pack split k f h t).map Prod.fst := fun hmem =>
      (point_mem_joint hmem).elim hkey hs
    rw [ind_of_not hkey, zero_add, valueReal_forward, valueIdeal_forward,
      E_extending_apply_fresh (fun s π =>
        ((next (.state s)).run (real pack split k π) ()).prob true) hG.1 hpoint,
      E_extending_apply_fresh (fun s π => ((next (.state s)).run (ideal π) f).prob true)
        hG.table hs]
    refine (abs_E_among_sub_le subset_rfl (freeValues_subset fun _ hp => mem_joint_of_table hp)
      (freeValues_nonempty hG.1 hpoint) (card_sub_freeValues_joint_le hj)
      (fun y => valueReal_mem pack split _ k _) fun y => valueIdeal_mem _ _ _).trans ?_
    apply add_le_add _ le_rfl
    apply E_mono
    intro y _
    split
    · next hy =>
      have hG' : Good pack split k f h ((s, y) :: t) := by
        refine ⟨?_, ?_⟩
        · rw [extensions_congr fun p => mem_joint_table_cons p (s, y)]
          exact extensions_cons_nonempty hG.1 hpoint hy
        · rw [List.forall_mem_cons]
          exact ⟨fun x hx => hkey ⟨x, hx⟩, hG.2⟩
      rw [gap_of_good hG', valueReal_congr pack split fun p => mem_joint_table_cons p (s, y),
        valueReal, valueIdeal]
    · exact gap_nonneg

/-- **A new question to the inverse** loses the chance that it contains the hidden part of an
answer, or that the reply contains the key. -/
theorem gap_backward_fresh (hj : f.length + t.length ≤ j) (hs : s ∉ t.map Prod.snd) :
    gap pack split (.query (.backward s) next) f t k h ≤
      (ind (∃ p ∈ f, h p.1 = (split s).2) +
        ((rnd σ).E fun y => ind (∃ x, y = pack k x) +
          gap pack split (next (.state y)) f ((y, s) :: t) k h)) +
          (j : ℚ) / Fintype.card σ := by
  have hrest : 0 ≤ (rnd σ).E fun y => ind (∃ x, y = pack k x) +
      gap pack split (next (.state y)) f ((y, s) :: t) k h :=
    E_nonneg fun _ _ => add_nonneg (ind_nonneg _) gap_nonneg
  apply gap_le (add_nonneg (add_nonneg (ind_nonneg _) hrest) (by positivity))
  intro hG
  by_cases hhit : ∃ p ∈ f, h p.1 = (split s).2
  · rw [ind_of hhit]
    refine (abs_sub_le_one (valueReal_mem pack split _ k _) (valueIdeal_mem _ _ _)).trans ?_
    have hloss : (0 : ℚ) ≤ (j : ℚ) / Fintype.card σ := by positivity
    linarith
  · have hvalue : s ∉ (joint pack split k f h t).map Prod.snd := fun hmem =>
      (value_mem_joint hmem).elim hhit hs
    rw [ind_of_not hhit, zero_add, valueReal_backward, valueIdeal_backward,
      E_extending_symm_fresh (fun s π =>
        ((next (.state s)).run (real pack split k π) ()).prob true) hG.1 hvalue,
      E_extending_symm_fresh (fun s π => ((next (.state s)).run (ideal π) f).prob true)
        hG.table hs]
    refine (abs_E_among_sub_le subset_rfl (freePoints_subset fun _ hp => mem_joint_of_table hp)
      (freePoints_nonempty hG.1 hvalue) (card_sub_freePoints_joint_le hj)
      (fun y => valueReal_mem pack split _ k _) fun y => valueIdeal_mem _ _ _).trans ?_
    apply add_le_add _ le_rfl
    apply E_mono
    intro y _
    by_cases hkey : ∃ x, y = pack k x
    · rw [ind_of hkey]
      refine le_trans ?_ (le_add_of_nonneg_right gap_nonneg)
      split
      · exact abs_sub_le_one (valueReal_mem pack split _ k _) (valueIdeal_mem _ _ _)
      · exact zero_le_one
    · rw [ind_of_not hkey, zero_add]
      split
      · next hy =>
        have hG' : Good pack split k f h ((y, s) :: t) := by
          refine ⟨?_, ?_⟩
          · rw [extensions_congr fun p => mem_joint_table_cons p (y, s)]
            exact extensions_cons_nonempty_inv hG.1 hvalue hy
          · rw [List.forall_mem_cons]
            exact ⟨fun x hx => hkey ⟨x, hx⟩, hG.2⟩
        rw [gap_of_good hG', valueReal_congr pack split fun p => mem_joint_table_cons p (y, s),
          valueReal, valueIdeal]
      · exact gap_nonneg

end Query

/-! ### The chances of a guess -/

section Guess

variable {κ α η σ : Type} {pack : κ → α → σ}

/-- A state contains the key with the chance of guessing it. -/
theorem E_key_le [FinEnum κ] [Inhabited κ]
    (pack_inj : ∀ k k' x x', pack k x = pack k' x' → k = k' ∧ x = x') (s : σ) :
    ((rnd κ).E fun k => ind (∃ x, s = pack k x)) ≤ 1 / Fintype.card κ := by
  by_cases hs : ∃ k x, s = pack k x
  · obtain ⟨k₀, x₀, rfl⟩ := hs
    rw [← E_rnd_eq k₀]
    simp only [← ind_eq_ite]
    apply E_mono
    intro k _
    exact ind_mono fun ⟨x, hx⟩ => (pack_inj _ _ _ _ hx).1.symm
  · have hnone : ∀ k, ind (∃ x, s = pack k x) = 0 := fun k => ind_of_not fun hk => hs ⟨k, hk⟩
    simp only [hnone, E_const]
    positivity

/-- A uniform state contains a given key with the chance of hitting one of its points. -/
theorem E_point_le [FinEnum σ] [Inhabited σ] [Fintype α] (k : κ) :
    ((rnd σ).E fun s => ind (∃ x, s = pack k x)) ≤ (Fintype.card α : ℚ) / Fintype.card σ := by
  classical
  have hsub : (Finset.univ.filter fun s => ∃ x, s = pack k x) ⊆ Finset.univ.image (pack k) := by
    intro s hs
    obtain ⟨x, rfl⟩ := (Finset.mem_filter.1 hs).2
    exact Finset.mem_image_of_mem _ (Finset.mem_univ x)
  have hcard := (Finset.card_le_card hsub).trans Finset.card_image_le
  rw [Finset.card_univ] at hcard
  simp only [ind_eq_ite]
  rw [E_rnd, Finset.sum_boole]
  exact div_le_div_of_nonneg_right (by exact_mod_cast hcard) (Nat.cast_nonneg _)

variable [Fintype α] [DecidableEq α] [FinEnum η] [Inhabited η]

/-- One value of a uniform function may be drawn on its own. -/
theorem E_function_update (a : α) (g : (α → η) → ℚ) : (among Finset.univ).E g =
    (rnd η).E fun y => (among Finset.univ).E fun h => g (Function.update h a y) := by
  have hne : (Finset.univ : Finset (α → η)).Nonempty := ⟨default, Finset.mem_univ _⟩
  have hη : (Fintype.card η : ℚ) ≠ 0 := by exact_mod_cast Fintype.card_ne_zero
  -- exchange the value at `a` with the one that is drawn
  have hswap : ∑ y : η, ∑ h : α → η, g (Function.update h a y) = Fintype.card η * ∑ h, g h := by
    rw [← Finset.sum_product', ← nsmul_eq_mul, ← Finset.card_univ (α := η), ← Finset.sum_const,
      ← Finset.sum_product']
    refine Finset.sum_bij' (fun p _ => (p.2 a, Function.update p.2 a p.1))
      (fun p _ => (p.2 a, Function.update p.2 a p.1)) ?_ ?_ ?_ ?_ ?_
    all_goals simp
  have hrow : ∀ y, ((among Finset.univ).E fun h => g (Function.update h a y)) =
      (∑ h, g (Function.update h a y)) / (Finset.univ : Finset (α → η)).card := fun y =>
    E_among hne _
  simp only [hrow]
  rw [E_rnd, ← Finset.sum_div, hswap, E_among hne, div_right_comm, mul_div_cancel_left₀ _ hη]

/-- The hidden parts of the answers are met with the chance of guessing one of them. -/
theorem E_hidden_le {β : Type} (f : List (α × β)) (c : η) :
    ((among (Finset.univ : Finset (α → η))).E fun h => ind (∃ p ∈ f, h p.1 = c)) ≤
      (f.length : ℚ) / Fintype.card η := by
  induction f with
  | nil => simp [ind_of_not, E_const]
  | cons p f ih =>
    have hhead : ((among (Finset.univ : Finset (α → η))).E fun h => ind (h p.1 = c)) =
        1 / Fintype.card η := by
      rw [E_function_update p.1]
      simp only [Function.update_self, E_const, ind_eq_ite]
      exact E_rnd_eq c
    have hunion : ((among (Finset.univ : Finset (α → η))).E fun h =>
        ind (∃ q ∈ p :: f, h q.1 = c)) ≤
          (among Finset.univ).E fun h : α → η => ind (h p.1 = c) + ind (∃ q ∈ f, h q.1 = c) := by
      apply E_mono
      intro h _
      simp only [List.mem_cons, exists_eq_or_imp]
      exact ind_or_le _ _
    rw [E_add, hhead] at hunion
    rw [List.length_cons, Nat.cast_add, Nat.cast_one, add_div, add_comm]
    exact hunion.trans (add_le_add le_rfl ih)

end Guess

/-! ### Whole runs -/

section Run

variable {κ α β η σ : Type} {pack : κ → α → σ} {split : σ ≃ β × η}
  [FinEnum κ] [Inhabited κ] [Fintype α] [DecidableEq α] [FinEnum β] [Inhabited β]
  [FinEnum η] [Inhabited η] [FinEnum σ] [Inhabited σ]

variable (κ α η σ) in
/-- What the query after `j` others can lose. -/
def loss (j : Nat) : ℚ :=
  max ((1 : ℚ) / Fintype.card κ) ((Fintype.card α : ℚ) / Fintype.card σ) +
    (j : ℚ) / Fintype.card η + (j : ℚ) / Fintype.card σ

omit [Inhabited κ] [DecidableEq α] [Inhabited η] [Inhabited σ] in
theorem loss_nonneg (j : Nat) : 0 ≤ loss κ α η σ j := by
  have hmax : (0 : ℚ) ≤ max ((1 : ℚ) / Fintype.card κ) ((Fintype.card α : ℚ) / Fintype.card σ) :=
    le_max_of_le_left (by positivity)
  unfold loss
  positivity

variable {next : Answer β σ → Adv (Query α σ) (Answer β σ)} {f : List (α × β)} {t : Table σ}
  {j : Nat}

variable (split next) in
theorem distance_mask_fresh (pack_inj : ∀ k k' x x', pack k x = pack k' x' → k = k' ∧ x = x')
    (hj : f.length + t.length ≤ j) {x : α} (hx : f.lookup x = none) :
    distance pack split (.query (.mask x) next) f t ≤
      ((rnd β).E fun b => distance pack split (next (.block b)) ((x, b) :: f) t) +
        (j : ℚ) / Fintype.card σ := by
  have hstep : distance pack split (.query (.mask x) next) f t ≤
      (rnd κ).E fun k => (among Finset.univ).E fun h =>
        ((rnd σ).E fun s => gap pack split (next (.block (split s).1)) ((x, (split s).1) :: f) t k
          (Function.update h x (split s).2)) + (j : ℚ) / Fintype.card σ :=
    E_mono fun k _ => E_mono fun h _ => gap_mask_fresh pack_inj hj hx
  refine hstep.trans_eq ?_
  simp only [E_add, E_const]
  congr 1
  -- the hidden part that is drawn now is the one drawn afterwards
  have hdraw : ∀ k b, ((among Finset.univ).E fun h => (rnd η).E fun y =>
      gap pack split (next (.block b)) ((x, b) :: f) t k (Function.update h x y)) =
        (among Finset.univ).E fun h => gap pack split (next (.block b)) ((x, b) :: f) t k h := by
    intro k b
    rw [E_comm]
    exact (E_function_update x _).symm
  have hpair : ∀ k h, ((rnd σ).E fun s => gap pack split (next (.block (split s).1))
      ((x, (split s).1) :: f) t k (Function.update h x (split s).2)) = (rnd β).E fun b =>
        (rnd η).E fun y =>
          gap pack split (next (.block b)) ((x, b) :: f) t k (Function.update h x y) :=
    fun k h => E_rnd_pair split fun b y =>
      gap pack split (next (.block b)) ((x, b) :: f) t k (Function.update h x y)
  have hrow : ∀ k, ((among Finset.univ).E fun h => (rnd β).E fun b => (rnd η).E fun y =>
      gap pack split (next (.block b)) ((x, b) :: f) t k (Function.update h x y)) =
        (rnd β).E fun b => (among Finset.univ).E fun h =>
          gap pack split (next (.block b)) ((x, b) :: f) t k h := by
    intro k
    rw [E_comm]
    simp only [hdraw]
  simp only [hpair, hrow]
  exact E_comm _ _ _

variable (split next) in
theorem distance_forward_fresh (pack_inj : ∀ k k' x x', pack k x = pack k' x' → k = k' ∧ x = x')
    (hj : f.length + t.length ≤ j) {s : σ} (hs : s ∉ t.map Prod.fst) :
    distance pack split (.query (.forward s) next) f t ≤
      1 / Fintype.card κ + ((rnd σ).E fun y =>
        distance pack split (next (.state y)) f ((s, y) :: t)) + (j : ℚ) / Fintype.card σ := by
  have hstep : distance pack split (.query (.forward s) next) f t ≤
      (rnd κ).E fun k => (among Finset.univ).E fun h =>
        (ind (∃ x, s = pack k x) +
          (rnd σ).E fun y => gap pack split (next (.state y)) f ((s, y) :: t) k h) +
            (j : ℚ) / Fintype.card σ :=
    E_mono fun k _ => E_mono fun h _ => gap_forward_fresh hj hs
  simp only [E_add, E_const] at hstep
  refine hstep.trans (add_le_add (add_le_add (E_key_le pack_inj s) (le_of_eq ?_)) le_rfl)
  simp only [E_comm (among Finset.univ)]
  exact E_comm _ _ _

variable (pack split next) in
theorem distance_backward_fresh (hj : f.length + t.length ≤ j) {s : σ} (hs : s ∉ t.map Prod.snd) :
    distance pack split (.query (.backward s) next) f t ≤
      (f.length : ℚ) / Fintype.card η + ((Fintype.card α : ℚ) / Fintype.card σ +
        (rnd σ).E fun y => distance pack split (next (.state y)) f ((y, s) :: t)) +
          (j : ℚ) / Fintype.card σ := by
  have hstep : distance pack split (.query (.backward s) next) f t ≤
      (rnd κ).E fun k => (among Finset.univ).E fun h =>
        (ind (∃ p ∈ f, h p.1 = (split s).2) + ((rnd σ).E fun y => ind (∃ x, y = pack k x) +
          gap pack split (next (.state y)) f ((y, s) :: t) k h)) + (j : ℚ) / Fintype.card σ :=
    E_mono fun k _ => E_mono fun h _ => gap_backward_fresh hj hs
  simp only [E_add, E_const] at hstep
  have hpoint : ((rnd κ).E fun k => (rnd σ).E fun y => ind (∃ x, y = pack k x)) ≤
      (Fintype.card α : ℚ) / Fintype.card σ := by
    rw [← (rnd κ).E_const ((Fintype.card α : ℚ) / Fintype.card σ)]
    exact E_mono fun k _ => E_point_le k
  refine hstep.trans (add_le_add (add_le_add (E_hidden_le f _) (add_le_add hpoint (le_of_eq ?_)))
    le_rfl)
  simp only [E_comm (among Finset.univ)]
  exact E_comm _ _ _

/-- **One query loses at most `loss`.** -/
theorem distance_query_le (pack_inj : ∀ k k' x x', pack k x = pack k' x' → k = k' ∧ x = x')
    (hj : f.length + t.length ≤ j) (q : Query α σ) {δ : ℚ}
    (hnext : ∀ y f' t', f'.length + t'.length ≤ j + 1 → distance pack split (next y) f' t' ≤ δ) :
    distance pack split (.query q next) f t ≤ δ + loss κ α η σ j := by
  have hmean : ∀ {β : Type} (d : FinDist β) (g : β → ℚ), (∀ b, g b ≤ δ) → d.E g ≤ δ := by
    intro β d g hg
    rw [← d.E_const δ]
    exact E_mono fun b _ => hg b
  have hkey : 1 / (Fintype.card κ : ℚ) ≤
      max ((1 : ℚ) / Fintype.card κ) ((Fintype.card α : ℚ) / Fintype.card σ) := le_max_left _ _
  have hpoint : (Fintype.card α : ℚ) / Fintype.card σ ≤
      max ((1 : ℚ) / Fintype.card κ) ((Fintype.card α : ℚ) / Fintype.card σ) := le_max_right _ _
  have hhidden : (f.length : ℚ) / Fintype.card η ≤ (j : ℚ) / Fintype.card η :=
    div_le_div_of_nonneg_right (by exact_mod_cast Nat.le_trans (Nat.le_add_right _ _) hj)
      (Nat.cast_nonneg _)
  have hκ : (0 : ℚ) ≤ 1 / Fintype.card κ := by positivity
  have hη : (0 : ℚ) ≤ (j : ℚ) / Fintype.card η := by positivity
  have hσ : (0 : ℚ) ≤ (j : ℚ) / Fintype.card σ := by positivity
  -- a known answer leaves the tables as they are
  have hsame : ∀ y, distance pack split (next y) f t ≤ δ := fun y => hnext y f t (by omega)
  have hknown : ∀ y, (∀ k h, gap pack split (.query q next) f t k h ≤
      gap pack split (next y) f t k h) →
        distance pack split (.query q next) f t ≤ δ + loss κ α η σ j := by
    intro y hy
    refine le_trans ?_ (le_add_of_nonneg_right (loss_nonneg j))
    exact le_trans (E_mono fun k _ => E_mono fun h _ => hy k h) (hsame y)
  have hmore : ∀ p, f.length + (p :: t).length ≤ j + 1 := by
    intro p
    rw [List.length_cons]
    omega
  cases q with
  | mask x =>
    cases hx : f.lookup x with
    | some b => exact hknown (.block b) fun k h => gap_mask_known hx
    | none =>
      have hfresh := distance_mask_fresh split next pack_inj hj hx
      have hrest := hmean (rnd β) (fun b => distance pack split (next (.block b)) ((x, b) :: f) t)
        fun b => hnext _ _ _ (by rw [List.length_cons]; omega)
      rw [loss]
      linarith
  | forward s =>
    by_cases hs : s ∈ t.map Prod.fst
    · obtain ⟨⟨_, y⟩, hy, rfl⟩ := List.mem_map.1 hs
      exact hknown (.state y) fun k h => gap_forward_known hy
    · have hfresh := distance_forward_fresh split next pack_inj hj hs
      have hrest := hmean (rnd σ) (fun y => distance pack split (next (.state y)) f ((s, y) :: t))
        fun y => hnext _ _ _ (hmore _)
      rw [loss]
      linarith
  | backward s =>
    by_cases hs : s ∈ t.map Prod.snd
    · obtain ⟨⟨y, _⟩, hy, rfl⟩ := List.mem_map.1 hs
      exact hknown (.state y) fun k h => gap_backward_known hy
    · have hfresh := distance_backward_fresh pack split next hj hs
      have hrest := hmean (rnd σ) (fun y => distance pack split (next (.state y)) f ((y, s) :: t))
        fun y => hnext _ _ _ (hmore _)
      rw [loss]
      linarith

/-- **The losses add up along a run.** -/
theorem distance_le (pack_inj : ∀ k k' x x', pack k x = pack k' x' → k = k' ∧ x = x')
    {A : Adv (Query α σ) (Answer β σ)} {n : Nat} (hA : A.AtMost n)
    (hj : f.length + t.length ≤ j) :
    distance pack split A f t ≤ ∑ i ∈ Finset.range n, loss κ α η σ (j + i) := by
  induction A generalizing n j f t with
  | ret b =>
    have hzero : ∀ k h, gap pack split (.ret b : Adv (Query α σ) (Answer β σ)) f t k h = 0 := by
      intro k h
      refine le_antisymm (gap_le le_rfl fun _ => ?_) gap_nonneg
      rw [valueReal_ret, valueIdeal_ret, sub_self, abs_zero]
    simp only [distance, hzero, E_const]
    exact Finset.sum_nonneg fun i _ => loss_nonneg _
  | sample d next ih =>
    have hstep : distance pack split (.sample d next) f t ≤
        d.E fun x => distance pack split (next x) f t := by
      have hgap : ∀ k h, gap pack split (.sample d next) f t k h ≤
          d.E fun x => gap pack split (next x) f t k h := by
        intro k h
        refine gap_le (E_nonneg fun _ _ => gap_nonneg) fun hG => ?_
        rw [valueReal_sample, valueIdeal_sample]
        exact abs_E_sub_le fun x _ => (gap_of_good hG).ge
      refine (E_mono fun k _ => E_mono fun h _ => hgap k h).trans_eq ?_
      simp only [E_comm (among Finset.univ)]
      exact E_comm _ _ _
    refine hstep.trans ?_
    rw [← d.E_const (∑ i ∈ Finset.range n, loss κ α η σ (j + i))]
    exact E_mono fun x _ => ih x (hA x) hj
  | query q next ih =>
    cases n with
    | zero => exact hA.elim
    | succ n =>
      rw [Finset.sum_range_succ', Nat.add_zero]
      apply distance_query_le pack_inj hj
      intro y f' t' hlen
      refine (ih y (hA y) hlen).trans_eq ?_
      apply Finset.sum_congr rfl
      intro i _
      rw [Nat.add_assoc, Nat.add_comm 1 i]

/-- **A keyed function from a public permutation is a random function** to every program with `q`
queries, up to the losses of its queries. -/
theorem gReal_sub_gIdeal_le (pack_inj : ∀ k k' x x', pack k x = pack k' x' → k = k' ∧ x = x')
    {A : Adv (Query α σ) (Answer β σ)} {q : Nat} (hA : A.AtMost q) :
    |(gReal pack split A).prob true - (gIdeal A).prob true| ≤
      ∑ i ∈ Finset.range q, loss κ α η σ i := by
  have hreal : (gReal pack split A).prob true =
      (rnd κ).E fun k => (among (Finset.univ : Finset (α → η))).E fun h =>
        valueReal pack split A k (joint pack split k [] h []) := by
    have hempty : ∀ k h, joint pack split k [] h [] = [] := fun _ _ => rfl
    simp only [gReal, prob_bind, hempty, E_const, valueReal]
  have hideal : (gIdeal A).prob true =
      (rnd κ).E fun _ => (among (Finset.univ : Finset (α → η))).E fun _ => valueIdeal A [] [] := by
    simp only [gIdeal, prob_bind, E_const, valueIdeal]
  have hgap : ∀ k h, |valueReal pack split A k (joint pack split k [] h []) - valueIdeal A [] []| ≤
      gap pack split A [] [] k h := by
    intro k h
    have hG : Good pack split k [] h [] := ⟨extensions_nil, by simp⟩
    exact (gap_of_good hG).ge
  have hrun : distance pack split A [] [] ≤ ∑ i ∈ Finset.range q, loss κ α η σ (0 + i) :=
    distance_le pack_inj hA (Nat.le_refl 0)
  simp only [Nat.zero_add] at hrun
  rw [hreal, hideal]
  refine le_trans ?_ hrun
  exact abs_E_sub_le fun k _ => abs_E_sub_le fun h _ => hgap k h

end Run

end KeyedPerm
