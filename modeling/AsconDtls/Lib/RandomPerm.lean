import AsconDtls.Lib.Oracle
import Mathlib.Data.Fintype.Perm
import Mathlib.Algebra.BigOperators.Field

/-!
# Uniform permutations, seen through what is known of them

`among s` is a uniform element of a finite set.  `extending T` is a uniform
permutation among those that have the entries of the table `T`, so
`extending []` is a uniform permutation.

`E_extending_fresh` is the chain rule: the value at a new point is uniform among
the values that `T` does not use, and the permutation is then one that extends
`T` by the new entry.  `E_extending_fresh_inv` is the same for the inverse.
-/

namespace FinDist

open OracleGame (draw)

open Classical in
/-- The payoff of the event `p`. -/
noncomputable def ind (p : Prop) : ℚ := if p then 1 else 0

theorem ind_of {p : Prop} (h : p) : ind p = 1 := if_pos h

theorem ind_of_not {p : Prop} (h : ¬p) : ind p = 0 := if_neg h

theorem ind_eq_ite (p : Prop) [Decidable p] : ind p = if p then 1 else 0 := by
  by_cases h : p
  · rw [ind_of h, if_pos h]
  · rw [ind_of_not h, if_neg h]

theorem ind_nonneg (p : Prop) : 0 ≤ ind p := by
  by_cases h : p
  · rw [ind_of h]
    exact zero_le_one
  · rw [ind_of_not h]

theorem ind_mono {p q : Prop} (h : p → q) : ind p ≤ ind q := by
  by_cases hp : p
  · rw [ind_of hp, ind_of (h hp)]
  · rw [ind_of_not hp]
    exact ind_nonneg q

theorem ind_or_le (p q : Prop) : ind (p ∨ q) ≤ ind p + ind q := by
  by_cases hp : p
  · rw [ind_of hp, ind_of (.inl hp)]
    exact le_add_of_nonneg_right (ind_nonneg q)
  · rw [ind_of_not hp, zero_add]
    exact ind_mono fun h => h.resolve_left hp

section Among

variable {α : Type} [Inhabited α]

/-- A uniform element of `s`. -/
noncomputable def among (s : Finset α) : FinDist α := draw s.toList

theorem E_among {s : Finset α} (hs : s.Nonempty) (g : α → ℚ) :
    (among s).E g = (∑ a ∈ s, g a) / s.card := by
  have hne : s.toList ≠ [] := by
    rw [Ne, Finset.toList_eq_nil]
    exact hs.ne_empty
  rw [among, draw, dif_pos hne, E_uniform, Finset.sum_map_toList, Finset.length_toList]

theorem E_among_congr {s : Finset α} (hs : s.Nonempty) {g h : α → ℚ} (hgh : ∀ a ∈ s, g a = h a) :
    (among s).E g = (among s).E h := by
  rw [E_among hs, E_among hs, Finset.sum_congr rfl hgh]

theorem E_rnd_eq_among [FinEnum α] (g : α → ℚ) : (rnd α).E g = (among Finset.univ).E g := by
  rw [E_rnd, E_among ⟨default, Finset.mem_univ _⟩, Finset.card_univ]

/-- The two parts of a uniform sample are drawn one after the other. -/
theorem E_rnd_pair [FinEnum α] {β γ : Type} [FinEnum β] [Inhabited β] [FinEnum γ] [Inhabited γ]
    (e : α ≃ β × γ) (g : β → γ → ℚ) :
    ((rnd α).E fun a => g (e a).1 (e a).2) = (rnd β).E fun b => (rnd γ).E (g b) := by
  have hsum : ∑ a, g (e a).1 (e a).2 = ∑ b, ∑ c, g b c := by
    rw [Fintype.sum_equiv e _ (fun p => g p.1 p.2) fun _ => rfl, Fintype.sum_prod_type]
  have hcard : (Fintype.card α : ℚ) = Fintype.card γ * Fintype.card β := by
    rw [Fintype.card_congr e, Fintype.card_prod, mul_comm, Nat.cast_mul]
  simp only [E_rnd, ← Finset.sum_div]
  rw [hsum, hcard, div_div]

/-- What a uniform element of `s'` is worth, in terms of a uniform element of the whole type that
falls into a part `s` of `s'`. -/
theorem E_among_mem [FinEnum α] [DecidableEq α] {s s' : Finset α} (hsub : s ⊆ s')
    (hs' : s'.Nonempty) {g : α → ℚ} (hg : ∀ a, 0 ≤ g a ∧ g a ≤ 1) :
    ((rnd α).E fun a => if a ∈ s then g a else 0) ≤ (among s').E g ∧
      (among s').E g ≤ ((rnd α).E fun a => if a ∈ s then g a else 0) +
        ((Fintype.card α : ℚ) - s.card) / Fintype.card α := by
  have hin : ∀ f : α → ℚ, ((rnd α).E fun a => if a ∈ s then f a else 0) =
      (∑ a ∈ s, f a) / Fintype.card α := by
    intro f
    rw [E_rnd, Finset.sum_ite_mem, Finset.univ_inter]
  have hcard : (0 : ℚ) < s'.card := by exact_mod_cast hs'.card_pos
  have hle : (s'.card : ℚ) ≤ Fintype.card α := by exact_mod_cast Finset.card_le_univ s'
  have hN : (0 : ℚ) < Fintype.card α := hcard.trans_le hle
  -- the weight of an element is larger in `s'` than in the whole type
  have hlow : ∀ f : α → ℚ, (∀ a, 0 ≤ f a) → (∑ a ∈ s, f a) / Fintype.card α ≤ (among s').E f := by
    intro f hf
    rw [E_among hs']
    have hsum : ∑ a ∈ s, f a ≤ ∑ a ∈ s', f a :=
      Finset.sum_le_sum_of_subset_of_nonneg hsub fun a _ _ => hf a
    exact div_le_div₀ (Finset.sum_nonneg fun a _ => hf a) hsum hcard hle
  refine ⟨?_, ?_⟩
  · rw [hin]
    exact hlow g fun a => (hg a).1
  · have hrest := hlow (fun a => 1 - g a) fun a => sub_nonneg.2 (hg a).2
    rw [E_sub, E_const, Finset.sum_sub_distrib, Finset.sum_const, nsmul_eq_mul, mul_one,
      sub_div] at hrest
    rw [hin, sub_div, div_self hN.ne']
    linarith

/-- Uniform elements of two sets that share a large part `s`. -/
theorem abs_E_among_sub_le [FinEnum α] [DecidableEq α] {s s₁ s₂ : Finset α} (h₁ : s ⊆ s₁)
    (h₂ : s ⊆ s₂) (hs : s.Nonempty) {j : ℚ} (hj : (Fintype.card α : ℚ) - s.card ≤ j) {g₁ g₂ : α → ℚ}
    (hg₁ : ∀ a, 0 ≤ g₁ a ∧ g₁ a ≤ 1) (hg₂ : ∀ a, 0 ≤ g₂ a ∧ g₂ a ≤ 1) :
    |(among s₁).E g₁ - (among s₂).E g₂| ≤
      ((rnd α).E fun a => if a ∈ s then |g₁ a - g₂ a| else 0) + j / Fintype.card α := by
  have hlow₁ := E_among_mem h₁ (hs.mono h₁) hg₁
  have hlow₂ := E_among_mem h₂ (hs.mono h₂) hg₂
  have hcommon : |((rnd α).E fun a => if a ∈ s then g₁ a else 0) -
      (rnd α).E fun a => if a ∈ s then g₂ a else 0| ≤
        (rnd α).E fun a => if a ∈ s then |g₁ a - g₂ a| else 0 := by
    apply abs_E_sub_le
    intro a _
    split
    · exact le_rfl
    · simp
  have hrest : ((Fintype.card α : ℚ) - s.card) / Fintype.card α ≤ j / Fintype.card α :=
    div_le_div_of_nonneg_right hj (Nat.cast_nonneg _)
  rw [abs_le] at hcommon ⊢
  refine ⟨?_, ?_⟩
  · linarith [hlow₁.1, hlow₂.2, hcommon.1]
  · linarith [hlow₁.2, hlow₂.1, hcommon.2]

end Among

end FinDist

namespace RandomPerm

open FinDist

/-- What is known of a permutation: points with their values. -/
abbrev Table (σ : Type) := List (σ × σ)

/-- The table of the inverse. -/
def inverse {σ : Type} (T : Table σ) : Table σ := T.map Prod.swap

theorem map_fst_inverse {σ : Type} (T : Table σ) : (inverse T).map Prod.fst = T.map Prod.snd := by
  rw [inverse, List.map_map]
  rfl

theorem map_snd_inverse {σ : Type} (T : Table σ) : (inverse T).map Prod.snd = T.map Prod.fst := by
  rw [inverse, List.map_map]
  rfl

variable {σ : Type} [FinEnum σ]

/-- The permutations with the entries of `T`. -/
def extensions (T : Table σ) : Finset (Equiv.Perm σ) :=
  Finset.univ.filter fun π => ∀ p ∈ T, π p.1 = p.2

/-- A uniform permutation with the entries of `T`. -/
noncomputable def extending (T : Table σ) : FinDist (Equiv.Perm σ) := among (extensions T)

/-- The values that `T` does not use. -/
def freeValues (T : Table σ) : Finset σ := Finset.univ \ (T.map Prod.snd).toFinset

/-- The points that `T` does not use. -/
def freePoints (T : Table σ) : Finset σ := Finset.univ \ (T.map Prod.fst).toFinset

variable {T T' : Table σ} {x y : σ} {π : Equiv.Perm σ}

@[simp] theorem mem_extensions : π ∈ extensions T ↔ ∀ p ∈ T, π p.1 = p.2 := by
  simp [extensions]

@[simp] theorem mem_freeValues : y ∈ freeValues T ↔ y ∉ T.map Prod.snd := by
  rw [freeValues, Finset.mem_sdiff, and_iff_right (Finset.mem_univ y), List.mem_toFinset]

@[simp] theorem mem_freePoints : x ∈ freePoints T ↔ x ∉ T.map Prod.fst := by
  rw [freePoints, Finset.mem_sdiff, and_iff_right (Finset.mem_univ x), List.mem_toFinset]

theorem mem_extensions_cons : π ∈ extensions ((x, y) :: T) ↔ π x = y ∧ π ∈ extensions T := by
  rw [mem_extensions, mem_extensions, List.forall_mem_cons]

theorem extensions_congr (h : ∀ p, p ∈ T ↔ p ∈ T') : extensions T = extensions T' := by
  ext π
  simp only [mem_extensions, h]

theorem extensions_subset (h : ∀ p ∈ T, p ∈ T') : extensions T' ⊆ extensions T := by
  intro π hπ
  rw [mem_extensions] at hπ ⊢
  exact fun p hp => hπ p (h p hp)

theorem extensions_nil : (extensions ([] : Table σ)).Nonempty := ⟨1, by simp⟩

theorem freeValues_subset (h : ∀ p ∈ T, p ∈ T') : freeValues T' ⊆ freeValues T := by
  intro y hy
  rw [mem_freeValues] at hy ⊢
  exact fun hmem => hy (List.map_subset Prod.snd h hmem)

theorem freePoints_subset (h : ∀ p ∈ T, p ∈ T') : freePoints T' ⊆ freePoints T := by
  intro y hy
  rw [mem_freePoints] at hy ⊢
  exact fun hmem => hy (List.map_subset Prod.fst h hmem)

/-- A table of `n` entries leaves all but `n` values free. -/
theorem card_sub_freeValues_le (T : Table σ) :
    (Fintype.card σ : ℚ) - (freeValues T).card ≤ T.length := by
  classical
  have hused : (T.map Prod.snd).toFinset.card ≤ T.length :=
    (List.toFinset_card_le _).trans_eq (List.length_map _)
  have hfree := Finset.le_card_sdiff (T.map Prod.snd).toFinset Finset.univ
  rw [Finset.card_univ] at hfree
  have hle : Fintype.card σ ≤ (freeValues T).card + T.length := by
    rw [freeValues]
    omega
  rw [sub_le_iff_le_add']
  exact_mod_cast hle

/-! ### New entries -/

/-- A value at a new point is a free one. -/
theorem apply_mem_freeValues (hx : x ∉ T.map Prod.fst) (hπ : π ∈ extensions T) :
    π x ∈ freeValues T := by
  rw [mem_freeValues]
  intro hmem
  obtain ⟨p, hp, hpx⟩ := List.mem_map.1 hmem
  have heq : π p.1 = π x := by rw [mem_extensions.1 hπ p hp, hpx]
  exact hx (List.mem_map.2 ⟨p, hp, π.injective heq⟩)

/-- Exchanging two free values turns the one new entry into the other. -/
theorem card_extensions_cons_le {y y' : σ} (hy : y ∈ freeValues T) (hy' : y' ∈ freeValues T) :
    (extensions ((x, y) :: T)).card ≤ (extensions ((x, y') :: T)).card := by
  rw [mem_freeValues] at hy hy'
  apply Finset.card_le_card_of_injOn fun π => Equiv.swap y y' * π
  · intro π hπ
    rw [Finset.mem_coe, mem_extensions_cons] at hπ ⊢
    refine ⟨?_, ?_⟩
    · rw [Equiv.Perm.mul_apply, hπ.1, Equiv.swap_apply_left]
    · rw [mem_extensions]
      intro p hp
      have hmem : p.2 ∈ T.map Prod.snd := List.mem_map.2 ⟨p, hp, rfl⟩
      rw [Equiv.Perm.mul_apply, mem_extensions.1 hπ.2 p hp]
      exact Equiv.swap_apply_of_ne_of_ne (fun h => hy (h ▸ hmem)) fun h => hy' (h ▸ hmem)
  · intro π _ π' _ h
    exact mul_left_cancel h

/-- The permutations that take `x` to `y` are those that extend `T` by that entry. -/
theorem filter_extensions (x y : σ) :
    ((extensions T).filter fun π => π x = y) = extensions ((x, y) :: T) := by
  ext π
  rw [Finset.mem_filter, mem_extensions_cons, and_comm]

/-- Each free value leaves equally many permutations, and at least one. -/
theorem extensions_cons_nonempty (hT : (extensions T).Nonempty) (hx : x ∉ T.map Prod.fst)
    (hy : y ∈ freeValues T) : (extensions ((x, y) :: T)).Nonempty := by
  obtain ⟨π, hπ⟩ := hT
  have hpos : 0 < (extensions ((x, π x) :: T)).card :=
    Finset.card_pos.2 ⟨π, mem_extensions_cons.2 ⟨rfl, hπ⟩⟩
  exact Finset.card_pos.1
    (hpos.trans_le (card_extensions_cons_le (apply_mem_freeValues hx hπ) hy))

theorem freeValues_nonempty (hT : (extensions T).Nonempty) (hx : x ∉ T.map Prod.fst) :
    (freeValues T).Nonempty := by
  obtain ⟨π, hπ⟩ := hT
  exact ⟨π x, apply_mem_freeValues hx hπ⟩

/-! ### The inverse -/

theorem freeValues_inverse (T : Table σ) : freeValues (inverse T) = freePoints T := by
  ext x
  rw [mem_freeValues, mem_freePoints, map_snd_inverse]

theorem mem_extensions_inverse : π ∈ extensions (inverse T) ↔ π⁻¹ ∈ extensions T := by
  rw [mem_extensions, mem_extensions, inverse, List.forall_mem_map]
  apply forall₂_congr
  intro p _
  rw [Prod.fst_swap, Prod.snd_swap, Equiv.Perm.inv_eq_iff_eq, eq_comm]

theorem extensions_inverse_nonempty :
    (extensions (inverse T)).Nonempty ↔ (extensions T).Nonempty := by
  refine ⟨?_, ?_⟩
  · rintro ⟨π, hπ⟩
    exact ⟨π⁻¹, mem_extensions_inverse.1 hπ⟩
  · rintro ⟨π, hπ⟩
    exact ⟨π⁻¹, mem_extensions_inverse.2 (by rwa [inv_inv])⟩

theorem extensions_cons_nonempty_inv (hT : (extensions T).Nonempty) (hy : y ∉ T.map Prod.snd)
    (hx : x ∈ freePoints T) : (extensions ((x, y) :: T)).Nonempty := by
  rw [← extensions_inverse_nonempty]
  rw [← freeValues_inverse] at hx
  have hfresh : y ∉ (inverse T).map Prod.fst := by rwa [map_fst_inverse]
  exact extensions_cons_nonempty (extensions_inverse_nonempty.2 hT) hfresh hx

theorem freePoints_nonempty (hT : (extensions T).Nonempty) (hy : y ∉ T.map Prod.snd) :
    (freePoints T).Nonempty := by
  rw [← freeValues_inverse]
  exact freeValues_nonempty (extensions_inverse_nonempty.2 hT) (by rwa [map_fst_inverse])

/-- The inverse of a uniform extension is a uniform extension of the inverse table. -/
theorem E_extending_inverse (hT : (extensions T).Nonempty) (F : Equiv.Perm σ → ℚ) :
    (extending (inverse T)).E F = (extending T).E fun π => F π⁻¹ := by
  have hcard : (extensions (inverse T)).card = (extensions T).card := by
    apply Finset.card_bij fun π _ => π⁻¹
    · exact fun π hπ => mem_extensions_inverse.1 hπ
    · exact fun π _ π' _ h => inv_injective h
    · exact fun π hπ => ⟨π⁻¹, mem_extensions_inverse.2 (by rwa [inv_inv]), inv_inv π⟩
  have hsum : ∑ π ∈ extensions (inverse T), F π = ∑ π ∈ extensions T, F π⁻¹ := by
    refine Finset.sum_bij' (fun π _ => π⁻¹) (fun π _ => π⁻¹) ?_ ?_ ?_ ?_ ?_
    · exact fun π hπ => mem_extensions_inverse.1 hπ
    · exact fun π hπ => mem_extensions_inverse.2 (by rwa [inv_inv])
    · exact fun π _ => inv_inv π
    · exact fun π _ => inv_inv π
    · exact fun π _ => by rw [inv_inv]
  rw [extending, E_among (extensions_inverse_nonempty.2 hT), extending, E_among hT, hcard, hsum]

/-! ### The chain rules -/

variable [Inhabited σ]

/-- **The chain rule**: first the value at `x`, then the rest. -/
theorem E_extending_fresh (hT : (extensions T).Nonempty) (hx : x ∉ T.map Prod.fst)
    (F : Equiv.Perm σ → ℚ) : (extending T).E F =
      (among (freeValues T)).E fun y => (extending ((x, y) :: T)).E F := by
  obtain ⟨y₀, hy₀⟩ := freeValues_nonempty hT hx
  set c := (extensions ((x, y₀) :: T)).card with hc
  have hsame : ∀ y ∈ freeValues T, (extensions ((x, y) :: T)).card = c := fun y hy =>
    le_antisymm (card_extensions_cons_le hy hy₀) (card_extensions_cons_le hy₀ hy)
  have hmaps : ∀ π ∈ extensions T, π x ∈ freeValues T := fun π hπ => apply_mem_freeValues hx hπ
  have hcard : (extensions T).card = (freeValues T).card * c := by
    rw [Finset.card_eq_sum_card_fiberwise hmaps]
    apply Finset.sum_const_nat
    intro y hy
    rw [filter_extensions, hsame y hy]
  have hsum : ∑ π ∈ extensions T, F π =
      ∑ y ∈ freeValues T, ∑ π ∈ extensions ((x, y) :: T), F π := by
    rw [← Finset.sum_fiberwise_of_maps_to hmaps]
    simp only [filter_extensions]
  have hrest : ∀ y ∈ freeValues T, (extending ((x, y) :: T)).E F =
      (∑ π ∈ extensions ((x, y) :: T), F π) / c := by
    intro y hy
    rw [extending, E_among (extensions_cons_nonempty hT hx hy), hsame y hy]
  rw [extending, E_among hT, E_among ⟨y₀, hy₀⟩, Finset.sum_congr rfl hrest, ← Finset.sum_div,
    hsum, hcard, Nat.cast_mul, div_div, mul_comm (c : ℚ)]

/-- **The chain rule for the inverse**: first the point with the value `y`, then the rest. -/
theorem E_extending_fresh_inv (hT : (extensions T).Nonempty) (hy : y ∉ T.map Prod.snd)
    (F : Equiv.Perm σ → ℚ) : (extending T).E F =
      (among (freePoints T)).E fun x => (extending ((x, y) :: T)).E F := by
  have hinv : (extensions (inverse T)).Nonempty := extensions_inverse_nonempty.2 hT
  have hfresh : y ∉ (inverse T).map Prod.fst := by rwa [map_fst_inverse]
  have hback : (extending T).E F = (extending (inverse T)).E fun π => F π⁻¹ := by
    rw [E_extending_inverse hT]
    simp only [inv_inv]
  rw [hback, E_extending_fresh hinv hfresh, freeValues_inverse]
  apply E_among_congr (freeValues_inverse T ▸ freeValues_nonempty hinv hfresh)
  intro x hx
  have hcons : (extensions ((x, y) :: T)).Nonempty := by
    rw [← extensions_inverse_nonempty]
    rw [← freeValues_inverse] at hx
    exact extensions_cons_nonempty hinv hfresh hx
  have hone := E_extending_inverse hcons fun π => F π⁻¹
  simp only [inv_inv] at hone
  rw [← hone]
  rfl

/-! ### Asking a uniform permutation -/

section

variable (G : σ → Equiv.Perm σ → ℚ)

omit [Inhabited σ] in
theorem E_extending_apply_known (hT : (extensions T).Nonempty) (hxy : (x, y) ∈ T) :
    ((extending T).E fun π => G (π x) π) = (extending T).E (G y) :=
  E_among_congr hT fun π hπ => by rw [mem_extensions.1 hπ _ hxy]

theorem E_extending_apply_fresh (hT : (extensions T).Nonempty) (hx : x ∉ T.map Prod.fst) :
    ((extending T).E fun π => G (π x) π) =
      (among (freeValues T)).E fun y => (extending ((x, y) :: T)).E (G y) := by
  rw [E_extending_fresh hT hx]
  apply E_among_congr (freeValues_nonempty hT hx)
  intro y hy
  exact E_extending_apply_known G (extensions_cons_nonempty hT hx hy) List.mem_cons_self

omit [Inhabited σ] in
theorem E_extending_symm_known (hT : (extensions T).Nonempty) (hxy : (x, y) ∈ T) :
    ((extending T).E fun π => G (π⁻¹ y) π) = (extending T).E (G x) :=
  E_among_congr hT fun π hπ => by
    rw [Equiv.Perm.inv_eq_iff_eq.2 (mem_extensions.1 hπ _ hxy).symm]

theorem E_extending_symm_fresh (hT : (extensions T).Nonempty) (hy : y ∉ T.map Prod.snd) :
    ((extending T).E fun π => G (π⁻¹ y) π) =
      (among (freePoints T)).E fun x => (extending ((x, y) :: T)).E (G x) := by
  rw [E_extending_fresh_inv hT hy]
  apply E_among_congr (freePoints_nonempty hT hy)
  intro x hx
  exact E_extending_symm_known G (extensions_cons_nonempty_inv hT hy hx) List.mem_cons_self

end

end RandomPerm
