import Mathlib.Algebra.BigOperators.Ring.List
import Mathlib.Algebra.Order.BigOperators.Group.List
import Mathlib.Algebra.BigOperators.Ring.Finset
import Mathlib.Data.FinEnum
import Mathlib.Data.Fintype.BigOperators
import Mathlib.Data.Fintype.Prod
import Mathlib.Tactic.Linarith
import Mathlib.Tactic.Ring
import Mathlib.Tactic.FieldSimp
import Mathlib.Tactic.Positivity

/-!
# Finite rational distributions

A `FinDist α` is a finite list of outcomes with nonnegative rational weights of
total one; an outcome may be listed more than once.  Two distributions are
compared through the expectations `E d g`, and `E_bind` reads the expectation
of a program off its text.

`abs_E_sub_le_bad`: two payoffs in `[0, 1]` that differ on a bad event only have
expectations that differ by at most its probability.
-/

structure FinDist (α : Type*) where
  outcomes : List (α × ℚ)
  nonneg : ∀ o ∈ outcomes, 0 ≤ o.2
  total : (outcomes.map Prod.snd).sum = 1

namespace FinDist

/-- The expectation of `g`. -/
def E {α : Type*} (d : FinDist α) (g : α → ℚ) : ℚ := (d.outcomes.map fun o => o.2 * g o.1).sum

/-- The probability of the outcome `a`. -/
def prob {α : Type*} [DecidableEq α] (d : FinDist α) (a : α) : ℚ :=
  d.E fun x => if x = a then 1 else 0

/-- An outcome that is listed. -/
def Supp {α : Type*} (d : FinDist α) (a : α) : Prop := ∃ w, (a, w) ∈ d.outcomes

theorem sum_flatMap {α β : Type*} (l : List α) (f : α → List β) (g : β → ℚ) :
    ((l.flatMap f).map g).sum = (l.map fun x => ((f x).map g).sum).sum := by
  induction l with
  | nil => simp
  | cons x l ih =>
    rw [List.flatMap_cons, List.map_append, List.sum_append, ih, List.map_cons, List.sum_cons]

section

variable {α β : Type*} (d : FinDist α)

theorem E_const (c : ℚ) : d.E (fun _ => c) = c := by
  rw [E, List.sum_map_mul_right, d.total, one_mul]

theorem E_add (g h : α → ℚ) : d.E (fun x => g x + h x) = d.E g + d.E h := by
  simp only [E, mul_add, List.sum_map_add]

theorem E_mul_left (c : ℚ) (g : α → ℚ) : d.E (fun x => c * g x) = c * d.E g := by
  simp only [E, mul_left_comm _ c, List.sum_map_mul_left]

theorem E_mul_right (c : ℚ) (g : α → ℚ) : d.E (fun x => g x * c) = d.E g * c := by
  simp only [mul_comm _ c, E_mul_left]

theorem E_sub (g h : α → ℚ) : d.E (fun x => g x - h x) = d.E g - d.E h := by
  have hneg : d.E (fun x => g x + -1 * h x) = d.E g + -1 * d.E h := by rw [E_add, E_mul_left]
  simpa only [neg_one_mul, ← sub_eq_add_neg] using hneg

theorem E_list_sum (l : List β) (g : β → α → ℚ) :
    d.E (fun x => (l.map fun y => g y x).sum) = (l.map fun y => d.E (g y)).sum := by
  induction l with
  | nil => simpa using d.E_const 0
  | cons y l ih => simp only [List.map_cons, List.sum_cons, E_add, ih]

theorem E_finset_sum (s : Finset β) (g : β → α → ℚ) :
    d.E (fun x => ∑ y ∈ s, g y x) = ∑ y ∈ s, d.E (g y) := by
  classical
  induction s using Finset.induction_on with
  | empty => simpa using d.E_const 0
  | insert y s hy ih => simp only [Finset.sum_insert hy, E_add, ih]

variable {d} in
theorem E_congr {g h : α → ℚ} (hgh : ∀ x, d.Supp x → g x = h x) : d.E g = d.E h := by
  rw [E, E]
  congr 1
  apply List.map_congr_left
  intro o ho
  rw [hgh o.1 ⟨o.2, ho⟩]

variable {d} in
theorem E_mono {g h : α → ℚ} (hgh : ∀ x, d.Supp x → g x ≤ h x) : d.E g ≤ d.E h := by
  apply List.sum_le_sum
  intro o ho
  exact mul_le_mul_of_nonneg_left (hgh o.1 ⟨o.2, ho⟩) (d.nonneg o ho)

variable {d} in
theorem E_nonneg {g : α → ℚ} (hg : ∀ x, d.Supp x → 0 ≤ g x) : 0 ≤ d.E g := by
  rw [← d.E_const 0]
  exact E_mono hg

variable {d} in
theorem E_le_one {g : α → ℚ} (hg : ∀ x, d.Supp x → g x ≤ 1) : d.E g ≤ 1 := by
  rw [← d.E_const 1]
  exact E_mono hg

variable {d} in
/-- Payoffs that are close at each outcome have close expectations. -/
theorem abs_E_sub_le {g h e : α → ℚ} (hgh : ∀ x, d.Supp x → |g x - h x| ≤ e x) :
    |d.E g - d.E h| ≤ d.E e := by
  rw [← E_sub, abs_le]
  refine ⟨?_, E_mono fun x hx => (abs_le.1 (hgh x hx)).2⟩
  have hneg : d.E (fun x => -1 * e x) = -1 * d.E e := E_mul_left d (-1) e
  rw [← neg_one_mul, ← hneg]
  apply E_mono
  intro x hx
  rw [neg_one_mul]
  exact (abs_le.1 (hgh x hx)).1

theorem abs_sub_le_one {a b : ℚ} (ha : 0 ≤ a ∧ a ≤ 1) (hb : 0 ≤ b ∧ b ≤ 1) : |a - b| ≤ 1 := by
  rw [abs_le]
  refine ⟨?_, ?_⟩
  · linarith [ha.1, hb.2]
  · linarith [ha.2, hb.1]

variable {d} in
/-- **Payoffs that differ on a bad event only** differ by at most its probability. -/
theorem abs_E_sub_le_bad {g h : α → ℚ} {bad : α → Bool} (hg : ∀ x, 0 ≤ g x ∧ g x ≤ 1)
    (hh : ∀ x, 0 ≤ h x ∧ h x ≤ 1) (hgood : ∀ x, bad x = false → g x = h x) :
    |d.E g - d.E h| ≤ d.E fun x => if bad x = true then 1 else 0 := by
  apply abs_E_sub_le
  intro x _
  cases hx : bad x with
  | false => simp [hgood x hx]
  | true =>
    rw [if_pos rfl]
    exact abs_sub_le_one (hg x) (hh x)

section

variable [DecidableEq α]

theorem prob_nonneg (a : α) : 0 ≤ d.prob a :=
  E_nonneg fun x _ => by split <;> norm_num

theorem prob_le_one (a : α) : d.prob a ≤ 1 :=
  E_le_one fun x _ => by split <;> norm_num

theorem prob_mem (a : α) : 0 ≤ d.prob a ∧ d.prob a ≤ 1 := ⟨d.prob_nonneg a, d.prob_le_one a⟩

end

end

/-! ### Programs -/

theorem sum_scaled {α β : Type*} (l : List (α × ℚ)) (f : α → FinDist β) :
    ((l.flatMap fun o => (f o.1).outcomes.map fun p => (p.1, o.2 * p.2)).map Prod.snd).sum =
      (l.map Prod.snd).sum := by
  rw [sum_flatMap]
  congr 1
  apply List.map_congr_left
  intro o _
  rw [List.map_map]
  simp only [Function.comp_def]
  rw [List.sum_map_mul_left, (f o.1).total, mul_one]

instance : Monad FinDist where
  pure a := ⟨[(a, 1)], by simp, by simp⟩
  bind d f :=
    { outcomes := d.outcomes.flatMap fun o => (f o.1).outcomes.map fun p => (p.1, o.2 * p.2)
      nonneg := by
        intro o ho
        obtain ⟨o₁, ho₁, p, hp, rfl⟩ : ∃ o₁ ∈ d.outcomes, ∃ p ∈ (f o₁.1).outcomes,
            (p.1, o₁.2 * p.2) = o := by simpa using ho
        exact mul_nonneg (d.nonneg o₁ ho₁) ((f o₁.1).nonneg p hp)
      total := by rw [sum_scaled, d.total] }

section

variable {α β γ : Type}

@[simp] theorem E_pure (a : α) (g : α → ℚ) : (pure a : FinDist α).E g = g a := by
  have hdef : (pure a : FinDist α).outcomes = [(a, 1)] := rfl
  simp [E, hdef]

theorem outcomes_bind (d : FinDist α) (f : α → FinDist β) : (d >>= f).outcomes =
    d.outcomes.flatMap fun o => (f o.1).outcomes.map fun p => (p.1, o.2 * p.2) := rfl

@[simp] theorem E_bind (d : FinDist α) (f : α → FinDist β) (g : β → ℚ) :
    (d >>= f).E g = d.E fun a => (f a).E g := by
  rw [E, outcomes_bind, sum_flatMap, E]
  congr 1
  apply List.map_congr_left
  intro o _
  rw [List.map_map, E, ← List.sum_map_mul_left]
  congr 1
  apply List.map_congr_left
  intro p _
  exact mul_assoc o.2 p.2 (g p.1)

theorem supp_pure {a b : α} : (pure a : FinDist α).Supp b ↔ b = a := by
  have hdef : (pure a : FinDist α).outcomes = [(a, 1)] := rfl
  simp [Supp, hdef]

theorem supp_bind {d : FinDist α} {f : α → FinDist β} {b : β} :
    (d >>= f).Supp b ↔ ∃ a, d.Supp a ∧ (f a).Supp b := by
  simp only [Supp, outcomes_bind, List.mem_flatMap, List.mem_map, Prod.mk.injEq]
  refine ⟨?_, ?_⟩
  · rintro ⟨w, o, ho, p, hp, rfl, -⟩
    exact ⟨o.1, ⟨o.2, ho⟩, p.2, hp⟩
  · rintro ⟨a, ⟨v, hv⟩, w, hw⟩
    exact ⟨v * w, (a, v), hv, (b, w), hw, rfl, rfl⟩

theorem prob_bind [DecidableEq β] (d : FinDist α) (f : α → FinDist β) (b : β) :
    (d >>= f).prob b = d.E fun a => (f a).prob b := E_bind d f _

theorem prob_pure [DecidableEq α] (a b : α) :
    (pure a : FinDist α).prob b = if a = b then 1 else 0 := E_pure a _

/-- Nothing is drawn: the outcome is `a`. -/
def Certain (d : FinDist α) (a : α) : Prop := ∀ g : α → ℚ, d.E g = g a

theorem certain_pure (a : α) : Certain (pure a) a := E_pure a

theorem Certain.bind {d : FinDist α} {f : α → FinDist β} {a : α} {b : β} (hd : Certain d a)
    (hf : Certain (f a) b) : Certain (d >>= f) b := by
  intro g
  rw [E_bind, hd, hf]

/-- Two independent samples may be drawn in either order. -/
theorem E_comm (d : FinDist α) (d' : FinDist β) (g : α → β → ℚ) :
    (d.E fun a => d'.E (g a)) = d'.E fun b => d.E fun a => g a b := by
  have hrow : ∀ a, d'.E (g a) = (d'.outcomes.map fun p => p.2 * g a p.1).sum := fun _ => rfl
  simp only [hrow, E_list_sum, E_mul_left]
  rfl

end

/-! ### Uniform samples -/

section

variable {α : Type*} (l : List α) (h : l ≠ [])

/-- Each entry of the list `l` with the same weight. -/
def uniform : FinDist α where
  outcomes := l.map fun a => (a, (l.length : ℚ)⁻¹)
  nonneg := by
    intro o ho
    obtain ⟨a, -, rfl⟩ := List.mem_map.1 ho
    positivity
  total := by
    have hlen : (l.length : ℚ) ≠ 0 := by simpa using h
    rw [List.map_map]
    simpa [Function.comp_def] using mul_inv_cancel₀ hlen

theorem E_uniform (g : α → ℚ) : (uniform l h).E g = (l.map g).sum / l.length := by
  rw [E, uniform, List.map_map, div_eq_inv_mul, ← List.sum_map_mul_left]
  rfl

end

section

variable (α : Type*) [FinEnum α] [Inhabited α]

/-- A uniform sample of the whole type. -/
def rnd : FinDist α :=
  uniform (FinEnum.toList α) (List.ne_nil_of_mem (FinEnum.mem_toList default))

theorem E_rnd (g : α → ℚ) : (rnd α).E g = (∑ a, g a) / Fintype.card α := by
  classical
  have huniv : (FinEnum.toList α).toFinset = Finset.univ := by
    ext a
    simp
  rw [rnd, E_uniform, ← List.sum_toFinset g FinEnum.nodup_toList, huniv,
    ← List.toFinset_card_of_nodup FinEnum.nodup_toList, huniv, Finset.card_univ]

theorem card_bitVec (k : Nat) : (Fintype.card (BitVec k) : ℚ) = 2 ^ k := by
  rw [← FinEnum.card_eq_fintypeCard, FinEnum.card_bitVec, Nat.cast_pow, Nat.cast_ofNat]

variable {α} in
/-- The parts of a uniform sample are uniform. -/
theorem E_rnd_fst {β γ : Type*} [FinEnum β] [Inhabited β] [FinEnum γ] [Inhabited γ]
    (e : α ≃ β × γ) (g : β → ℚ) : ((rnd α).E fun a => g (e a).1) = (rnd β).E g := by
  have hsum : ∑ a, g (e a).1 = Fintype.card γ * ∑ b, g b := by
    rw [Fintype.sum_equiv e (fun a => g (e a).1) (fun p => g p.1) fun _ => rfl,
      Fintype.sum_prod_type, Finset.mul_sum]
    simp
  have hcard : (Fintype.card α : ℚ) = Fintype.card γ * Fintype.card β := by
    rw [Fintype.card_congr e, Fintype.card_prod, mul_comm, Nat.cast_mul]
  have hγ : (Fintype.card γ : ℚ) ≠ 0 := by exact_mod_cast Fintype.card_ne_zero
  rw [E_rnd, E_rnd, hsum, hcard, mul_div_mul_left _ _ hγ]

variable {α} in
theorem E_rnd_eq [DecidableEq α] (a : α) :
    ((rnd α).E fun x => if x = a then 1 else 0) = 1 / Fintype.card α := by
  rw [E_rnd, Finset.sum_ite_eq' Finset.univ a, if_pos (Finset.mem_univ a)]

variable {α} in
/-- Some `a` has the property no more often than all of them together. -/
theorem exists_le_E_rnd (p : α → Prop) [DecidablePred p] [Decidable (∃ a, p a)] :
    (if ∃ a, p a then (1 : ℚ) else 0) ≤
      Fintype.card α * (rnd α).E fun a => if p a then 1 else 0 := by
  have hα : (Fintype.card α : ℚ) ≠ 0 := by exact_mod_cast Fintype.card_ne_zero
  have hnonneg : ∀ a ∈ Finset.univ, (0 : ℚ) ≤ if p a then 1 else 0 := by
    intro a _
    split <;> norm_num
  rw [E_rnd, mul_div_cancel₀ _ hα]
  by_cases h : ∃ a, p a
  · obtain ⟨a, ha⟩ := h
    rw [if_pos ⟨a, ha⟩]
    have hle := Finset.single_le_sum hnonneg (Finset.mem_univ a)
    rwa [if_pos ha] at hle
  · rw [if_neg h]
    exact Finset.sum_nonneg hnonneg

variable {α} in
/-- A uniform sample of part of the type is close to one of the whole type. -/
theorem abs_E_uniform_sub_le {l : List α} (h : l ≠ []) (hl : l.Nodup) {g : α → ℚ}
    (hg : ∀ a, 0 ≤ g a ∧ g a ≤ 1) :
    |(uniform l h).E g - (rnd α).E g| ≤ (Fintype.card α - l.length) / Fintype.card α := by
  classical
  set a := ∑ x ∈ l.toFinset, g x with ha
  set b := ∑ x ∈ l.toFinsetᶜ, g x with hb
  have hin : (uniform l h).E g = a / l.length := by rw [E_uniform, ← List.sum_toFinset g hl]
  have hall : (rnd α).E g = (a + b) / Fintype.card α := by
    rw [E_rnd, ha, hb, Finset.sum_add_sum_compl]
  have hrest : (l.toFinsetᶜ.card : ℚ) = Fintype.card α - l.length := by
    rw [Finset.card_compl, List.toFinset_card_of_nodup hl, Nat.cast_sub]
    rw [← List.toFinset_card_of_nodup hl]
    exact Finset.card_le_univ _
  have ha1 : a ≤ l.length := by
    have hle : a ≤ l.toFinset.card • (1 : ℚ) := Finset.sum_le_card_nsmul _ _ _ fun x _ => (hg x).2
    simpa [List.toFinset_card_of_nodup hl] using hle
  have hb1 : b ≤ Fintype.card α - l.length := by
    have hle : b ≤ l.toFinsetᶜ.card • (1 : ℚ) := Finset.sum_le_card_nsmul _ _ _ fun x _ => (hg x).2
    rw [nsmul_eq_mul, mul_one, hrest] at hle
    exact hle
  have ha0 : 0 ≤ a := Finset.sum_nonneg fun x _ => (hg x).1
  have hb0 : 0 ≤ b := Finset.sum_nonneg fun x _ => (hg x).1
  have hlen : 0 < (l.length : ℚ) := by exact_mod_cast List.length_pos_iff.2 h
  rw [hin, hall]
  generalize (Fintype.card α : ℚ) = N at *
  generalize (l.length : ℚ) = M at *
  have hN : 0 < N := by linarith
  have hdiff : a / M - (a + b) / N = (a / M * (N - M) - b) / N := by
    field_simp
    ring
  have hfrac : a / M ≤ 1 := (div_le_one hlen).2 ha1
  have hfrac0 : 0 ≤ a / M := div_nonneg ha0 hlen.le
  have hNM : 0 ≤ N - M := by linarith
  rw [hdiff, abs_div, abs_of_pos hN]
  apply div_le_div_of_nonneg_right _ hN.le
  rw [abs_le]
  refine ⟨?_, ?_⟩
  · linarith [mul_nonneg hfrac0 hNM]
  · linarith [mul_le_mul_of_nonneg_right hfrac hNM]

end

end FinDist
