import AsconDtls.Lib.FinDist

/-!
# Programs that query an oracle

An `Adv` is a program that draws samples, queries an oracle and returns a bit.  `AtMost`,
`AtMostOf` and `Pairwise` are about its queries on every path, whatever the answers.
`Follows` compares two oracles query by query: while their memories stay in the
relation `R`, the `j`-th query loses at most `ε j`.  `run_sub_le` adds the
losses up along a run; `Answers` is the case of two oracles that draw nothing.

`lazyFun` draws a function as it is asked for, `lazyPerm` draws without
replacement; `lazyPerm_follows` is the loss of taking the one for the other.
-/

namespace OracleGame

open FinDist

/-- A program that queries an oracle on `ι` with answers in `ο`. -/
inductive Adv (ι ο : Type)
  | ret (b : Bool)
  | sample (d : FinDist Nat) (next : Nat → Adv ι ο)
  | query (x : ι) (next : ο → Adv ι ο)

/-- A procedure with the memory it keeps between calls. -/
abbrev Oracle (ι ο μ : Type) := ι → μ → FinDist (ο × μ)

variable {ι ο μ μ' : Type}

namespace Adv

/-- At most `q` queries on every path. -/
def AtMost : Adv ι ο → Nat → Prop
  | ret _, _ => True
  | sample _ next, q => ∀ x, (next x).AtMost q
  | query _ _, 0 => False
  | query _ next, q + 1 => ∀ y, (next y).AtMost q

/-- At most `q` queries of the kind `p` on every path. -/
def AtMostOf (p : ι → Bool) : Adv ι ο → Nat → Prop
  | ret _, _ => True
  | sample _ next, q => ∀ x, (next x).AtMostOf p q
  | query x next, q =>
    match p x, q with
    | false, q => ∀ y, (next y).AtMostOf p q
    | true, 0 => False
    | true, q + 1 => ∀ y, (next y).AtMostOf p q

/-- On every path each label stands in `R` to the labels before it; `used` are those seen. -/
def Pairwise {η : Type} (R : η → η → Prop) (label : ι → Option η) : Adv ι ο → List η → Prop
  | ret _, _ => True
  | sample _ next, used => ∀ x, (next x).Pairwise R label used
  | query x next, used =>
    match label x with
    | none => ∀ y, (next y).Pairwise R label used
    | some k => (∀ k' ∈ used, R k' k) ∧ ∀ y, (next y).Pairwise R label (k :: used)

def run (O : Oracle ι ο μ) : Adv ι ο → μ → FinDist Bool
  | ret b, _ => pure b
  | sample d next, m => do
    let x ← d
    (next x).run O m
  | query x next, m => do
    let (y, m) ← O x m
    (next y).run O m

section

variable (O : Oracle ι ο μ) (m : μ)

theorem prob_run_ret (b : Bool) : ((ret b).run O m).prob true = if b = true then 1 else 0 :=
  prob_pure b true

theorem prob_run_sample (d : FinDist Nat) (next : Nat → Adv ι ο) :
    ((sample d next).run O m).prob true = d.E fun x => ((next x).run O m).prob true :=
  prob_bind d _ true

theorem prob_run_query (x : ι) (next : ο → Adv ι ο) : ((query x next).run O m).prob true =
    (O x m).E fun p => ((next p.1).run O p.2).prob true := prob_bind _ _ true

end

theorem atMostOf_other {p : ι → Bool} {x : ι} {next : ο → Adv ι ο} {q : Nat} (hp : p x = false) :
    (query x next).AtMostOf p q ↔ ∀ y, (next y).AtMostOf p q := by
  rw [AtMostOf.eq_def]
  simp only [hp]

theorem atMostOf_kind {p : ι → Bool} {x : ι} {next : ο → Adv ι ο} {q : Nat} (hp : p x = true) :
    (query x next).AtMostOf p q ↔ ∃ q', q = q' + 1 ∧ ∀ y, (next y).AtMostOf p q' := by
  rw [AtMostOf.eq_def]
  cases q with
  | zero => simp [hp]
  | succ q => simp [hp]

section

variable {η : Type} {R : η → η → Prop} {label : ι → Option η} {x : ι} {next : ο → Adv ι ο}
  {used : List η}

theorem pairwise_other (hx : label x = none) :
    (query x next).Pairwise R label used ↔ ∀ y, (next y).Pairwise R label used := by
  rw [Pairwise.eq_def]
  simp only [hx]

theorem pairwise_labelled {k : η} (hx : label x = some k) :
    (query x next).Pairwise R label used ↔
      (∀ k' ∈ used, R k' k) ∧ ∀ y, (next y).Pairwise R label (k :: used) := by
  rw [Pairwise.eq_def]
  simp only [hx]

end

theorem AtMost.mono {A : Adv ι ο} {q q' : Nat} (h : A.AtMost q) (hq : q ≤ q') : A.AtMost q' := by
  induction A generalizing q q' with
  | ret b => trivial
  | sample d next ih =>
    intro x
    exact ih x (h x) hq
  | query x next ih =>
    cases q with
    | zero => exact h.elim
    | succ q =>
      obtain ⟨q'', rfl⟩ : ∃ q'', q' = q'' + 1 := ⟨q' - 1, by omega⟩
      intro y
      exact ih y (h y) (by omega)

end Adv

/-- The oracle `O` follows `O'` for `q` queries: from memories that `R j` relates, payoffs that
are within `δ` on related memories after the query are within `δ + ε j` before it. -/
def Follows (O : Oracle ι ο μ) (O' : Oracle ι ο μ') (R : Nat → μ → μ' → Prop) (ε : Nat → ℚ)
    (q : Nat) : Prop :=
  ∀ j < q, ∀ x m m', R j m m' → ∀ (g : ο × μ → ℚ) (g' : ο × μ' → ℚ) (δ : ℚ),
    (∀ p, 0 ≤ g p ∧ g p ≤ 1) → (∀ p, 0 ≤ g' p ∧ g' p ≤ 1) →
    (∀ y n n', R (j + 1) n n' → |g (y, n) - g' (y, n')| ≤ δ) →
    |(O x m).E g - (O' x m').E g'| ≤ δ + ε j

namespace Follows

variable {O : Oracle ι ο μ} {O' : Oracle ι ο μ'} {R : Nat → μ → μ' → Prop} {ε : Nat → ℚ} {q : Nat}

/-- **The losses of the single queries add up along a run.** -/
theorem run_sub_le (h : Follows O O' R ε q) (hε : ∀ j, 0 ≤ ε j) {A : Adv ι ο} {n j : Nat}
    (hA : A.AtMost n) (hj : j + n ≤ q) {m : μ} {m' : μ'} (hR : R j m m') :
    |(A.run O m).prob true - (A.run O' m').prob true| ≤ ∑ i ∈ Finset.range n, ε (j + i) := by
  induction A generalizing n j m m' with
  | ret b =>
    rw [Adv.prob_run_ret, Adv.prob_run_ret, sub_self, abs_zero]
    exact Finset.sum_nonneg fun i _ => hε _
  | sample d next ih =>
    rw [Adv.prob_run_sample, Adv.prob_run_sample]
    refine (abs_E_sub_le fun x _ => ih x (hA x) hj hR).trans ?_
    rw [E_const]
  | query x next ih =>
    cases n with
    | zero => exact hA.elim
    | succ n =>
      have hlt : j < q := by omega
      have hnext : ∀ y k k', R (j + 1) k k' →
          |((next y).run O k).prob true - ((next y).run O' k').prob true| ≤
            ∑ i ∈ Finset.range n, ε (j + 1 + i) :=
        fun y k k' hR' => ih y (hA y) (by omega) hR'
      have hshift : ∑ i ∈ Finset.range (n + 1), ε (j + i) =
          (∑ i ∈ Finset.range n, ε (j + 1 + i)) + ε j := by
        rw [Finset.sum_range_succ', Nat.add_zero]
        congr 1
        apply Finset.sum_congr rfl
        intro i _
        rw [Nat.add_assoc, Nat.add_comm 1 i]
      rw [hshift, Adv.prob_run_query, Adv.prob_run_query]
      exact h j hlt x m m' hR _ _ _ (fun p => prob_mem _ _) (fun p => prob_mem _ _) hnext

/-- Oracles that lose nothing are the same to every program. -/
theorem run_eq (h : Follows O O' R (fun _ => 0) q) {A : Adv ι ο} (hA : A.AtMost q) {m : μ}
    {m' : μ'} (hR : R 0 m m') : (A.run O m).prob true = (A.run O' m').prob true := by
  have hle := h.run_sub_le (fun _ => le_rfl) hA (by omega) hR
  rw [Finset.sum_const_zero] at hle
  exact sub_eq_zero.1 (abs_eq_zero.1 (le_antisymm hle (abs_nonneg _)))

end Follows

/-! ### Oracles that answer alike -/

/-- `O` answers as `O'` does, whatever is in its memory, and keeps the memories related. -/
def Answers (O : Oracle ι ο μ) (O' : Oracle ι ο μ') (R : μ → μ' → Prop) : Prop :=
  ∀ x m m', R m m' → ∃ y n n', Certain (O x m) (y, n) ∧ Certain (O' x m') (y, n') ∧ R n n'

theorem Answers.run_eq {O : Oracle ι ο μ} {O' : Oracle ι ο μ'} {R : μ → μ' → Prop}
    (h : Answers O O' R) {m : μ} {m' : μ'} (hR : R m m') (A : Adv ι ο) :
    (A.run O m).prob true = (A.run O' m').prob true := by
  induction A generalizing m m' with
  | ret b => rfl
  | sample d next ih =>
    simp only [Adv.prob_run_sample]
    congr 1
    funext x
    exact ih x hR
  | query x next ih =>
    obtain ⟨y, n, n', hO, hO', hn⟩ := h x m m' hR
    rw [Adv.prob_run_query, Adv.prob_run_query, hO, hO']
    exact ih y hn

/-! ### Queries rewritten -/

section

variable {ι' : Type} (g : ι → ι')

/-- Every query goes through `g` first. -/
def Adv.map : Adv ι ο → Adv ι' ο
  | .ret b => .ret b
  | .sample d next => .sample d fun x => (next x).map
  | .query x next => .query (g x) fun y => (next y).map

variable {g}

theorem Adv.AtMostOf.map {p : ι → Bool} {p' : ι' → Bool} (hp : ∀ x, p' (g x) = p x)
    {A : Adv ι ο} {q : Nat} (h : A.AtMostOf p q) : (A.map g).AtMostOf p' q := by
  induction A generalizing q with
  | ret b => trivial
  | sample d next ih =>
    intro x
    exact ih x (h x)
  | query x next ih =>
    cases hx : p x with
    | false =>
      have hnext := (atMostOf_other hx).1 h
      exact (atMostOf_other ((hp x).trans hx)).2 fun y => ih y (hnext y)
    | true =>
      obtain ⟨q', rfl, hnext⟩ := (atMostOf_kind hx).1 h
      exact (atMostOf_kind ((hp x).trans hx)).2 ⟨q', rfl, fun y => ih y (hnext y)⟩

/-- Labels that `e` carries along stay in relation where `e` keeps the relation. -/
theorem Adv.Pairwise.map {η η' : Type} {R : η → η → Prop} {R' : η' → η' → Prop} {e : η → η'}
    {label : ι → Option η} {label' : ι' → Option η'} (hlabel : ∀ x, label' (g x) = (label x).map e)
    (hR : ∀ k' k, R k' k → R' (e k') (e k)) {A : Adv ι ο} {used : List η}
    (h : A.Pairwise R label used) : (A.map g).Pairwise R' label' (used.map e) := by
  induction A generalizing used with
  | ret b => trivial
  | sample d next ih =>
    intro x
    exact ih x (h x)
  | query x next ih =>
    have hx' := hlabel x
    cases hx : label x with
    | none =>
      rw [hx] at hx'
      have hnext := (pairwise_other hx).1 h
      exact (pairwise_other hx').2 fun y => ih y (hnext y)
    | some k =>
      rw [hx] at hx'
      obtain ⟨hk, hnext⟩ := (pairwise_labelled hx).1 h
      refine (pairwise_labelled hx').2 ⟨?_, fun y => ih y (hnext y)⟩
      intro k' hk'
      obtain ⟨j, hj, rfl⟩ := List.mem_map.1 hk'
      exact hR j k (hk j hj)

end

/-! ### A function beside an oracle -/

section

variable {ι' ο' : Type} (f : ι' → ο')

/-- Queries on the right are answered by `f`. -/
def beside (O : Oracle ι ο μ) : Oracle (ι ⊕ ι') (ο ⊕ ο') μ
  | .inl x, m => do
    let (y, m) ← O x m
    pure (.inl y, m)
  | .inr z, m => pure (.inr (f z), m)

/-- The program answers these queries itself. -/
def Adv.answer : Adv (ι ⊕ ι') (ο ⊕ ο') → Adv ι ο
  | .ret b => .ret b
  | .sample d next => .sample d fun x => (next x).answer
  | .query (.inl x) next => .query x fun y => (next (.inl y)).answer
  | .query (.inr z) next => (next (.inr (f z))).answer

theorem Adv.AtMostOf.answer {p : ι → Bool} {A : Adv (ι ⊕ ι') (ο ⊕ ο')} {q : Nat}
    (h : A.AtMostOf (Sum.elim p fun _ => false) q) : (A.answer f).AtMostOf p q := by
  induction A generalizing q with
  | ret b => trivial
  | sample d next ih =>
    intro x
    exact ih x (h x)
  | query x next ih =>
    cases x with
    | inl x =>
      have hsum : Sum.elim p (fun _ : ι' => false) (.inl x) = p x := rfl
      cases hp : p x with
      | false =>
        have hnext := (atMostOf_other (hsum.trans hp)).1 h
        exact (atMostOf_other hp).2 fun y => ih _ (hnext _)
      | true =>
        obtain ⟨q', rfl, hnext⟩ := (atMostOf_kind (hsum.trans hp)).1 h
        exact (atMostOf_kind hp).2 ⟨q', rfl, fun y => ih _ (hnext _)⟩
    | inr z =>
      have hnext := (atMostOf_other rfl).1 h
      exact ih _ (hnext (.inr (f z)))

theorem Adv.Pairwise.answer {η : Type} {R : η → η → Prop} {label : ι → Option η}
    {A : Adv (ι ⊕ ι') (ο ⊕ ο')} {used : List η}
    (h : A.Pairwise R (Sum.elim label fun _ => none) used) :
    (A.answer f).Pairwise R label used := by
  induction A generalizing used with
  | ret b => trivial
  | sample d next ih =>
    intro x
    exact ih x (h x)
  | query x next ih =>
    cases x with
    | inl x =>
      have hsum : Sum.elim label (fun _ : ι' => none) (.inl x) = label x := rfl
      cases hx : label x with
      | none =>
        have hnext := (pairwise_other (hsum.trans hx)).1 h
        exact (pairwise_other hx).2 fun y => ih _ (hnext _)
      | some k =>
        obtain ⟨hk, hnext⟩ := (pairwise_labelled (hsum.trans hx)).1 h
        exact (pairwise_labelled hx).2 ⟨hk, fun y => ih _ (hnext _)⟩
    | inr z =>
      have hnext := (pairwise_other rfl).1 h
      exact ih _ (hnext (.inr (f z)))

theorem prob_run_beside (O : Oracle ι ο μ) (A : Adv (ι ⊕ ι') (ο ⊕ ο')) (m : μ) :
    (A.run (beside f O) m).prob true = ((A.answer f).run O m).prob true := by
  induction A generalizing m with
  | ret b => rfl
  | sample d next ih => simp only [Adv.answer, Adv.prob_run_sample, ih]
  | query x next ih =>
    cases x with
    | inl x => simp only [Adv.answer, Adv.prob_run_query, beside, E_bind, E_pure, ih]
    | inr z => simp only [Adv.answer, Adv.prob_run_query, beside, E_pure, ih]

end

/-! ### Functions drawn as they are asked for -/

section Lazy

variable [DecidableEq ι]

/-- A function drawn as it is asked for: `pick t` draws a new value after the table `t`. -/
def lazyOracle (pick : List (ι × ο) → FinDist ο) : Oracle ι ο (List (ι × ο)) := fun x t =>
  match t.lookup x with
  | some y => pure (y, t)
  | none => do
    let y ← pick t
    pure (y, (x, y) :: t)

variable (pick : List (ι × ο) → FinDist ο) {x : ι} {t : List (ι × ο)}

theorem lazyOracle_hit {y : ο} (hx : t.lookup x = some y) (g : ο × List (ι × ο) → ℚ) :
    (lazyOracle pick x t).E g = g (y, t) := by
  simp only [lazyOracle, hx, E_pure]

theorem lazyOracle_fresh (hx : t.lookup x = none) (g : ο × List (ι × ο) → ℚ) :
    (lazyOracle pick x t).E g = (pick t).E fun y => g (y, (x, y) :: t) := by
  simp only [lazyOracle, hx, E_bind, E_pure]

end Lazy

/-- The values that the table has not used. -/
def unused [FinEnum ο] (t : List (ι × ο)) : List ο :=
  (FinEnum.toList ο).filter fun y => y ∉ t.map Prod.snd

theorem length_unused [FinEnum ο] (t : List (ι × ο)) :
    Fintype.card ο - t.length ≤ (unused t).length := by
  classical
  have hsub : Finset.univ ⊆ (unused t).toFinset ∪ (t.map Prod.snd).toFinset := by
    intro y _
    by_cases hy : y ∈ t.map Prod.snd
    · exact Finset.mem_union_right _ (List.mem_toFinset.2 hy)
    · apply Finset.mem_union_left
      simpa [unused] using hy
  have hcard := (Finset.card_le_card hsub).trans (Finset.card_union_le _ _)
  have hunused : (unused t).toFinset.card ≤ (unused t).length := List.toFinset_card_le _
  have hused : (t.map Prod.snd).toFinset.card ≤ t.length :=
    (List.toFinset_card_le _).trans_eq (List.length_map _)
  rw [Finset.card_univ] at hcard
  omega

section Lazy

variable [FinEnum ο] [Inhabited ο]

/-- A uniform entry of a list. -/
def draw (l : List ο) : FinDist ο := if h : l ≠ [] then uniform l h else pure default

/-- A draw from the unused values is close to a uniform one. -/
theorem abs_E_draw_sub_le {t : List (ι × ο)} {j : Nat} (ht : t.length ≤ j)
    (hj : j < Fintype.card ο) {g : ο → ℚ} (hg : ∀ y, 0 ≤ g y ∧ g y ≤ 1) :
    |(draw (unused t)).E g - (rnd ο).E g| ≤ j / Fintype.card ο := by
  have hlen := length_unused t
  have hne : unused t ≠ [] := by
    rw [← List.length_pos_iff]
    omega
  rw [draw, dif_pos hne]
  refine (abs_E_uniform_sub_le hne (FinEnum.nodup_toList.filter _) hg).trans ?_
  apply div_le_div_of_nonneg_right _ (Nat.cast_nonneg _)
  have hcast : (Fintype.card ο : ℚ) ≤ (unused t).length + j := by exact_mod_cast (by omega)
  linarith

variable (ι ο) [DecidableEq ι]

/-- A uniform function, one value at a time. -/
def lazyFun : Oracle ι ο (List (ι × ο)) := lazyOracle fun _ => rnd ο

/-- A uniform permutation, one value at a time: the values are drawn without replacement. -/
def lazyPerm : Oracle ι ο (List (ι × ο)) := lazyOracle fun t => draw (unused t)

/-- **A permutation for a function**: the `j`-th query loses the chance of hitting one of `j`
used values. -/
theorem lazyPerm_follows {q : Nat} (hq : q ≤ Fintype.card ο) :
    Follows (lazyPerm ι ο) (lazyFun ι ο) (fun j t t' => t = t' ∧ t.length ≤ j)
      (fun j => j / Fintype.card ο) q := by
  unfold lazyPerm lazyFun
  rintro j hj x t t' ⟨rfl, ht⟩ g g' δ hg hg' hδ
  have hε : (0 : ℚ) ≤ j / Fintype.card ο := by positivity
  cases hx : List.lookup x t with
  | some y =>
    rw [lazyOracle_hit _ hx, lazyOracle_hit _ hx]
    exact (hδ y t t ⟨rfl, ht.trans (Nat.le_succ j)⟩).trans (le_add_of_nonneg_right hε)
  | none =>
    rw [lazyOracle_fresh _ hx, lazyOracle_fresh _ hx]
    have hdraw := abs_E_draw_sub_le ht (hj.trans_le hq) fun y => hg (y, (x, y) :: t)
    have hsame : |((rnd ο).E fun y => g (y, (x, y) :: t)) -
        (rnd ο).E fun y => g' (y, (x, y) :: t)| ≤ δ := by
      rw [← (rnd ο).E_const δ]
      apply abs_E_sub_le
      intro y _
      exact hδ y _ _ ⟨rfl, Nat.succ_le_succ ht⟩
    rw [add_comm]
    exact (abs_sub_le _ _ _).trans (add_le_add hdraw hsame)

end Lazy

end OracleGame
