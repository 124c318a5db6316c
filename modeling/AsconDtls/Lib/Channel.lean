import AsconDtls.Lib.Oracle

/-!
# Channels over authenticated encryption

A program may have plaintexts encrypted and ciphertexts decrypted.  The worlds:

* `real`: both are done with the key;
* `closed O`: the oracle `O` encrypts, and nothing but its ciphertexts is decrypted.

They part when a program forges (`real_sub_closed_le`).  A program with `q` attempts
forges no more often than the `q` programs `attempt i` with one attempt each do
together (`forges_le_sum`), and `closed` needs no key to decrypt, so the rest is up to
a program that only encrypts (`run_closed`).  `channel_le` puts this together.
-/

namespace Channel

open FinDist OracleGame

/-- `ν` is what both sides know of a message, its nonce for example. -/
structure Scheme (κ ν π γ : Type) where
  encrypt : κ → ν → π → γ
  decrypt : κ → ν → γ → Option π
  decrypt_encrypt : ∀ k n p, decrypt k n (encrypt k n p) = some p

inductive Query (ν π γ : Type)
  | encrypt (n : ν) (p : π)
  | decrypt (n : ν) (c : γ)

inductive Answer (π γ : Type)
  | encrypted (c : γ)
  | decrypted (p : Option π)

variable {κ ν π γ μ μ' : Type}

/-- What has been encrypted, with its plaintext. -/
abbrev Log (ν π γ : Type) := List ((ν × γ) × π)

abbrev Program (ν π γ : Type) := Adv (Query ν π γ) (Answer π γ)

def Query.isDecrypt : Query ν π γ → Bool
  | .encrypt _ _ => false
  | .decrypt _ _ => true

/-- At most `q` attempts to decrypt on every path. -/
abbrev AttemptsAtMost (A : Program ν π γ) (q : Nat) : Prop := A.AtMostOf Query.isDecrypt q

/-! ### The worlds -/

/-- Encrypting and decrypting with the key `k`. -/
def real (S : Scheme κ ν π γ) (k : κ) : Oracle (Query ν π γ) (Answer π γ) Unit
  | .encrypt n p, m => pure (.encrypted (S.encrypt k n p), m)
  | .decrypt n c, m => pure (.decrypted (S.decrypt k n c), m)

/-- Encryption alone. -/
def encrypting (S : Scheme κ ν π γ) (k : κ) : Oracle (ν × π) γ Unit := fun x m =>
  pure (S.encrypt k x.1 x.2, m)

variable [DecidableEq ν] [DecidableEq γ]

/-- `O` encrypts; what it has not encrypted is refused. -/
def closed (O : Oracle (ν × π) γ μ) : Oracle (Query ν π γ) (Answer π γ) (μ × Log ν π γ)
  | .encrypt n p, (m, L) => do
    let (c, m) ← O (n, p) m
    pure (.encrypted c, (m, ((n, c), p) :: L))
  | .decrypt n c, (m, L) => pure (.decrypted (L.lookup (n, c)), (m, L))

/-- The log after a query and its answer. -/
def note (L : Log ν π γ) : Query ν π γ → Answer π γ → Log ν π γ
  | .encrypt n p, .encrypted c => ((n, c), p) :: L
  | _, _ => L

/-- Something is decrypted that was not encrypted before. -/
def forged (L : Log ν π γ) : Query ν π γ → Answer π γ → Bool
  | .decrypt n c, .decrypted (some _) => (L.lookup (n, c)).isNone
  | _, _ => false

/-- The program is run against `O` until it forges. -/
def forges (O : Oracle (Query ν π γ) (Answer π γ) μ) :
    Program ν π γ → μ → Log ν π γ → FinDist Bool
  | .ret _, _, _ => pure false
  | .sample d next, m, L => do
    let x ← d
    forges O (next x) m L
  | .query x next, m, L => do
    let (y, m) ← O x m
    if forged L x y then pure true else forges O (next y) m (note L x y)

/-! ### The programs of the reductions -/

/-- The program with its attempt `i` alone: replays are answered from the log, the attempts before
it as refused. -/
def attempt : Nat → Program ν π γ → Log ν π γ → Program ν π γ
  | _, .ret _, _ => .ret false
  | i, .sample d next, L => .sample d fun x => attempt i (next x) L
  | i, .query (.encrypt n p) next, L => .query (.encrypt n p) fun
    | .encrypted c => attempt i (next (.encrypted c)) (((n, c), p) :: L)
    | .decrypted _ => .ret false
  | i, .query (.decrypt n c) next, L =>
    match L.lookup (n, c) with
    | some p => attempt i (next (.decrypted (some p))) L
    | none =>
      match i with
      | 0 => .query (.decrypt n c) fun _ => .ret false
      | i + 1 => attempt i (next (.decrypted none)) L

/-- The program with its attempts answered from the log. -/
def encryptOnly : Program ν π γ → Log ν π γ → Adv (ν × π) γ
  | .ret b, _ => .ret b
  | .sample d next, L => .sample d fun x => encryptOnly (next x) L
  | .query (.encrypt n p) next, L => .query (n, p) fun c =>
    encryptOnly (next (.encrypted c)) (((n, c), p) :: L)
  | .query (.decrypt n c) next, L => encryptOnly (next (.decrypted (L.lookup (n, c)))) L

section

variable {L : Log ν π γ} {n : ν} {c : γ} (next : Answer π γ → Program ν π γ)

theorem attempt_replay (i : Nat) {p : π} (hc : L.lookup (n, c) = some p) :
    attempt i (.query (.decrypt n c) next) L = attempt i (next (.decrypted (some p))) L := by
  cases i with
  | zero => simp only [attempt, hc]
  | succ i => simp only [attempt, hc]

theorem attempt_zero (hc : L.lookup (n, c) = none) :
    attempt 0 (.query (.decrypt n c) next) L = .query (.decrypt n c) fun _ => .ret false := by
  simp only [attempt, hc]

theorem attempt_succ (i : Nat) (hc : L.lookup (n, c) = none) :
    attempt (i + 1) (.query (.decrypt n c) next) L = attempt i (next (.decrypted none)) L := by
  simp only [attempt, hc]

end

theorem attempt_attemptsAtMost (i : Nat) (A : Program ν π γ) (L : Log ν π γ) :
    AttemptsAtMost (attempt i A L) 1 := by
  induction A generalizing i L with
  | ret b => exact trivial
  | sample d next ih =>
    simp only [attempt]
    exact fun x => ih x i L
  | query x next ih =>
    cases x with
    | encrypt n p =>
      simp only [attempt]
      intro y
      cases y with
      | encrypted c => exact ih _ i _
      | decrypted p => exact trivial
    | decrypt n c =>
      cases hc : L.lookup (n, c) with
      | some p =>
        rw [attempt_replay next i hc]
        exact ih _ i L
      | none =>
        cases i with
        | zero =>
          rw [attempt_zero next hc]
          exact fun _ => trivial
        | succ i =>
          rw [attempt_succ next i hc]
          exact ih _ i L

/-! ### What is encrypted -/

/-- What an encryption is about. -/
def Query.message : Query ν π γ → Option (ν × π)
  | .encrypt n p => some (n, p)
  | .decrypt _ _ => none

section

variable {R : ν × π → ν × π → Prop} {A : Program ν π γ} {used : List (ν × π)}

/-- **Encrypting only, the program keeps its messages in relation.** -/
theorem encryptOnly_pairwise (h : A.Pairwise R Query.message used) (L : Log ν π γ) :
    (encryptOnly A L).Pairwise R some used := by
  induction A generalizing used L with
  | ret b => trivial
  | sample d next ih =>
    intro x
    exact ih x (h x) L
  | query x next ih =>
    cases x with
    | encrypt n p => exact ⟨h.1, fun c => ih _ (h.2 _) _⟩
    | decrypt n c => exact ih _ (h _) L

/-- **So do the programs with one attempt.** -/
theorem attempt_pairwise (i : Nat) (h : A.Pairwise R Query.message used) (L : Log ν π γ) :
    (attempt i A L).Pairwise R Query.message used := by
  induction A generalizing i used L with
  | ret b => trivial
  | sample d next ih =>
    simp only [attempt]
    exact fun x => ih x i (h x) L
  | query x next ih =>
    cases x with
    | encrypt n p =>
      simp only [attempt]
      refine ⟨h.1, ?_⟩
      intro y
      cases y with
      | encrypted c => exact ih _ i (h.2 _) _
      | decrypted p => trivial
    | decrypt n c =>
      cases hc : L.lookup (n, c) with
      | some p =>
        rw [attempt_replay next i hc]
        exact ih _ i (h _) L
      | none =>
        cases i with
        | zero =>
          rw [attempt_zero next hc]
          exact fun _ => trivial
        | succ i =>
          rw [attempt_succ next i hc]
          exact ih _ i (h _) L

end

/-! ### Forging against a scheme -/

section

variable (O : Oracle (Query ν π γ) (Answer π γ) μ) (m : μ) (L : Log ν π γ)

theorem prob_forges_sample (d : FinDist Nat) (next : Nat → Program ν π γ) :
    (forges O (.sample d next) m L).prob true = d.E fun x => (forges O (next x) m L).prob true := by
  rw [forges, prob_bind]

theorem prob_forges_query (x : Query ν π γ) (next : Answer π γ → Program ν π γ) :
    (forges O (.query x next) m L).prob true = (O x m).E fun p =>
      if forged L x p.1 then 1 else (forges O (next p.1) p.2 (note L x p.1)).prob true := by
  rw [forges, prob_bind]
  congr 1
  funext ⟨y, m'⟩
  by_cases hy : forged L x y = true
  · simp only [if_pos hy, prob_pure]
    rfl
  · simp only [if_neg hy]

end

/-- The log holds what the scheme encrypts. -/
def Consistent (S : Scheme κ ν π γ) (k : κ) (L : Log ν π γ) : Prop :=
  ∀ e ∈ L, e.1.2 = S.encrypt k e.1.1 e.2

section

variable {S : Scheme κ ν π γ} {k : κ} {L : Log ν π γ} {n : ν} {c : γ}
  {next : Answer π γ → Program ν π γ}

omit [DecidableEq ν] [DecidableEq γ] in
theorem Consistent.cons (h : Consistent S k L) (n : ν) (p : π) :
    Consistent S k (((n, S.encrypt k n p), p) :: L) := by
  intro e he
  rcases List.mem_cons.1 he with rfl | he
  · rfl
  · exact h e he

/-- What was encrypted decrypts to what is in the log. -/
theorem Consistent.decrypt_eq (h : Consistent S k L) {p : π} (hc : L.lookup (n, c) = some p) :
    S.decrypt k n c = some p := by
  obtain ⟨l₁, l₂, rfl, -⟩ := List.lookup_eq_some_iff.1 hc
  have hcp : c = S.encrypt k n p := h ((n, c), p) (List.mem_append_right _ List.mem_cons_self)
  rw [hcp, S.decrypt_encrypt]

theorem prob_forges_encrypt (p : π) :
    (forges (real S k) (.query (.encrypt n p) next) () L).prob true =
      (forges (real S k) (next (.encrypted (S.encrypt k n p))) ()
        (((n, S.encrypt k n p), p) :: L)).prob true := by
  rw [prob_forges_query, real, E_pure]
  rfl

theorem prob_forges_replay (h : Consistent S k L) {p : π} (hc : L.lookup (n, c) = some p) :
    (forges (real S k) (.query (.decrypt n c) next) () L).prob true =
      (forges (real S k) (next (.decrypted (some p))) () L).prob true := by
  rw [prob_forges_query, real, E_pure, h.decrypt_eq hc]
  simp only [forged, hc, Option.isNone_some, Bool.false_eq_true, if_false]
  rfl

theorem prob_forges_refused (hd : S.decrypt k n c = none) :
    (forges (real S k) (.query (.decrypt n c) next) () L).prob true =
      (forges (real S k) (next (.decrypted none)) () L).prob true := by
  rw [prob_forges_query, real, E_pure, hd]
  rfl

theorem prob_forges_forgery {p : π} (hc : L.lookup (n, c) = none) (hd : S.decrypt k n c = some p) :
    (forges (real S k) (.query (.decrypt n c) next) () L).prob true = 1 := by
  rw [prob_forges_query, real, E_pure, hd]
  simp only [forged, hc, Option.isNone_none, if_true]

/-- **Many attempts forge no more often than single ones together.** -/
theorem forges_le_sum {A : Program ν π γ} {q : Nat} (hA : AttemptsAtMost A q)
    (h : Consistent S k L) : (forges (real S k) A () L).prob true ≤
      ∑ i ∈ Finset.range q, (forges (real S k) (attempt i A L) () L).prob true := by
  induction A generalizing q L with
  | ret b =>
    rw [forges, prob_pure, if_neg Bool.false_ne_true]
    exact Finset.sum_nonneg fun i _ => prob_nonneg _ _
  | sample d next ih =>
    simp only [attempt, prob_forges_sample]
    rw [← E_finset_sum]
    exact E_mono fun x _ => ih x (hA x) h
  | query x next ih =>
    cases x with
    | encrypt n p =>
      simp only [attempt, prob_forges_encrypt]
      exact ih _ (hA _) (h.cons n p)
    | decrypt n c =>
      cases q with
      | zero => exact hA.elim
      | succ q =>
        cases hc : L.lookup (n, c) with
        | some p =>
          simp only [attempt_replay next _ hc, prob_forges_replay h hc]
          refine (ih _ (hA _) h).trans ?_
          rw [Finset.sum_range_succ]
          exact le_add_of_nonneg_right (prob_nonneg _ _)
        | none =>
          rw [Finset.sum_range_succ', attempt_zero next hc]
          simp only [attempt_succ next _ hc]
          have hrest : 0 ≤ ∑ i ∈ Finset.range q,
              (forges (real S k) (attempt i (next (.decrypted none)) L) () L).prob true :=
            Finset.sum_nonneg fun i _ => prob_nonneg _ _
          cases hd : S.decrypt k n c with
          | some p =>
            rw [prob_forges_forgery hc hd, prob_forges_forgery hc hd]
            exact le_add_of_nonneg_left hrest
          | none =>
            rw [prob_forges_refused hd]
            exact (ih _ (hA _) h).trans (le_add_of_nonneg_right (prob_nonneg _ _))

end

/-! ### The worlds against each other -/

section

variable {S : Scheme κ ν π γ} {k : κ}

/-- **Both worlds answer alike until a forgery.** -/
theorem real_sub_closed_le (A : Program ν π γ) {L : Log ν π γ} (h : Consistent S k L) :
    |(A.run (real S k) ()).prob true - (A.run (closed (encrypting S k)) ((), L)).prob true| ≤
      (forges (real S k) A () L).prob true := by
  induction A generalizing L with
  | ret b =>
    rw [Adv.prob_run_ret, Adv.prob_run_ret, sub_self, abs_zero]
    exact prob_nonneg _ _
  | sample d next ih =>
    rw [Adv.prob_run_sample, Adv.prob_run_sample, prob_forges_sample]
    exact abs_E_sub_le fun x _ => ih x h
  | query x next ih =>
    cases x with
    | encrypt n p =>
      have hstep : ∀ g : Answer π γ × Unit × Log ν π γ → ℚ,
          (closed (encrypting S k) (.encrypt n p) ((), L)).E g =
            g (.encrypted (S.encrypt k n p), (), ((n, S.encrypt k n p), p) :: L) := by
        intro g
        simp only [closed, encrypting, E_bind, E_pure]
      rw [Adv.prob_run_query, Adv.prob_run_query, hstep, prob_forges_encrypt, real, E_pure]
      exact ih _ (h.cons n p)
    | decrypt n c =>
      rw [Adv.prob_run_query, Adv.prob_run_query, real, closed, E_pure, E_pure]
      cases hc : L.lookup (n, c) with
      | some p =>
        rw [prob_forges_replay h hc, h.decrypt_eq hc]
        exact ih _ h
      | none =>
        cases hd : S.decrypt k n c with
        | some p =>
          rw [prob_forges_forgery hc hd]
          exact abs_sub_le_one (prob_mem _ _) (prob_mem _ _)
        | none =>
          rw [prob_forges_refused hd]
          exact ih _ h

/-- **A closed world needs no key to decrypt.** -/
theorem run_closed (O : Oracle (ν × π) γ μ) (A : Program ν π γ) (m : μ) (L : Log ν π γ) :
    (A.run (closed O) (m, L)).prob true = ((encryptOnly A L).run O m).prob true := by
  induction A generalizing m L with
  | ret b => rfl
  | sample d next ih =>
    simp only [encryptOnly, Adv.prob_run_sample, ih]
  | query x next ih =>
    cases x with
    | encrypt n p =>
      simp only [encryptOnly, Adv.prob_run_query, closed, E_bind, E_pure, ih]
    | decrypt n c =>
      simp only [encryptOnly, Adv.prob_run_query, closed, E_pure, ih]

/-- **The channel against the ideal one**: single forgeries, and a program that only encrypts. -/
theorem channel_le (dkey : FinDist κ) {A : Program ν π γ} {q : Nat} (hA : AttemptsAtMost A q)
    (O : Oracle (ν × π) γ μ) (m : μ) :
    |(dkey.E fun k => (A.run (real S k) ()).prob true) -
        (A.run (closed O) (m, [])).prob true| ≤
      (∑ i ∈ Finset.range q,
        dkey.E fun k => (forges (real S k) (attempt i A []) () []).prob true) +
      |(dkey.E fun k => ((encryptOnly A []).run (encrypting S k) ()).prob true) -
        ((encryptOnly A []).run O m).prob true| := by
  have hempty : ∀ k, Consistent S k ([] : Log ν π γ) := fun k e he => absurd he List.not_mem_nil
  have hforge : |(dkey.E fun k => (A.run (real S k) ()).prob true) -
      dkey.E fun k => ((encryptOnly A []).run (encrypting S k) ()).prob true| ≤
        ∑ i ∈ Finset.range q,
          dkey.E fun k => (forges (real S k) (attempt i A []) () []).prob true := by
    rw [← E_finset_sum]
    apply abs_E_sub_le
    intro k _
    rw [← run_closed]
    exact (real_sub_closed_le A (hempty k)).trans (forges_le_sum hA (hempty k))
  rw [run_closed]
  exact (abs_sub_le _ _ _).trans (add_le_add hforge le_rfl)

end

/-! ### Implementations -/

section

variable {O : Oracle (Query ν π γ) (Answer π γ) μ} {O' : Oracle (Query ν π γ) (Answer π γ) μ'}
  {R : μ → μ' → Prop} {m : μ} {m' : μ'}

theorem forges_eq (h : Answers O O' R) (hR : R m m') (A : Program ν π γ) (L : Log ν π γ) :
    (forges O A m L).prob true = (forges O' A m' L).prob true := by
  induction A generalizing m m' L with
  | ret b => rfl
  | sample d next ih =>
    simp only [prob_forges_sample]
    congr 1
    funext x
    exact ih x hR L
  | query x next ih =>
    obtain ⟨y, n, n', hO, hO', hn⟩ := h x m m' hR
    rw [prob_forges_query, prob_forges_query, hO, hO']
    split
    · rfl
    · exact ih y hn _

end

end Channel
