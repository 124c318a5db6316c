import AsconDtls.Lib.Oracle
import AsconDtls.MaskPrf

/-!
# The games of `mask_prf.ec`

The scaffold is kept over its abstract types first: `realO` answers
`proj (P (pack k ct))`, `idealO` draws a random function on blocks, `keyedIdeal`
carries a key it does not use.  `gKeyed_eq_gIdeal` is the second hop.  With `P`
a permutation drawn as it is asked for, the first hop costs the chance that two
of its values meet (`gReal_lazyPerm_le`).

Then the types are those of Ascon: 128-bit keys and blocks, 320-bit states.
-/

namespace AsconDtls.Formal

open FinDist OracleGame

/-- `PERM`: a procedure on states, with a memory of its own. -/
abbrev Perm (State Mem : Type) := Oracle State State Mem

section Games

variable {State Key Block Mem : Type} (pack : Key → Block → State) (proj : State → Block)
  (dkey : FinDist Key) (dblock : FinDist Block)

/-- `RealO`: the key and the memory of `P`. -/
def realO (P : Perm State Mem) : Oracle Block Block (Key × Mem) := fun ct (k, mem) => do
  let (s, mem) ← P (pack k ct) mem
  pure (proj s, (k, mem))

/-- `GReal`, with `P` in the memory `mem`. -/
def gReal (P : Perm State Mem) (mem : Mem) (A : Adv Block Block) : FinDist Bool := do
  let k ← dkey
  A.run (realO pack proj P) (k, mem)

variable [DecidableEq Block] [Inhabited Block]

/-- `IdealO`: the table `f` of the answers that were drawn. -/
def idealO : Oracle Block Block (Block → Option Block) := fun ct f => do
  let f ← if (f ct).isNone then do
      let b ← dblock
      pure (Function.update f ct (some b))
    else pure f
  pure ((f ct).getD default, f)

/-- `KeyedIdeal`: a key, and the table `g`. -/
def keyedIdeal : Oracle Block Block (Key × (Block → Option Block)) := fun ct (k, g) => do
  let g ← if (g ct).isNone then do
      let b ← dblock
      pure (Function.update g ct (some b))
    else pure g
  pure ((g ct).getD default, (k, g))

/-- `GIdeal`. -/
def gIdeal (A : Adv Block Block) : FinDist Bool := A.run (idealO dblock) fun _ => none

/-- `GKeyed`. -/
def gKeyed (A : Adv Block Block) : FinDist Bool := do
  let k ← dkey
  A.run (keyedIdeal dblock) (k, fun _ => none)

end Games

/-! ### The second hop -/

section Table

variable {Key Block : Type} {dblock : FinDist Block} [DecidableEq Block] [Inhabited Block]
  {ct : Block} {f : Block → Option Block}

theorem idealO_hit {b : Block} (hf : f ct = some b) (g : Block × (Block → Option Block) → ℚ) :
    (idealO dblock ct f).E g = g (b, f) := by
  simp [idealO, hf]

theorem idealO_fresh (hf : f ct = none) (g : Block × (Block → Option Block) → ℚ) :
    (idealO dblock ct f).E g = dblock.E fun b => g (b, Function.update f ct (some b)) := by
  simp [idealO, hf]

/-- The key of `KeyedIdeal` stays as it is and is not looked at. -/
theorem E_keyedIdeal (k : Key) (g : Block × (Key × (Block → Option Block)) → ℚ) :
    (keyedIdeal dblock ct (k, f)).E g = (idealO dblock ct f).E fun p => g (p.1, (k, p.2)) := by
  cases hf : f ct with
  | some b => simp [keyedIdeal, idealO, hf]
  | none => simp [keyedIdeal, idealO, hf]

theorem keyedIdeal_follows (q : Nat) :
    Follows (keyedIdeal dblock : Oracle Block Block (Key × _)) (idealO dblock)
      (fun _ m f => m.2 = f) (fun _ => 0) q := by
  rintro j _ ct ⟨k, f⟩ f' rfl g g' δ _ _ hδ
  rw [E_keyedIdeal, add_zero, ← (idealO dblock ct f).E_const δ]
  apply abs_E_sub_le
  intro p _
  exact hδ p.1 (k, p.2) p.2 rfl

/-- `Pr_eq_GKeyed_GIdeal`: the key of `GKeyed` is of no effect. -/
theorem gKeyed_eq_gIdeal (dkey : FinDist Key) {A : Adv Block Block} {q : Nat} (hA : A.AtMost q) :
    (gKeyed dkey dblock A).prob true = (gIdeal dblock A).prob true := by
  rw [gKeyed, prob_bind, gIdeal, ← dkey.E_const ((A.run (idealO dblock) fun _ => none).prob true)]
  congr 1
  funext k
  exact (keyedIdeal_follows q).run_eq hA rfl

end Table

/-! ### The first hop -/

section Switch

variable {State Key Block Mem Mem' : Type} (pack : Key → Block → State) (proj : State → Block)

theorem prob_gReal (dkey : FinDist Key) (P : Perm State Mem) (mem : Mem) (A : Adv Block Block) :
    (gReal pack proj dkey P mem A).prob true =
      dkey.E fun k => (A.run (realO pack proj P) (k, mem)).prob true := prob_bind _ _ _

theorem E_realO (P : Perm State Mem) (ct : Block) (k : Key) (mem : Mem)
    (g : Block × (Key × Mem) → ℚ) :
    (realO pack proj P ct (k, mem)).E g =
      (P (pack k ct) mem).E fun p => g (proj p.1, (k, p.2)) := by
  simp [realO]

/-- One query to the mask is one query to the permutation. -/
theorem realO_follows {P : Perm State Mem} {P' : Perm State Mem'} {R : Nat → Mem → Mem' → Prop}
    {ε : Nat → ℚ} {q : Nat} (h : Follows P P' R ε q) :
    Follows (realO pack proj P) (realO pack proj P')
      (fun j m m' => m.1 = m'.1 ∧ R j m.2 m'.2) ε q := by
  rintro j hj ct ⟨k, mem⟩ ⟨k', mem'⟩ ⟨rfl, hR⟩ g g' δ hg hg' hδ
  rw [E_realO, E_realO]
  exact h j hj (pack k ct) mem mem' hR _ _ δ (fun p => hg _) (fun p => hg' _)
    fun s n n' hn => hδ _ _ _ ⟨rfl, hn⟩

variable {pack proj} [DecidableEq State] [DecidableEq Block]

/-- A new value enters the two tables at the same place. -/
theorem table_extend (pack_inj : ∀ k c1 c2, pack k c1 = pack k c2 → c1 = c2) {k : Key}
    {t : List (State × State)} {f : Block → Option Block}
    (hf : ∀ ct, f ct = (t.lookup (pack k ct)).map proj) (ct : Block) (s : State) (ct' : Block) :
    Function.update f ct (some (proj s)) ct' =
      (((pack k ct, s) :: t).lookup (pack k ct')).map proj := by
  by_cases hct : ct' = ct
  · rw [hct, Function.update_self, List.lookup_cons_self, Option.map_some]
  · have hne : (pack k ct' == pack k ct) = false := by
      rw [beq_eq_false_iff_ne]
      exact fun h => hct (pack_inj k ct' ct h)
    rw [Function.update_of_ne hct, hf ct', List.lookup_cons, hne]

variable [FinEnum State] [Inhabited State] [Inhabited Block] {dblock : FinDist Block}

/-- A random function on packed states is a random function on blocks. -/
theorem realO_lazyFun_follows (pack_inj : ∀ k c1 c2, pack k c1 = pack k c2 → c1 = c2)
    (hproj : ∀ g : Block → ℚ, ((rnd State).E fun s => g (proj s)) = dblock.E g) (q : Nat) :
    Follows (realO pack proj (lazyFun State State)) (idealO dblock)
      (fun _ m f => ∀ ct, f ct = (m.2.lookup (pack m.1 ct)).map proj) (fun _ => 0) q := by
  unfold lazyFun
  rintro j _ ct ⟨k, t⟩ f hf g g' δ _ _ hδ
  rw [E_realO, add_zero]
  cases ht : List.lookup (pack k ct) t with
  | some s =>
    have hfct : f ct = some (proj s) := by rw [hf ct, ht, Option.map_some]
    rw [lazyOracle_hit _ ht, idealO_hit hfct]
    exact hδ _ _ _ hf
  | none =>
    have hfct : f ct = none := by rw [hf ct, ht, Option.map_none]
    rw [lazyOracle_fresh _ ht, idealO_fresh hfct, ← hproj, ← (rnd State).E_const δ]
    apply abs_E_sub_le
    intro s _
    exact hδ _ _ _ (table_extend pack_inj hf ct s)

/-- **The first hop for a permutation drawn as it is asked for.** -/
theorem gReal_lazyPerm_le (pack_inj : ∀ k c1 c2, pack k c1 = pack k c2 → c1 = c2)
    (hproj : ∀ g : Block → ℚ, ((rnd State).E fun s => g (proj s)) = dblock.E g) (dkey : FinDist Key)
    {A : Adv Block Block} {q : Nat} (hA : A.AtMost q) (hq : q ≤ Fintype.card State) :
    |(gReal pack proj dkey (lazyPerm State State) [] A).prob true - (gIdeal dblock A).prob true| ≤
      ∑ i ∈ Finset.range q, (i : ℚ) / Fintype.card State := by
  have hrun : ∀ k, |(A.run (realO pack proj (lazyPerm State State)) (k, [])).prob true -
      (A.run (idealO dblock) fun _ => none).prob true| ≤
        ∑ i ∈ Finset.range q, (i : ℚ) / Fintype.card State := by
    intro k
    have hfollows := realO_follows pack proj (lazyPerm_follows State State hq)
    have hswitch : |(A.run (realO pack proj (lazyPerm State State)) (k, [])).prob true -
        (A.run (realO pack proj (lazyFun State State)) (k, [])).prob true| ≤
          ∑ i ∈ Finset.range q, ((0 + i : Nat) : ℚ) / Fintype.card State :=
      hfollows.run_sub_le (fun j => by positivity) hA (Nat.zero_add q).le ⟨rfl, rfl, le_rfl⟩
    have htable : (A.run (realO pack proj (lazyFun State State)) (k, [])).prob true =
        (A.run (idealO dblock) fun _ => none).prob true :=
      (realO_lazyFun_follows pack_inj hproj q).run_eq hA fun ct => rfl
    simp only [Nat.zero_add] at hswitch
    rw [← htable]
    exact hswitch
  rw [prob_gReal, gIdeal, ← dkey.E_const ((A.run (idealO dblock) fun _ => none).prob true),
    ← dkey.E_const (∑ i ∈ Finset.range q, (i : ℚ) / Fintype.card State)]
  exact abs_E_sub_le fun k _ => hrun k

end Switch

/-! ### A fixed permutation -/

section Fixed

variable {State Key Block : Type}

/-- A `PERM` that computes a function. -/
def fixedPerm (F : State → State) : Perm State Unit := fun s mem => pure (F s, mem)

variable (pack : Key → Block → State) (proj : State → Block)

theorem run_query_fixed (F : State → State) (ct : Block) (next : Block → Adv Block Block)
    (k : Key) :
    ((Adv.query ct next).run (realO pack proj (fixedPerm F)) (k, ())).prob true =
      ((next (proj (F (pack k ct)))).run (realO pack proj (fixedPerm F)) (k, ())).prob true := by
  rw [Adv.prob_run_query, E_realO, fixedPerm, E_pure]

variable [FinEnum Key] [DecidableEq Block]

/-- Two queries, and the search for a key that explains both answers. -/
def keySearch (F : State → State) (c0 c1 : Block) : Adv Block Block :=
  .query c0 fun r0 => .query c1 fun r1 =>
    .ret (decide (∃ k, proj (F (pack k c0)) = r0 ∧ proj (F (pack k c1)) = r1))

theorem keySearch_atMost (F : State → State) (c0 c1 : Block) :
    (keySearch pack proj F c0 c1).AtMost 2 := fun _ _ => trivial

/-- The search finds the key of the game. -/
theorem keySearch_real (dkey : FinDist Key) (F : State → State) (c0 c1 : Block) :
    (gReal pack proj dkey (fixedPerm F) () (keySearch pack proj F c0 c1)).prob true = 1 := by
  rw [prob_gReal, ← dkey.E_const 1]
  congr 1
  funext k
  have hfound : ∃ k', proj (F (pack k' c0)) = proj (F (pack k c0)) ∧
      proj (F (pack k' c1)) = proj (F (pack k c1)) := ⟨k, rfl, rfl⟩
  rw [keySearch, run_query_fixed, run_query_fixed, Adv.prob_run_ret, decide_eq_true hfound,
    if_pos rfl]

variable [FinEnum Block] [Inhabited Block]

/-- Two different blocks have independent answers. -/
theorem gIdeal_two {c0 c1 : Block} (hc : c0 ≠ c1) (next : Block → Block → Bool) :
    (gIdeal (rnd Block) (.query c0 fun r0 => .query c1 fun r1 => .ret (next r0 r1))).prob true =
      (rnd Block).E fun r0 => (rnd Block).E fun r1 => if next r0 r1 = true then 1 else 0 := by
  rw [gIdeal, Adv.prob_run_query, idealO_fresh rfl]
  congr 1
  funext r0
  have hfresh : Function.update (fun _ => none) c0 (some r0) c1 = none := by
    rw [Function.update_of_ne hc.symm]
  rw [Adv.prob_run_query, idealO_fresh hfresh]
  congr 1
  funext r1
  rw [Adv.prob_run_ret]

/-- One key explains two answers with the chance of guessing both. -/
theorem E_two (a b : Block) :
    ((rnd Block).E fun r0 => (rnd Block).E fun r1 => if a = r0 ∧ b = r1 then 1 else 0) =
      1 / (Fintype.card Block : ℚ) ^ 2 := by
  have hprod : ∀ r0 r1 : Block, (if a = r0 ∧ b = r1 then (1 : ℚ) else 0) =
      (if r0 = a then 1 else 0) * if r1 = b then 1 else 0 := by
    intro r0 r1
    rw [ite_and, ite_mul, one_mul, zero_mul]
    simp only [eq_comm]
  simp only [hprod, E_mul_left, E_mul_right, E_rnd_eq]
  rw [one_div_mul_one_div, sq]

variable [Inhabited Key]

/-- No key explains the answers of a random function, up to this chance. -/
theorem keySearch_ideal_le (F : State → State) {c0 c1 : Block} (hc : c0 ≠ c1) :
    (gIdeal (rnd Block) (keySearch pack proj F c0 c1)).prob true ≤
      Fintype.card Key / (Fintype.card Block : ℚ) ^ 2 := by
  set hit : Key → Block → Block → ℚ := fun k r0 r1 =>
    if proj (F (pack k c0)) = r0 ∧ proj (F (pack k c1)) = r1 then 1 else 0
  have hsearch : (gIdeal (rnd Block) (keySearch pack proj F c0 c1)).prob true ≤
      (rnd Block).E fun r0 => (rnd Block).E fun r1 =>
        Fintype.card Key * (rnd Key).E fun k => hit k r0 r1 := by
    rw [keySearch, gIdeal_two hc]
    apply E_mono
    intro r0 _
    apply E_mono
    intro r1 _
    simp only [decide_eq_true_eq]
    exact exists_le_E_rnd _
  have hswap : ((rnd Block).E fun r0 => (rnd Block).E fun r1 => (rnd Key).E fun k => hit k r0 r1) =
      (rnd Key).E fun k => (rnd Block).E fun r0 => (rnd Block).E fun r1 => hit k r0 r1 := by
    rw [E_comm (rnd Key)]
    congr 1
    funext r0
    exact E_comm _ _ _
  refine hsearch.trans_eq ?_
  simp only [E_mul_left]
  rw [hswap]
  simp only [hit, E_two, E_const]
  rw [mul_one_div]

end Fixed

/-! ### The types of Ascon -/

section Ascon

/-- `pack`: the three fields of the 320-bit state. -/
def pack (k ct : BitVec 128) : BitVec 320 := MaskPrf.domsepTable .dtls ++ k ++ ct

/-- `proj`: the first two 64-bit words. -/
def proj (s : BitVec 320) : BitVec 128 := s.extractLsb' 192 128

def r64 : ℚ := 2 ^ 64

def r128 : ℚ := r64 * r64

def r192 : ℚ := r128 * r64

/-- `delta_P_inst`. -/
def deltaPInst (q : ℚ) : ℚ := q ^ 2 / r192 + q / r128

/-- `GReal` with uniform keys. -/
abbrev maskReal {Mem : Type} (P : Perm (BitVec 320) Mem) (mem : Mem)
    (A : Adv (BitVec 128) (BitVec 128)) : ℚ :=
  (gReal pack proj (rnd (BitVec 128)) P mem A).prob true

abbrev maskIdeal (A : Adv (BitVec 128) (BitVec 128)) : ℚ := (gIdeal (rnd (BitVec 128)) A).prob true

abbrev maskKeyed (A : Adv (BitVec 128) (BitVec 128)) : ℚ :=
  (gKeyed (rnd (BitVec 128)) (rnd (BitVec 128)) A).prob true

theorem pack_inj (k c1 c2 : BitVec 128) (h : pack k c1 = pack k c2) : c1 = c2 := by
  have hlow : ∀ c, (pack k c).extractLsb' 0 128 = c := by
    intro c
    exact BitVec.extractLsb'_append_eq_right
  rw [← hlow c1, h, hlow c2]

/-- The two words that `proj` keeps and the three it drops. -/
def splitState : BitVec 320 ≃ BitVec 128 × BitVec 192 where
  toFun s := (proj s, s.extractLsb' 0 192)
  invFun p := p.1 ++ p.2
  left_inv s := by
    exact BitVec.extractLsb'_append_extractLsb' (w := 128)
  right_inv p := Prod.ext BitVec.extractLsb'_append_eq_left BitVec.extractLsb'_append_eq_right

theorem E_proj (g : BitVec 128 → ℚ) :
    ((rnd (BitVec 320)).E fun s => g (proj s)) = (rnd (BitVec 128)).E g := E_rnd_fst splitState g

theorem deltaPInst_eq (q : ℚ) : deltaPInst q = q ^ 2 / 2 ^ 192 + q / 2 ^ 128 := by
  rw [deltaPInst, r192, r128, r64, ← pow_add, ← pow_add]

theorem card_bitVec_le {m n : Nat} (h : m ≤ n) : (2 : ℚ) ^ m ≤ Fintype.card (BitVec n) := by
  rw [card_bitVec]
  exact pow_le_pow_right₀ (by norm_num) h

/-- The losses of `q` queries, each at most `q / N`. -/
theorem sum_range_div_le (q : Nat) {N M : ℚ} (hM : 0 < M) (hMN : M ≤ N) :
    ∑ i ∈ Finset.range q, (i : ℚ) / N ≤ (q : ℚ) ^ 2 / M := by
  have hterm : ∀ i ∈ Finset.range q, (i : ℚ) / N ≤ q / M := by
    intro i hi
    have hi : (i : ℚ) ≤ q := by exact_mod_cast (Finset.mem_range.1 hi).le
    exact div_le_div₀ (Nat.cast_nonneg q) hi hM hMN
  have hsum := Finset.sum_le_card_nsmul (Finset.range q) _ _ hterm
  rwa [Finset.card_range, nsmul_eq_mul, ← mul_div_assoc, ← sq] at hsum

/-- The ideal permutation in place of `P` leaves no more than this. -/
theorem lazyPerm_bound {q : Nat} (hq : q ≤ 2 ^ 48) {A : Adv (BitVec 128) (BitVec 128)}
    (hA : A.AtMost q) : |maskReal (lazyPerm _ _) [] A - maskIdeal A| ≤ deltaPInst q := by
  have hkey : 0 ≤ (q : ℚ) / 2 ^ 128 := by positivity
  have hstates : (2 : ℚ) ^ 192 ≤ Fintype.card (BitVec 320) := card_bitVec_le (by omega)
  have hcard : (q : ℚ) ≤ Fintype.card (BitVec 320) := by
    have hq : (q : ℚ) ≤ 2 ^ 48 := by exact_mod_cast hq
    exact hq.trans (card_bitVec_le (by omega))
  have hgames := gReal_lazyPerm_le pack_inj E_proj (rnd (BitVec 128)) hA (Nat.cast_le.1 hcard)
  have hsum := sum_range_div_le q (pow_pos two_pos 192) hstates
  rw [deltaPInst_eq]
  exact (hgames.trans hsum).trans (le_add_of_nonneg_right hkey)

/-- For `q` in the range of the bound, the bound is far below one. -/
theorem deltaPInst_lt {q : Nat} (hq : q ≤ 2 ^ 48) : deltaPInst q < 1 - 1 / 2 ^ 128 := by
  have hq' : (q : ℚ) ≤ 2 ^ 48 := by exact_mod_cast hq
  have hsq : (q : ℚ) ^ 2 ≤ (2 ^ 48) ^ 2 := pow_le_pow_left₀ (Nat.cast_nonneg q) hq' 2
  calc deltaPInst q = (q : ℚ) ^ 2 / 2 ^ 192 + q / 2 ^ 128 := deltaPInst_eq q
    _ ≤ (2 ^ 48) ^ 2 / 2 ^ 192 + 2 ^ 48 / 2 ^ 128 :=
      add_le_add (div_le_div_of_nonneg_right hsq (by positivity))
        (div_le_div_of_nonneg_right hq' (by positivity))
    _ < 1 - 1 / 2 ^ 128 := by norm_num

/-- A `PERM` that computes a function is told from the ideal by two queries. -/
theorem fixedPerm_beats (F : BitVec 320 → BitVec 320) {q : Nat} (hq : q ≤ 2 ^ 48) :
    deltaPInst q < |maskReal (fixedPerm F) () (keySearch pack proj F 0 1) -
      maskIdeal (keySearch pack proj F 0 1)| := by
  have hideal := keySearch_ideal_le pack proj F (show (0 : BitVec 128) ≠ 1 by decide)
  have hfrac : (2 : ℚ) ^ 128 / (2 ^ 128) ^ 2 = 1 / 2 ^ 128 := by norm_num
  rw [card_bitVec, hfrac] at hideal
  rw [maskReal, keySearch_real]
  refine (deltaPInst_lt hq).trans_le (le_trans ?_ (le_abs_self _))
  exact sub_le_sub_left hideal 1

/-- What a `PERM` in the memory `mem` loses against the ideal permutation. -/
def permGap {Mem : Type} (P : Perm (BitVec 320) Mem) (mem : Mem)
    (A : Adv (BitVec 128) (BitVec 128)) : ℚ :=
  |maskReal P mem A - maskReal (lazyPerm _ _) [] A|

/-- **`hand_bound_unconditional` with the gap of `P`.**  Against both ideals the bound holds up to
what `P` loses against an ideal permutation, and for no `P` that computes a function can this gap
be left out. -/
theorem hand_bound_gap (q : Nat) (hq : 2 ≤ q) (hq' : q ≤ 2 ^ 48) :
    (∀ {Mem : Type} (P : Perm (BitVec 320) Mem) (mem : Mem) (A : Adv (BitVec 128) (BitVec 128)),
      A.AtMost q →
        |maskReal P mem A - maskIdeal A| ≤ deltaPInst q + permGap P mem A ∧
        |maskReal P mem A - maskKeyed A| ≤ deltaPInst q + permGap P mem A) ∧
    ∀ F : BitVec 320 → BitVec 320, ∃ A : Adv (BitVec 128) (BitVec 128), A.AtMost q ∧
      deltaPInst q < |maskReal (fixedPerm F) () A - maskIdeal A| := by
  refine ⟨?_, ?_⟩
  · intro Mem P mem A hA
    have hkeyed : maskKeyed A = maskIdeal A := gKeyed_eq_gIdeal (rnd (BitVec 128)) hA
    have hbound : |maskReal P mem A - maskIdeal A| ≤ deltaPInst q + permGap P mem A := by
      rw [add_comm]
      exact (abs_sub_le _ (maskReal (lazyPerm _ _) [] A) _).trans
        (add_le_add le_rfl (lazyPerm_bound hq' hA))
    exact ⟨hbound, by rw [hkeyed]; exact hbound⟩
  · intro F
    exact ⟨keySearch pack proj F 0 1, (keySearch_atMost pack proj F 0 1).mono hq,
      fixedPerm_beats F hq'⟩

theorem hand_bound_gap_two :
    let A : Adv (BitVec 128) (BitVec 128) := .query 0 fun b => .ret (b == 0)
    |maskReal (lazyPerm _ _) [] A - maskIdeal A| ≤ deltaPInst 2 := by
  intro A
  have hA : A.AtMost 2 := fun _ => trivial
  have hbound := ((hand_bound_gap 2 le_rfl (by norm_num)).1 (lazyPerm _ _) [] A hA).1
  rw [permGap, sub_self, abs_zero, add_zero] at hbound
  exact_mod_cast hbound

/-- The identity is a `PERM` for which `hand_bound_unconditional` fails. -/
theorem identity_beats_bound : ¬ ∀ {Mem : Type} (P : Perm (BitVec 320) Mem) (mem : Mem) (q : Nat)
    (A : Adv (BitVec 128) (BitVec 128)), 2 ≤ q → q ≤ 2 ^ 48 → A.AtMost q →
      |maskReal P mem A - maskIdeal A| ≤ deltaPInst q := by
  intro hall
  have hbound := hall (fixedPerm id) () 2 (keySearch pack proj id 0 1) le_rfl (by norm_num)
    (keySearch_atMost pack proj id 0 1)
  exact absurd hbound (not_le.2 (fixedPerm_beats id (by norm_num)))

end Ascon

end AsconDtls.Formal
