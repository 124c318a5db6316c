import AsconDtls.Provider.Inits

/-!
# The tag that a decryption is checked against

`ctx->tag` holds the computed tag of an encryption and the expected tag of a
decryption, and `ascon_aead128_reset` leaves it alone.  A decryption for which no tag
is set is compared with what an earlier record left there.

* `run_tag`: while no call turns the context to encryption, the field holds the last
  tag that was set.
* `stale_tag_accepted`: a run in which a left-over tag is accepted.
* `fresh_tags`: if every final comes after a tag set since the init of its record, a final
  accepts that tag only; the other runs compare with the left-over one.
-/

namespace AsconDtls.Provider

open LittleEndian
open Run (run run_append run_cons run_nil)

/-! ### What the calls do to the settings -/

/-- Key, tag and direction. -/
def AsconAead128Ctx.settings {σ : Type} (a : AsconAead128Ctx σ) : BitVec 128 × BitVec 128 × Bool :=
  (a.key, a.tag, a.enc)

section Aad

variable {σ : Type} (ops : StateOps σ)

theorem refill_settings (a : AsconAead128Ctx σ) (ad : List Byte) (fuel : Nat) :
    (refill ops a ad fuel).1.settings = a.settings := by
  induction fuel generalizing a ad with
  | zero => rfl
  | succ fuel ih =>
      unfold refill
      by_cases h : 0 < a.adPartSz ∧ 0 < ad.length
      · rw [if_pos h]
        simp only
        rw [ih]
        split
        · rfl
        · rfl
      · rw [if_neg h]

theorem absorbAad_settings (a : AsconAead128Ctx σ) (ad : List Byte) :
    (absorbAad ops a ad).settings = a.settings := by
  simp only [absorbAad]
  split_ifs <;> exact refill_settings ops _ ad _

theorem aadFinalize_settings (a : AsconAead128Ctx σ) :
    (aadFinalize ops a).settings = a.settings := by
  obtain ⟨hkey, htag, henc, -⟩ := aadFinalize_frame ops a
  rw [AsconAead128Ctx.settings, hkey, htag, henc]
  rfl

end Aad

section Stream

variable {bytes : Ctx → Nat → List Byte → Ctx × List Byte}
  {block : Ctx → List Byte → Ctx × List Byte}
  (hbytes : ∀ a i bs, (bytes a i bs).1.settings = a.settings)
  (hblock : ∀ a blk, (block a blk).1.settings = a.settings)
include hbytes

theorem fillBlock_settings (a : Ctx) (inp : List Byte) :
    (fillBlock bytes a inp).1.1.settings = a.settings := by
  unfold fillBlock
  by_cases h : 0 < a.lastBlkSz
  · rw [if_pos h, ← hbytes a a.lastBlkSz (inp.take (min (ASCON_AEAD128_RATE - a.lastBlkSz)
      inp.length))]
    simp only
    split
    · rfl
    · rfl
  · rw [if_neg h]

include hblock

theorem blocksAndRest_settings (t : Ctx × Nat) (inp : List Byte) :
    (blocksAndRest bytes block t inp).1.settings = t.1.settings := by
  have hround : ∀ blk t, (blockRound block blk t).1.1.settings = t.1.settings :=
    fun blk t => hblock t.1 blk
  have hloop : (Duplex.whileBlocks ASCON_AEAD128_RATE (blockRound block) t inp).1.1.settings =
      t.1.settings := Duplex.whileBlocks_const (fun t => t.1.settings) hround t inp
  rw [← hloop]
  unfold blocksAndRest
  simp only
  split
  · exact hbytes _ _ _
  · rfl

theorem streamUpdate_settings (a : Ctx) (inp : List Byte) :
    (streamUpdate bytes block a inp).1.settings = a.settings := by
  rw [← aadFinalize_settings .ascon a, ← fillBlock_settings hbytes (aadFinalize .ascon a) inp]
  exact blocksAndRest_settings hbytes hblock _ _

end Stream

theorem update_settings (a : Ctx) (out : Option Nat) (inp : List Byte) :
    (update a out inp).1.settings = a.settings := by
  unfold update
  by_cases h0 : inp.length = 0
  · rw [if_pos h0]
  · rw [if_neg h0]
    cases out with
    | none => exact absorbAad_settings .ascon a inp
    | some outsize =>
        simp only
        by_cases hroom : outsize < inp.length
        · rw [if_pos hroom]
        · rw [if_neg hroom]
          by_cases henc : a.enc = true
          · rw [if_pos henc]
            exact streamUpdate_settings (fun _ _ _ => rfl) (fun _ _ => rfl) a inp
          · rw [if_neg henc]
            exact streamUpdate_settings (fun _ _ _ => rfl) (fun _ _ => rfl) a inp

/-- A final writes the tag when encrypting. -/
theorem final_settings (a : Ctx) (henc : a.enc = false) :
    (finalFn a).1.settings = a.settings := by
  have hfinal : (finalFn a).1 = (final a).1 := by
    unfold finalFn
    simp only
    split
    · rfl
    · rfl
  have hclosed := aadFinalize_settings .ascon a
  rw [hfinal, final_eq, ← hclosed]
  simp only [aadFinalize_enc, henc, Bool.false_eq_true, if_false]
  simp only [AsconAead128Ctx.settings, aadFinalize_enc, henc]

theorem initKey_settings (a : Ctx) (key iv : Option (List Byte)) :
    (initKey a key iv).1.tag = a.tag ∧ (initKey a key iv).1.enc = a.enc := by
  have hiv : ∀ b : Ctx, (initIv b iv).1.tag = b.tag ∧ (initIv b iv).1.enc = b.enc := by
    intro b
    cases iv with
    | none => exact ⟨rfl, rfl⟩
    | some iv =>
        unfold initIv
        simp only
        split
        · exact ⟨rfl, rfl⟩
        · exact ⟨rfl, rfl⟩
  cases key with
  | none => exact hiv a
  | some key =>
      unfold initKey
      simp only
      split
      · exact ⟨rfl, rfl⟩
      · exact hiv _

/-- An init sets the tag and the direction if it takes the parameters, whatever it returns. -/
theorem init_settings (a : Ctx) (key iv : Option (List Byte)) (params : Params) (enc : Bool) :
    (init a key iv params enc).1.tag = params.newTag.getD a.tag ∧
      (init a key iv params enc).1.enc = if params.accepted then enc else a.enc := by
  cases hacc : params.accepted with
  | false =>
      rw [init_rejected a key iv enc hacc]
      simp [Params.newTag, hacc]
  | true =>
      rw [init_accepted a key iv enc hacc]
      exact initKey_settings _ key iv

/-! ### The tags that calls bring -/

/-- The 16-byte tag that a call sets: `ascon128_set_ctx_params` takes it, called for itself or
by an init. -/
def Call.newTag : Call → Option (BitVec 128)
  | .einit _ _ params => params.newTag
  | .dinit _ _ params => params.newTag
  | .setCtxParams params => params.newTag
  | _ => none

/-- The last tag that calls set. -/
def suppliedTag (cs : List Call) : Option (BitVec 128) := (cs.filterMap Call.newTag).getLast?

/-- An encryption init that gets past its parameters: it sets `enc`, even if it fails later. -/
def Call.turns : Call → Bool
  | .einit _ _ params => params.accepted
  | _ => false

theorem suppliedTag_cons (c : Call) (cs : List Call) (T : BitVec 128) :
    (suppliedTag (c :: cs)).getD T = (suppliedTag cs).getD (c.newTag.getD T) := by
  cases h : c.newTag with
  | none => simp [suppliedTag, h]
  | some T' => simp [suppliedTag, h, List.getLast?_cons]

theorem step_tag {a : Ctx} {c : Call} (henc : a.enc = false) (hturn : c.turns = false) :
    (step a c).1.tag = c.newTag.getD a.tag ∧ (step a c).1.enc = false := by
  cases c with
  | einit key iv params =>
      have hacc : params.accepted = false := hturn
      obtain ⟨htag, hdir⟩ := init_settings a key iv params true
      rw [hacc, henc] at hdir
      exact ⟨htag, hdir⟩
  | dinit key iv params =>
      obtain ⟨htag, hdir⟩ := init_settings a key iv params false
      rw [henc, ite_self] at hdir
      exact ⟨htag, hdir⟩
  | update out inp =>
      have hset := update_settings a out inp
      refine ⟨congrArg (·.2.1) hset, ?_⟩
      exact (congrArg (·.2.2) hset).trans henc
  | final =>
      have hset := final_settings a henc
      refine ⟨congrArg (·.2.1) hset, ?_⟩
      exact (congrArg (·.2.2) hset).trans henc
  | setCtxParams params =>
      have hset : step a (.setCtxParams params) = setCtxParams a params := rfl
      rw [hset, setCtxParams_eq]
      cases hacc : params.accepted with
      | false => simp [Call.newTag, Params.newTag, hacc, henc]
      | true => simp [Call.newTag, setTag, henc]
  | getCtxParams params => exact ⟨rfl, henc⟩

/-- **The tag field holds the last tag set**, as long as the context stays in decryption. -/
theorem run_tag {a : Ctx} {cs : List Call} (henc : a.enc = false)
    (hturn : ∀ c ∈ cs, c.turns = false) :
    (run step a cs).1.tag = (suppliedTag cs).getD a.tag ∧ (run step a cs).1.enc = false := by
  induction cs generalizing a with
  | nil => exact ⟨rfl, henc⟩
  | cons c cs ih =>
      obtain ⟨hc, hcs⟩ := List.forall_mem_cons.mp hturn
      obtain ⟨htag, hdir⟩ := step_tag henc hc
      rw [run_cons, suppliedTag_cons, ← htag]
      exact ih hdir hcs

/-! ### Records -/

def Call.isInit : Call → Bool
  | .einit _ _ _ => true
  | .dinit _ _ _ => true
  | _ => false

/-- After `pre`, `d` and `mid` the latest successful init is `d`, a decryption init with a
nonce. -/
structure Opens (pre : List Call) (d : Call) (mid : List Call) : Prop where
  nonce : ∃ key iv params, d = .dinit key (some iv) params
  opened : (step (run step newctx pre).1 d).2.ret = 1
  latest : ∀ mid₁ c mid₂, mid = mid₁ ++ c :: mid₂ → c.isInit = true →
    (step (run step newctx (pre ++ d :: mid₁)).1 c).2.ret = 0

/-- `P` at every final of a run that comes in a decryption. -/
def AtFinals (cs : List Call) (P : List Call → Call → List Call → Prop) : Prop :=
  ∀ pre d mid post, cs = pre ++ d :: mid ++ .final :: post → Opens pre d mid → P pre d mid

/-- A final returns 1 only if a tag was set since the init of its record and is the tag that it
computes. -/
def FreshTags (cs : List Call) : Prop :=
  AtFinals cs fun pre d mid =>
    let a := (run step newctx (pre ++ d :: mid)).1
    (step a .final).2.ret = 1 → suppliedTag (d :: mid) = some (recomputedTag a)

/-- No failed encryption init has turned the context meanwhile. -/
def KeepsDirection (cs : List Call) : Prop :=
  AtFinals cs fun _ _ mid => ∀ c ∈ mid, c.turns = false

/-- Every final comes after a tag set since the init of its record. -/
def TagsSupplied (cs : List Call) : Prop :=
  AtFinals cs fun _ d mid => (suppliedTag (d :: mid)).isSome

/-- The tag field when a decryption is finished: the tag set for it, or else the one that the
init found. -/
theorem open_tag {pre mid : List Call} {d : Call} (h : Opens pre d mid)
    (hturn : ∀ c ∈ mid, c.turns = false) :
    (run step newctx (pre ++ d :: mid)).1.tag =
        (suppliedTag (d :: mid)).getD (run step newctx pre).1.tag ∧
      (run step newctx (pre ++ d :: mid)).1.enc = false := by
  obtain ⟨⟨key, iv, params, rfl⟩, hret, -⟩ := h
  obtain ⟨htag, hdir⟩ := init_settings (run step newctx pre).1 key (some iv) params false
  have hacc : params.accepted = true := by
    by_contra hacc
    have hfail := init_rejected (run step newctx pre).1 key (some iv) false
      (Bool.eq_false_iff.mpr hacc)
    have hret' : (init (run step newctx pre).1 key (some iv) params false).2.ret = 1 := hret
    rw [hfail] at hret'
    cases hret'
  rw [hacc, if_pos rfl] at hdir
  have hrun := run_tag hdir hturn
  rw [htag] at hrun
  rw [run_append, run_cons, suppliedTag_cons]
  exact hrun

theorem open_final {pre mid : List Call} {d : Call} (h : Opens pre d mid)
    (hturn : ∀ c ∈ mid, c.turns = false) :
    let a := (run step newctx (pre ++ d :: mid)).1
    (step a .final).2.ret = 1 ↔
      recomputedTag a = (suppliedTag (d :: mid)).getD (run step newctx pre).1.tag := by
  intro a
  obtain ⟨htag, hdir⟩ := open_tag h hturn
  have hret : (step a .final).2.ret = 1 ↔ a.enc = true ∨ recomputedTag a = a.tag := finalFn_ret a
  rw [hdir, htag] at hret
  simpa using hret

/-- **Decryption against fresh tags.**  If every final comes after a tag set since the init of
its record, with no encryption init tried in between, then only that tag is accepted.  Where
no tag was set, the final takes the tag that was there before the init. -/
theorem fresh_tags (cs : List Call) :
    (TagsSupplied cs → KeepsDirection cs → FreshTags cs) ∧
    (KeepsDirection cs →
      (FreshTags cs ↔ AtFinals cs fun pre d mid =>
        (suppliedTag (d :: mid)).isSome ∨
          (run step newctx pre).1.tag ≠
            recomputedTag (run step newctx (pre ++ d :: mid)).1)) := by
  have hexact : KeepsDirection cs →
      (FreshTags cs ↔ AtFinals cs fun pre d mid =>
        (suppliedTag (d :: mid)).isSome ∨
          (run step newctx pre).1.tag ≠
            recomputedTag (run step newctx (pre ++ d :: mid)).1) := by
    intro hkeep
    refine ⟨?_, ?_⟩
    · intro hfresh pre d mid post hcs hopen
      have hret := open_final hopen (hkeep pre d mid post hcs hopen)
      by_cases hleft : (run step newctx pre).1.tag =
          recomputedTag (run step newctx (pre ++ d :: mid)).1
      · refine .inl ?_
        by_contra hnone
        have hnone : suppliedTag (d :: mid) = none := by simpa using hnone
        rw [hnone] at hret
        have hsome := hfresh pre d mid post hcs hopen (hret.mpr hleft.symm)
        rw [hnone] at hsome
        cases hsome
      · exact .inr hleft
    · intro hcond pre d mid post hcs hopen a hone
      have htag := (open_final hopen (hkeep pre d mid post hcs hopen)).mp hone
      cases hs : suppliedTag (d :: mid) with
      | some T =>
          rw [hs] at htag
          exact congrArg some htag.symm
      | none =>
          -- nothing was set, so the tag accepted is the one left over
          rw [hs] at htag
          rcases hcond pre d mid post hcs hopen with hsome | hleft
          · rw [hs] at hsome
            cases hsome
          · exact absurd htag.symm hleft
  refine ⟨?_, hexact⟩
  intro hsup hkeep
  refine (hexact hkeep).mpr ?_
  intro pre d mid post hcs hopen
  exact .inl (hsup pre d mid post hcs hopen)

/-- An empty message is encrypted, then decrypted with the same key and nonce and no tag set:
it is accepted. -/
theorem stale_tag_accepted : ¬ ∀ cs, FreshTags cs := by
  intro h
  let zeros : List Byte := List.replicate 16 0#8
  let sent : List Call := [.einit (some zeros) (some zeros) {}, .final]
  let d : Call := .dinit none (some zeros) {}
  have hopen : Opens sent d [] := by
    refine ⟨⟨none, zeros, {}, rfl⟩, ?_, ?_⟩
    · decide +kernel
    · intro mid₁ c mid₂ hmid
      simp at hmid
  have hret : (step (run step newctx (sent ++ [d])).1 .final).2.ret = 1 := by decide +kernel
  have hfresh := h _ sent d [] [] rfl hopen hret
  cases hfresh

end AsconDtls.Provider
