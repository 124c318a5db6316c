import AsconDtls.Provider.Nonce

/-!
# What an init writes before it fails

`ascon128_init` checks and writes in turn: the parameters with the tag, the
direction, the key, the nonce.  An init that fails on the way returns 0 and keeps
what it wrote (`init_failed`).  `failed_init_iff` says when this is nothing new, and
`inits_atomic_iff` says it for runs.
-/

namespace AsconDtls.Provider

open LittleEndian
open Run (run)

/-! ### Parameters -/

/-- `ascon128_set_ctx_params` takes the parameters. -/
def Params.accepted (params : Params) : Bool :=
  sizeParamOk params.keylen ASCON128_KEYLEN && sizeParamOk params.ivlen ASCON128_IVLEN &&
    match params.tag with
    | none => true
    | some .otherType => false
    | some (.octets data) => decide (data.length = ASCON128_TAGLEN)

/-- The tag among them. -/
def Params.octets (params : Params) : Option (BitVec 128) :=
  match params.tag with
  | some (.octets data) => some (loadLE 128 data)
  | _ => none

/-- The tag that they set. -/
def Params.newTag (params : Params) : Option (BitVec 128) :=
  if params.accepted then params.octets else none

theorem setCtxParams_eq (a : Ctx) (params : Params) :
    setCtxParams a params =
      if params.accepted then (setTag (params.newTag.getD a.tag) a, .done)
      else (a, .error .failedToSetParameter) := by
  cases hk : sizeParamOk params.keylen ASCON128_KEYLEN with
  | false => simp [setCtxParams, Params.accepted, hk]
  | true =>
      cases hi : sizeParamOk params.ivlen ASCON128_IVLEN with
      | false => simp [setCtxParams, Params.accepted, hk, hi]
      | true =>
          rcases htag : params.tag with _ | _ | data
          · simp [setCtxParams, Params.newTag, Params.octets, Params.accepted, hk, hi, htag, setTag,
              Reply.done]
          · simp [setCtxParams, Params.accepted, hk, hi, htag]
          · by_cases hlen : data.length = ASCON128_TAGLEN
            · have hload : memcpy a.tag 0 data = loadLE 128 data :=
                memcpy_zero_eq_loadLE _ (by decide) _ (by rw [hlen]; decide)
              simp [setCtxParams, Params.newTag, Params.octets, Params.accepted, hk, hi, htag, hlen,
                hload, setTag, Reply.done]
            · simp [setCtxParams, Params.accepted, hk, hi, htag, hlen]

/-! ### A failed init -/

theorem init_rejected (a : Ctx) (key iv : Option (List Byte)) {params : Params} (enc : Bool)
    (h : params.accepted = false) :
    init a key iv params enc = (a, .error .failedToSetParameter) := by
  simp only [init, setCtxParams_eq, h]
  rfl

theorem init_accepted (a : Ctx) (key iv : Option (List Byte)) {params : Params} (enc : Bool)
    (h : params.accepted = true) :
    init a key iv params enc =
      initKey { a with tag := params.newTag.getD a.tag, enc := enc } key iv := by
  simp only [init, setCtxParams_eq, h]
  rfl

theorem initIv_failed {a : Ctx} {iv : Option (List Byte)} (h : (initIv a iv).2.ret = 0) :
    (initIv a iv).1 = a := by
  cases iv with
  | none => rfl
  | some iv =>
      by_cases hlen : iv.length = 16
      · rw [initIv_some a hlen] at h
        cases h
      · have hfail : initIv a (some iv) = (a, .error .invalidIvLength) := if_pos hlen
        rw [hfail]

/-- The key in the context once `ascon128_init` has come to the nonce or has failed. -/
def keyWritten (a : Ctx) : Option (List Byte) → BitVec 128
  | none => a.key
  | some key => if key.length = ASCON128_KEYLEN then loadLE 128 key else a.key

theorem initKey_failed {a : Ctx} {key iv : Option (List Byte)} (h : (initKey a key iv).2.ret = 0) :
    (initKey a key iv).1 = { a with key := keyWritten a key } := by
  cases key with
  | none => exact initIv_failed h
  | some key =>
      by_cases hlen : key.length = 16
      · have hkey : keyWritten a (some key) = loadLE 128 key := if_pos hlen
        rw [initKey_some a hlen] at h ⊢
        rw [initIv_failed h, hkey]
      · have hkey : keyWritten a (some key) = a.key := if_neg hlen
        have hfail : initKey a (some key) iv = (a, .error .invalidKeyLength) := if_pos hlen
        rw [hfail, hkey]

/-- **What a failed init leaves behind.** -/
theorem init_failed {a : Ctx} {key iv : Option (List Byte)} {params : Params} {enc : Bool}
    (h : (init a key iv params enc).2.ret = 0) :
    (init a key iv params enc).1 =
      if params.accepted then
        { a with tag := params.newTag.getD a.tag, enc := enc, key := keyWritten a key }
      else a := by
  cases hacc : params.accepted with
  | false => rw [init_rejected a key iv enc hacc, if_neg (by decide)]
  | true =>
      rw [init_accepted a key iv enc hacc] at h ⊢
      rw [initKey_failed h, if_pos rfl]
      cases key with
      | none => rfl
      | some key => rfl

/-- The arguments are rejected before anything is written, or they bring no tag, no
direction and no key but those in the context. -/
def NothingNew (a : Ctx) (key : Option (List Byte)) (params : Params) (enc : Bool) : Prop :=
  params.accepted = false ∨
    (∀ T, params.newTag = some T → T = a.tag) ∧ enc = a.enc ∧
      ∀ k, key = some k → k.length = 16 → loadLE 128 k = a.key

theorem keyWritten_eq_iff (a : Ctx) (key : Option (List Byte)) :
    keyWritten a key = a.key ↔ ∀ k, key = some k → k.length = 16 → loadLE 128 k = a.key := by
  cases key with
  | none => simp [keyWritten]
  | some k =>
      by_cases hlen : k.length = 16
      · simp [keyWritten, ASCON128_KEYLEN, hlen]
      · simp [keyWritten, ASCON128_KEYLEN, hlen]

/-- **A failed init leaves the context as it was if and only if it brought nothing new.** -/
theorem failed_init_iff {a : Ctx} {key iv : Option (List Byte)} {params : Params} {enc : Bool}
    (h : (init a key iv params enc).2.ret = 0) :
    (init a key iv params enc).1 = a ↔ NothingNew a key params enc := by
  rw [init_failed h, NothingNew, ← keyWritten_eq_iff]
  cases hacc : params.accepted with
  | false => simp
  | true =>
      have htag : (∀ T, params.newTag = some T → T = a.tag) ↔ params.newTag.getD a.tag = a.tag := by
        cases params.newTag with
        | none => simp
        | some T => simp
      rw [if_pos rfl, htag]
      refine ⟨?_, ?_⟩
      · intro heq
        refine .inr ⟨?_, ?_, ?_⟩
        · exact congrArg AsconAead128Ctx.tag heq
        · exact congrArg AsconAead128Ctx.enc heq
        · exact congrArg AsconAead128Ctx.key heq
      · rintro (hrej | ⟨htag, henc, hkey⟩)
        · cases hrej
        · rw [htag, henc, hkey]

/-! ### Runs -/

/-- Every init of the run that returns 0 leaves the context exactly as it was. -/
def InitsAtomic (cs : List Call) : Prop :=
  ∀ pre enc key iv params post, cs = pre ++ initCall enc key iv params :: post →
    let a := (run step newctx pre).1
    (step a (initCall enc key iv params)).2.ret = 0 →
    (step a (initCall enc key iv params)).1 = a

/-- **The runs whose failed inits are atomic**: those whose failed inits bring nothing new
to the context they are made on. -/
theorem inits_atomic_iff (cs : List Call) :
    InitsAtomic cs ↔
      ∀ pre enc key iv params post, cs = pre ++ initCall enc key iv params :: post →
        let a := (run step newctx pre).1
        (step a (initCall enc key iv params)).2.ret = 0 → NothingNew a key params enc := by
  simp only [InitsAtomic, step_initCall]
  refine ⟨?_, ?_⟩
  · intro h pre enc key iv params post hcs hret
    exact (failed_init_iff hret).mp (h pre enc key iv params post hcs hret)
  · intro h pre enc key iv params post hcs hret
    exact (failed_init_iff hret).mpr (h pre enc key iv params post hcs hret)

/-- An encryption under way, then a decryption init with a nonce of 12 bytes: it fails, and has
turned the context to decryption. -/
theorem failed_init_turns : ¬ ∀ cs, InitsAtomic cs := by
  intro h
  let zeros : List Byte := List.replicate 16 0#8
  let started : List Call := [.einit (some zeros) (some zeros) {}]
  let iv : List Byte := List.replicate 12 0#8
  have hret : (step (run step newctx started).1 (.dinit none (some iv) {})).2.ret = 0 := by
    decide +kernel
  have hturned : (step (run step newctx started).1 (.dinit none (some iv) {})).1.enc ≠
      (run step newctx started).1.enc := by decide +kernel
  have hsame := h _ started false none (some iv) {} [] rfl hret
  exact hturned (congrArg AsconAead128Ctx.enc hsame)

/-- In a run with atomic inits a failed one may as well not have been made. -/
theorem run_without_failed {pre post : List Call} {enc : Bool} {key iv : Option (List Byte)}
    {params : Params} (h : InitsAtomic (pre ++ initCall enc key iv params :: post))
    (hret : (step (run step newctx pre).1 (initCall enc key iv params)).2.ret = 0) :
    (run step newctx (pre ++ initCall enc key iv params :: post)).1 =
      (run step newctx (pre ++ post)).1 := by
  have hsame := h pre enc key iv params post rfl hret
  rw [Run.run_append, Run.run_append, Run.run_cons, hsame]

end AsconDtls.Provider
