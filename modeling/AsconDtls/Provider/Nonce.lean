import AsconDtls.Provider.Record

/-!
# Nonces in the provider

The context has no record of a key or a nonce, so no call checks for one.
`updates_and_finals` says when an update and a final succeed in any reachable
context, and what an init with a nonce does establish: the record that starts
there runs as on a zero-allocated context with the same key and nonce.
`no_nonce_check` is a run that processes data before any init.
-/

namespace AsconDtls.Provider

open LittleEndian
open Run (run)

/-- `ascon128_einit` or `ascon128_dinit`. -/
def initCall (enc : Bool) (key iv : Option (List Byte)) (params : Params) : Call :=
  if enc then .einit key iv params else .dinit key iv params

theorem step_initCall (a : Ctx) (enc : Bool) (key iv : Option (List Byte)) (params : Params) :
    step a (initCall enc key iv params) = init a key iv params enc := by
  cases enc with
  | true => rfl
  | false => rfl

/-- The tag that a final computes. -/
def recomputedTag (a : Ctx) : BitVec 128 :=
  let b := aadFinalize .ascon a
  tagValue b.key (b.s, b.lastBlkSz)

/-- A final succeeds when encrypting, and otherwise compares tags. -/
theorem finalFn_ret (a : Ctx) :
    (finalFn a).2.ret = 1 ↔ a.enc = true ∨ recomputedTag a = a.tag := by
  have hret : (final a).2 = true ↔ a.enc = true ∨ recomputedTag a = a.tag := by
    simp only [final_eq, aadFinalize_enc, aadFinalize_tag, recomputedTag]
    cases a.enc with
    | true => simp
    | false => simp
  rw [← hret]
  cases hf : (final a).2 with
  | true => simp [finalFn, hf, Reply.wrote]
  | false => simp [finalFn, hf]

theorem update_ret (a : Ctx) (out : Option Nat) {inp : List Byte} (h : inp ≠ []) :
    (update a out inp).2.ret = 1 ↔ ∀ n, out = some n → inp.length ≤ n := by
  have hlen : inp.length ≠ 0 := fun h0 => h (List.eq_nil_of_length_eq_zero h0)
  simp only [update, if_neg hlen]
  cases out with
  | none => simp [Reply.wrote]
  | some n =>
      by_cases hn : n < inp.length
      · simp only [if_pos hn, Reply.error]
        refine ⟨?_, ?_⟩
        · intro h0
          cases h0
        · intro h0
          have hle := h0 n rfl
          omega
      · simp only [if_neg hn, Reply.wrote, true_iff]
        intro m hm
        obtain rfl := Option.some.inj hm
        omega

/-- A reset leaves of a context its direction and its tag only. -/
theorem reset_eq (a : Ctx) {key nonce : List Byte} (hkey : key.length = 16) :
    reset a key nonce = setTag a.tag (reset { newctx with enc := a.enc } key nonce) := by
  have hmem : ∀ m : BitVec 128, memcpy m 0 key = loadLE 128 key :=
    fun m => memcpy_zero_eq_loadLE m (by decide) key (by omega)
  simp only [reset, setTag, hmem]

/-- A zero-allocated context given a key and a nonce. -/
def freshCtx (enc : Bool) (key : BitVec 128) (iv : List Byte) : Ctx :=
  (step newctx (initCall enc (some (bytesAt key 0 16)) (some iv) {})).1

theorem freshCtx_eq (enc : Bool) (key : BitVec 128) {iv : List Byte} (hiv : iv.length = 16) :
    freshCtx enc key iv = reset { newctx with enc := enc } (bytesAt key 0 16) iv := by
  have hlen : (bytesAt key 0 16).length = 16 := length_bytesAt ..
  have hback : loadLE 128 (bytesAt key 0 16) = key := loadLE_bytesAt key (by decide)
  have hinit : init newctx (some (bytesAt key 0 16)) (some iv) {} enc =
      initKey { newctx with enc := enc } (some (bytesAt key 0 16)) (some iv) := rfl
  rw [freshCtx, step_initCall, hinit, initKey_some _ hlen, hback, initIv_some _ hiv,
    reset_eq _ hlen, reset_eq { newctx with enc := enc } hlen]
  rfl

/-- **An init with a nonce starts afresh**: but for the stored tag the context is
a zero-allocated one that was given the key in force and the nonce. -/
theorem init_iv_eq (a : Ctx) {enc : Bool} {key : Option (List Byte)} {iv : List Byte}
    {params : Params} (h : (init a key (some iv) params enc).2.ret = 1) :
    let b := (init a key (some iv) params enc).1
    b = setTag b.tag (freshCtx enc b.key iv) ∧ (∀ k, key = some k → b.key = loadLE 128 k) ∧
      (key = none → b.key = a.key) := by
  intro b
  obtain ⟨T, K, heq, hnone, hsome⟩ := init_cases h
  rw [heq] at h
  obtain ⟨hiv, hreset⟩ := initIv_cases h
  have hb : b = reset { a with tag := T, enc := enc, key := K } (bytesAt K 0 16) iv := by
    simp only [b, heq, hreset]
  have hkey : b.key = K := by
    rw [hb]
    exact reset_key { a with tag := T, enc := enc, key := K } iv
  have hlen : (bytesAt K 0 16).length = 16 := length_bytesAt ..
  refine ⟨?_, fun k hk => hkey.trans (hsome k hk), fun hk => hkey.trans (hnone hk)⟩
  rw [freshCtx_eq enc _ hiv, hkey, hb, reset_eq _ hlen]
  rfl

/-! ### Runs -/

/-- **When data are processed.**  In every reachable context an update with data
succeeds unless its output buffer is too small, and a final succeeds unless it
decrypts to another tag; a key or a nonce is not asked for.  A record that does
start with a nonce runs as on a zero-allocated context with the key in force,
but for the tag to compare. -/
theorem updates_and_finals (pre : List Call) :
    let a := (run step newctx pre).1
    (∀ out inp, inp ≠ [] →
      ((step a (.update out inp)).2.ret = 1 ↔ ∀ n, out = some n → inp.length ≤ n)) ∧
    ((step a .final).2.ret = 1 ↔ a.enc = true ∨ recomputedTag a = a.tag) ∧
    ∀ enc key iv params post, (step a (initCall enc key (some iv) params)).2.ret = 1 →
      let b := (step a (initCall enc key (some iv) params)).1
      run step b post = run step (setTag b.tag (freshCtx enc b.key iv)) post ∧
        (∀ k, key = some k → b.key = loadLE 128 k) ∧ (key = none → b.key = a.key) := by
  intro a
  refine ⟨fun out inp h => update_ret a out h, finalFn_ret a, ?_⟩
  intro enc key iv params post h
  rw [step_initCall] at h ⊢
  obtain ⟨heq, hsome, hnone⟩ := init_iv_eq a h
  exact ⟨by rw [← heq], hsome, hnone⟩

/-! ### No nonce is asked for -/

def carriesKey : Call → Bool
  | .einit key _ _ => key.isSome
  | .dinit key _ _ => key.isSome
  | _ => false

def carriesIv : Call → Bool
  | .einit _ iv _ => iv.isSome
  | .dinit _ iv _ => iv.isSome
  | _ => false

/-- After `cs` a record is open under a nonce of its own: an init with a nonce
succeeded, a key was supplied by then, and neither a key-only init nor a final
came since. -/
def FreshNonce (cs : List Call) : Prop :=
  ∃ pre c post, cs = pre ++ c :: post ∧
    (carriesIv c = true ∧ (step (run step newctx pre).1 c).2.ret = 1) ∧
    (∃ d ∈ pre ++ [c], carriesKey d = true) ∧
    ∀ d ∈ post, d ≠ .final ∧ ¬ (carriesKey d = true ∧ carriesIv d = false)

/-- A call that processes data or computes a tag. -/
def Processes (c : Call) : Prop :=
  c = .final ∨ ∃ out inp, c = .update out inp ∧ inp ≠ []

/-- An update on the context from `newctx` succeeds: there is no nonce. -/
theorem no_nonce_check :
    ¬ ∀ cs c, Processes c → (step (run step newctx cs).1 c).2.ret = 1 → FreshNonce cs := by
  intro h
  have hret : (step newctx (.update (some 1) [0#8])).2.ret = 1 := by
    refine (update_ret newctx (some 1) (by decide)).2 ?_
    rintro n ⟨⟩
    exact Nat.le_refl 1
  obtain ⟨pre, c, post, hcs, -⟩ := h [] _ (.inr ⟨_, _, rfl, by decide⟩) hret
  exact List.append_ne_nil_of_right_ne_nil pre (List.cons_ne_nil c post) hcs.symm

end AsconDtls.Provider
