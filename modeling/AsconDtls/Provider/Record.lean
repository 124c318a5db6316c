import AsconDtls.Provider.Cipher
import AsconDtls.Provider.Stream

/-!
# A record through the provider

The calls of a record as the TLS record layer makes them: an init with the
nonce, the associated data in one update, the data, the final.  `Ready` is a
context in which the data can start or go on.  `run_encryptCalls` and
`run_decryptCalls` give the replies of a whole record on any context that has a
key; they do not depend on anything else in the context.
-/

namespace AsconDtls.Provider

open LittleEndian
open Duplex (Machine)
open Run (run run_append run_cons run_nil)

/-! ### The calls -/

def aadCalls (ad : List Byte) : List Call := if ad = [] then [] else [.update none ad]

def dataCalls (chunks : List (List Byte)) : List Call :=
  chunks.map fun bs => .update (some bs.length) bs

def encryptCalls (key : Option (List Byte)) (iv : Vector Byte 16) (ad : List Byte)
    (chunks : List (List Byte)) : List Call :=
  [.einit key (some iv.toList) {}] ++ aadCalls ad ++ dataCalls chunks ++
    [.final, .getCtxParams { tag := some (.buffer 16) }]

def decryptCalls (key : Option (List Byte)) (iv : Vector Byte 16) (ad : List Byte)
    (T : List Byte) (chunks : List (List Byte)) : List Call :=
  [.dinit key (some iv.toList) {}] ++ aadCalls ad ++
    [.setCtxParams { tag := some (.octets T) }] ++ dataCalls chunks ++ [.final]

/-! ### The replies -/

/-- `return 1;`. -/
def Reply.done : Reply := { ret := 1 }

def aadReplies (ad : List Byte) : List Reply := if ad = [] then [] else [.wrote [] 0]

def dataReplies (outs : List (List Byte)) : List Reply := outs.map fun o => .wrote o o.length

def encryptReplies (ad : List Byte) (outs : List (List Byte)) (tag : List Byte) : List Reply :=
  [.done] ++ aadReplies ad ++ dataReplies outs ++
    [.wrote [] 0, { ret := 1, got := { tag := some tag, tagSize := some 16 } }]

def decryptReplies (ad : List Byte) (outs : List (List Byte)) (accepted : Bool) : List Reply :=
  [.done] ++ aadReplies ad ++ [.done] ++ dataReplies outs ++
    [if accepted then .wrote [] 0 else { ret := 0 }]

/-! ### Contexts -/

/-- The data can start, or go on, at `c`. -/
def Ready (a : Ctx) (key : BitVec 128) (enc : Bool) (tag : BitVec 128) (c : AsconState × Nat) :
    Prop :=
  Processing (aadFinalize .ascon a) key enc tag c

/-- Closing the associated data touches neither the settings nor the place in a block. -/
theorem aadFinalize_frame {σ : Type} (ops : StateOps σ) (a : AsconAead128Ctx σ) :
    (aadFinalize ops a).key = a.key ∧ (aadFinalize ops a).tag = a.tag ∧
      (aadFinalize ops a).enc = a.enc ∧ (aadFinalize ops a).lastBlkSz = a.lastBlkSz := by
  simp only [aadFinalize, padAad, keyedUnlessStarted]
  split_ifs <;> exact ⟨rfl, rfl, rfl, rfl⟩

theorem aadFinalize_key {σ : Type} (ops : StateOps σ) (a : AsconAead128Ctx σ) :
    (aadFinalize ops a).key = a.key := (aadFinalize_frame ops a).1

theorem aadFinalize_tag {σ : Type} (ops : StateOps σ) (a : AsconAead128Ctx σ) :
    (aadFinalize ops a).tag = a.tag := (aadFinalize_frame ops a).2.1

theorem aadFinalize_enc {σ : Type} (ops : StateOps σ) (a : AsconAead128Ctx σ) :
    (aadFinalize ops a).enc = a.enc := (aadFinalize_frame ops a).2.2.1

theorem aadFinalize_lastBlkSz {σ : Type} (ops : StateOps σ) (a : AsconAead128Ctx σ) :
    (aadFinalize ops a).lastBlkSz = a.lastBlkSz := (aadFinalize_frame ops a).2.2.2

/-- The expected tag, exchanged. -/
def setTag (T : BitVec 128) (a : Ctx) : Ctx := { a with tag := T }

theorem aadFinalize_setTag (a : Ctx) (T : BitVec 128) :
    aadFinalize .ascon (setTag T a) = setTag T (aadFinalize .ascon a) := by
  have hkeyed : keyedUnlessStarted .ascon (setTag T a) = setTag T (keyedUnlessStarted .ascon a) := by
    unfold keyedUnlessStarted
    rw [apply_ite (setTag T)]
    rfl
  have hpad : ∀ b : Ctx, padAad .ascon (setTag T b) = setTag T (padAad .ascon b) := by
    intro b
    unfold padAad
    rw [apply_ite (setTag T)]
    rfl
  unfold aadFinalize
  rw [apply_ite (setTag T), hkeyed, hpad]
  rfl

variable {a : Ctx} {key nonce tag : BitVec 128} {enc : Bool} {c : AsconState × Nat}

theorem Processing.ready (h : Processing a key enc tag c) : Ready a key enc tag c := by
  rw [Ready, aadFinalize_done _ h.adDone]
  exact h

theorem Ready.setTag (h : Ready a key enc tag c) (T : BitVec 128) :
    Ready (setTag T a) key enc T c := by
  rw [Ready, aadFinalize_setTag]
  exact ⟨h.s, h.lastBlkSz, h.key, h.enc, rfl, h.adDone⟩

/-- One data update. -/
theorem update_ready (h : Ready a key enc tag c) (hc : c.2 < 16) (bs : List Byte) :
    let D := if enc then encryptMachine else decryptMachine
    Ready (step a (.update (some bs.length) bs)).1 key enc tag (D.feed c bs).1 ∧
      (step a (.update (some bs.length) bs)).2 = .wrote (D.feed c bs).2 (D.feed c bs).2.length := by
  have henc : a.enc = enc := by rw [← aadFinalize_enc .ascon a, h.enc]
  intro D
  by_cases hnil : bs = []
  · subst hnil
    exact ⟨h, rfl⟩
  · have hlen : bs.length ≠ 0 := fun h0 => hnil (List.eq_nil_of_length_eq_zero h0)
    simp only [step, update, henc]
    rw [if_neg hlen, if_neg (Nat.lt_irrefl _)]
    cases enc with
    | true =>
        obtain ⟨hproc, hout, htotal⟩ := update_processing encrypt_absorbs h hc bs
        refine ⟨hproc.ready, ?_⟩
        exact congrArg₂ Reply.wrote hout (htotal.trans (encryptMachine.length_feed c bs).symm)
    | false =>
        obtain ⟨hproc, hout, htotal⟩ := update_processing decrypt_absorbs h hc bs
        refine ⟨hproc.ready, ?_⟩
        exact congrArg₂ Reply.wrote hout (htotal.trans (decryptMachine.length_feed c bs).symm)

/-- The data updates of a record. -/
theorem run_dataCalls (h : Ready a key enc tag c) (hc : c.2 < 16) (chunks : List (List Byte)) :
    let D := if enc then encryptMachine else decryptMachine
    Ready (run step a (dataCalls chunks)).1 key enc tag (D.feedChunks c chunks).1 ∧
      (run step a (dataCalls chunks)).2 = dataReplies (D.feedChunks c chunks).2 := by
  intro D
  have hrate : D.rate = 16 := by
    cases enc with
    | true => rfl
    | false => rfl
  induction chunks generalizing a c with
  | nil => exact ⟨h, rfl⟩
  | cons bs chunks ih =>
      obtain ⟨hready, hreply⟩ := update_ready h hc bs
      have hlt : (D.feed c bs).1.2 < 16 := by
        have hfeed := D.feed_lt (by omega : c.2 < D.rate) bs
        omega
      obtain ⟨hready', hreplies⟩ := ih hready hlt
      refine ⟨hready', ?_⟩
      simp only [dataCalls, List.map_cons, run_cons] at hreplies ⊢
      rw [hreply, hreplies]
      rfl

/-! ### Whole records -/

theorem setCtxParams_fst (a : Ctx) (params : Params) :
    ∃ T, (setCtxParams a params).1 = setTag T a := by
  simp only [setCtxParams]
  split
  · exact ⟨a.tag, rfl⟩
  · split
    · exact ⟨a.tag, rfl⟩
    · split
      · exact ⟨a.tag, rfl⟩
      · exact ⟨a.tag, rfl⟩
      · split
        · exact ⟨a.tag, rfl⟩
        · exact ⟨_, rfl⟩

theorem reset_key (a : Ctx) (nonce : List Byte) :
    (reset a (bytesAt a.key 0 ASCON128_KEYLEN) nonce).key = a.key := by
  have h := loadLE_bytesAt a.key (by decide)
  exact (memcpy_zero_eq_loadLE _ (by decide) _ (by simp [ASCON128_KEYLEN])).trans h

theorem initIv_key (a : Ctx) (iv : Option (List Byte)) : (initIv a iv).1.key = a.key := by
  cases iv with
  | none => rfl
  | some iv =>
      rw [initIv]
      split
      · rfl
      · exact reset_key a iv

theorem initKey_some (a : Ctx) {key : List Byte} (h : key.length = 16)
    (iv : Option (List Byte)) :
    initKey a (some key) iv = initIv { a with key := loadLE 128 key } iv := by
  simp only [initKey]
  rw [if_neg (show ¬ key.length ≠ ASCON128_KEYLEN from not_not.mpr h),
    memcpy_zero_eq_loadLE _ (by decide) _ (by omega)]

theorem initIv_some (a : Ctx) {iv : List Byte} (h : iv.length = 16) :
    initIv a (some iv) = (reset a (bytesAt a.key 0 16) iv, .done) := by
  simp only [initIv]
  rw [if_neg (show ¬ iv.length ≠ ASCON128_IVLEN from not_not.mpr h)]
  rfl

theorem initKey_cases {a : Ctx} {key iv : Option (List Byte)} (h : (initKey a key iv).2.ret = 1) :
    ∃ K, initKey a key iv = initIv { a with key := K } iv ∧ (key = none → K = a.key) ∧
      ∀ k, key = some k → K = loadLE 128 k := by
  cases key with
  | none =>
      refine ⟨a.key, rfl, fun _ => rfl, ?_⟩
      rintro k ⟨⟩
  | some key =>
      by_cases hlen : key.length = 16
      · refine ⟨loadLE 128 key, initKey_some a hlen iv, ?_, ?_⟩
        · rintro ⟨⟩
        · rintro k ⟨⟩
          rfl
      · have hfail : initKey a (some key) iv = (a, .error .invalidKeyLength) := if_pos hlen
        rw [hfail] at h
        cases h

/-- What a successful init does before it looks at the nonce. -/
theorem init_cases {a : Ctx} {key iv : Option (List Byte)} {params : Params} {enc : Bool}
    (h : (init a key iv params enc).2.ret = 1) :
    ∃ T K, init a key iv params enc = initIv { a with tag := T, enc := enc, key := K } iv ∧
      (key = none → K = a.key) ∧ ∀ k, key = some k → K = loadLE 128 k := by
  obtain ⟨T, hT⟩ := setCtxParams_fst a params
  simp only [init] at h ⊢
  by_cases hset : (setCtxParams a params).2.ret = 0
  · rw [if_pos hset] at h
    omega
  · rw [if_neg hset] at h ⊢
    obtain ⟨K, heq, hnone, hsome⟩ := initKey_cases h
    refine ⟨T, K, ?_, ?_, hsome⟩
    · rw [heq, hT]
      rfl
    · intro hk
      rw [hnone hk, hT]
      rfl

theorem initIv_cases {a : Ctx} {iv : List Byte} (h : (initIv a (some iv)).2.ret = 1) :
    iv.length = 16 ∧ initIv a (some iv) = (reset a (bytesAt a.key 0 16) iv, .done) := by
  by_cases hlen : iv.length = 16
  · exact ⟨hlen, initIv_some a hlen⟩
  · have hfail : initIv a (some iv) = (a, .error .invalidIvLength) := if_pos hlen
    rw [hfail] at h
    cases h

/-- The key that an init leaves in a context. -/
def keyAfter (a : Ctx) : Option (List Byte) → BitVec 128
  | none => a.key
  | some key => loadLE 128 key

/-- An init with a nonce resets the context, whatever it held. -/
theorem init_fresh (a : Ctx) {key : Option (List Byte)} (hkey : ∀ k ∈ key, k.length = 16)
    (iv : Vector Byte 16) (enc : Bool) :
    Fresh (init a key (some iv.toList) {} enc).1 (keyAfter a key) (loadLE 128 iv.toList) enc a.tag ∧
      (init a key (some iv.toList) {} enc).2 = .done := by
  have hiv : iv.toList.length = 16 := by simp
  have hfresh : ∀ b : Ctx, Fresh (reset b (bytesAt b.key 0 16) iv.toList) b.key
      (loadLE 128 iv.toList) b.enc b.tag := by
    intro b
    have h := reset_fresh b (length_bytesAt b.key 0 16) hiv
    have hback : loadLE 128 (bytesAt b.key 0 16) = b.key := loadLE_bytesAt b.key (by decide)
    rwa [hback] at h
  have hinit : init a key (some iv.toList) {} enc =
      initKey { a with enc := enc } key (some iv.toList) := rfl
  have hkeyed : initKey { a with enc := enc } key (some iv.toList) =
      initIv { a with enc := enc, key := keyAfter a key } (some iv.toList) := by
    cases key with
    | none => rfl
    | some key => exact initKey_some _ (hkey key rfl) _
  rw [hinit, hkeyed, initIv_some _ hiv]
  exact ⟨hfresh { a with enc := enc, key := keyAfter a key }, rfl⟩

/-- The associated data of a record. -/
theorem run_aadCalls {nonce : BitVec 128} (h : Fresh a key nonce enc tag) (ad : List Byte) :
    Ready (run step a (aadCalls ad)).1 key enc tag (lazyStart key nonce ad, 0) ∧
      (run step a (aadCalls ad)).2 = aadReplies ad := by
  by_cases hnil : ad = []
  · subst hnil
    exact ⟨fresh_processing h, rfl⟩
  · have hlen : ad.length ≠ 0 := fun h0 => hnil (List.eq_nil_of_length_eq_zero h0)
    have hstep : step a (.update none ad) = (absorbAad .ascon a ad, .wrote [] 0) := if_neg hlen
    rw [aadCalls, aadReplies, if_neg hnil, if_neg hnil, run_cons, run_nil, hstep]
    exact ⟨aad_processing h ad, rfl⟩

theorem tagValue_eq_iff {T : List Byte} (hT : T.length = 16) (key : BitVec 128)
    (c : AsconState × Nat) : tagValue key c = loadLE 128 T ↔ T = aeadTag key c := by
  refine ⟨?_, ?_⟩
  · intro h
    exact (loadLE_injective (by rw [length_aeadTag]) (by rw [hT]) h).symm
  · intro h
    rw [h, tagValue]

/-- The final of an encryption, and the tag read from the context. -/
theorem finalFn_encrypt (h : Ready a key true tag c) :
    (finalFn a).1.key = key ∧ (finalFn a).2 = .wrote [] 0 ∧
      getCtxParams (finalFn a).1 { tag := some (.buffer 16) } =
        { ret := 1, got := { tag := some (aeadTag key c), tagSize := some 16 } } := by
  obtain ⟨hkey, henc, -⟩ := final_processing h
  obtain ⟨htag, hret⟩ := henc rfl
  have hfinal : finalFn a = ((final a).1, .wrote [] 0) := if_neg (by simp [hret])
  rw [hfinal]
  refine ⟨hkey, rfl, ?_⟩
  rw [← bytesAt_tagValue, ← htag]
  rfl

/-- The final of a decryption compares tags. -/
theorem finalFn_decrypt {T : List Byte} (hlen : T.length = 16)
    (h : Ready a key false (loadLE 128 T) c) :
    (finalFn a).1.key = key ∧
      (finalFn a).2 = if T = aeadTag key c then .wrote [] 0 else { ret := 0 } := by
  obtain ⟨hkey, -, hdec⟩ := final_processing h
  have hiff := (hdec rfl).trans (tagValue_eq_iff hlen key c)
  by_cases hT : T = aeadTag key c
  · have hfinal : finalFn a = ((final a).1, .wrote [] 0) := if_neg (by simp [hiff.mpr hT])
    rw [hfinal, if_pos hT]
    exact ⟨hkey, rfl⟩
  · have hfinal : finalFn a = ((final a).1, { ret := 0 }) :=
      if_pos (by simpa using fun h2 => hT (hiff.mp h2))
    rw [hfinal, if_neg hT]
    exact ⟨hkey, rfl⟩

/-- **The replies of an encrypted record**, on any context. -/
theorem run_encryptCalls (a : Ctx) {key : Option (List Byte)} (hkey : ∀ k ∈ key, k.length = 16)
    (iv : Vector Byte 16) (ad : List Byte) (chunks : List (List Byte)) :
    let K := keyAfter a key
    let r := sealFrom K (lazyStart K (loadLE 128 iv.toList) ad) chunks.flatten
    ∃ outs : List (List Byte),
      (run step a (encryptCalls key iv ad chunks)).2 = encryptReplies ad outs r.2 ∧
      outs.flatten = r.1 ∧ outs.map List.length = chunks.map List.length ∧
      (run step a (encryptCalls key iv ad chunks)).1.key = K := by
  intro K r
  let c := (lazyStart K (loadLE 128 iv.toList) ad, 0)
  have hr : r = ((encryptMachine.feedChunks c chunks).2.flatten,
      aeadTag K (encryptMachine.feedChunks c chunks).1) := by
    simp only [r, sealFrom, encryptMachine.feedChunks_flatten, c]
  obtain ⟨hfresh, hinit⟩ := init_fresh a hkey iv true
  obtain ⟨hready, haad⟩ := run_aadCalls hfresh ad
  obtain ⟨hready', hdata⟩ := run_dataCalls hready (by simp) chunks
  obtain ⟨hk, hfinal, hget⟩ := finalFn_encrypt hready'
  refine ⟨(encryptMachine.feedChunks c chunks).2, ?_, ?_, encryptMachine.length_feedChunks c chunks,
    ?_⟩
  · rw [hr]
    simp only [encryptCalls, run_append, run_cons, run_nil, step, einit, hinit, haad, hdata, hfinal,
      hget]
    rfl
  · rw [hr]
  · simp only [encryptCalls, run_append, run_cons, run_nil, step, einit]
    exact hk

/-- Setting the expected tag succeeds. -/
theorem setCtxParams_tag (a : Ctx) {T : List Byte} (hT : T.length = 16) :
    setCtxParams a { tag := some (.octets T) } = (setTag (loadLE 128 T) a, .done) := by
  have htag : memcpy a.tag 0 T = loadLE 128 T := memcpy_zero_eq_loadLE _ (by decide) _ (by omega)
  have hset : setCtxParams a { tag := some (.octets T) } =
      ({ a with tag := memcpy a.tag 0 T }, .done) := by
    simp [setCtxParams, sizeParamOk, ASCON128_TAGLEN, Reply.done, hT]
  rw [hset, htag]
  rfl

/-- **The replies of a decrypted record**, on any context. -/
theorem run_decryptCalls (a : Ctx) {key : Option (List Byte)} (hkey : ∀ k ∈ key, k.length = 16)
    (iv : Vector Byte 16) (ad : List Byte) {T : List Byte} (hT : T.length = 16)
    (chunks : List (List Byte)) :
    let K := keyAfter a key
    let r := openFrom K (lazyStart K (loadLE 128 iv.toList) ad) chunks.flatten
    ∃ outs : List (List Byte),
      (run step a (decryptCalls key iv ad T chunks)).2 =
        decryptReplies ad outs (decide (T = r.2)) ∧
      outs.flatten = r.1 ∧ outs.map List.length = chunks.map List.length ∧
      (run step a (decryptCalls key iv ad T chunks)).1.key = K := by
  intro K r
  let c := (lazyStart K (loadLE 128 iv.toList) ad, 0)
  have hr : r = ((decryptMachine.feedChunks c chunks).2.flatten,
      aeadTag K (decryptMachine.feedChunks c chunks).1) := by
    simp only [r, openFrom, decryptMachine.feedChunks_flatten, c]
  obtain ⟨hfresh, hinit⟩ := init_fresh a hkey iv false
  obtain ⟨hready, haad⟩ := run_aadCalls hfresh ad
  obtain ⟨hready', hdata⟩ := run_dataCalls (hready.setTag (loadLE 128 T)) (by simp) chunks
  obtain ⟨hk, hfinal⟩ := finalFn_decrypt hT hready'
  refine ⟨(decryptMachine.feedChunks c chunks).2, ?_, ?_, decryptMachine.length_feedChunks c chunks,
    ?_⟩
  · rw [hr]
    simp only [decryptCalls, run_append, run_cons, run_nil, step, dinit, hinit, haad,
      setCtxParams_tag _ hT, hdata, hfinal, decryptReplies, decide_eq_true_eq]
    rfl
  · rw [hr]
  · simp only [decryptCalls, run_append, run_cons, run_nil, step, dinit, setCtxParams_tag _ hT]
    exact hk

end AsconDtls.Provider
