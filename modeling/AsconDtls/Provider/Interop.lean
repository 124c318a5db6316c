import AsconDtls.Provider.Session
import AsconDtls.Wolf.Stream

/-!
# The provider against wolfSSL

Both sides seal a record as `sealFrom`, from `lazyStart` here and from
`aeadStart` there.  The two sponges are the same unless the associated data are
one or more whole blocks: then wolfSSL absorbs a block of padding and the
provider does not.  `interop_iff` says for which kinds of associated data all
ciphertexts and tags agree.
-/

namespace AsconDtls.Provider

open LittleEndian
open Run (run)

/-- No associated data, data that end inside a block, or whole blocks. -/
inductive AadKind
  | empty
  | partialBlock
  | wholeBlocks
deriving DecidableEq

def aadKind (ad : List Byte) : AadKind :=
  if ad = [] then .empty else if ad.length % 16 = 0 then .wholeBlocks else .partialBlock

/-- Ciphertext and tag in the provider's replies. -/
def sealedBy (rs : List Reply) : List Byte × List Byte := (outBytes rs, readTag rs)

/-- Ciphertext and tag in the replies of wolfSSL: what the last call and what the
calls before it wrote. -/
def wolfSealedBy (rs : List Wolf.Reply) : List Byte × List Byte :=
  ((rs.dropLast.map Wolf.Reply.out).flatten, (rs.getLast?.map Wolf.Reply.out).getD [])

/-- Both sides seal the plaintext alike, whatever the contexts held before and
however each side cuts the plaintext. -/
def Interoperates (key iv : Vector Byte 16) (ad : List Byte) : Prop :=
  ∀ (B : Wolf.Build) (a : Wolf.AsconAEAD128) (p : Ctx) (keyFirst : Bool)
    (chunks chunks' : List (List Byte)), chunks ≠ [] → chunks'.flatten = chunks.flatten →
    sealedBy (run step p (encryptCalls (some key.toList) iv ad chunks')).2 =
      wolfSealedBy (run (Wolf.step B) a (Wolf.encryptCalls keyFirst key iv ad chunks)).2

theorem sealedBy_encryptReplies (ad : List Byte) (outs : List (List Byte)) (tag : List Byte) :
    sealedBy (encryptReplies ad outs tag) = (outs.flatten, tag) := by
  rw [sealedBy, outBytes_encryptReplies, readTag_encryptReplies]

theorem wolfSealedBy_recordReplies (outs : List (List Byte)) (tag : List Byte) :
    wolfSealedBy (Wolf.recordReplies outs (.ok tag)) = (outs.flatten, tag) := by
  have hout : Wolf.Reply.out ∘ Wolf.Reply.ok = id := rfl
  rw [wolfSealedBy, Wolf.recordReplies, List.dropLast_concat, List.getLast?_concat, List.map_append,
    List.map_map, hout, List.map_id]
  rfl

theorem length_given (key : Vector Byte 16) : ∀ k ∈ some key.toList, k.length = 16 := by
  rintro k ⟨⟩
  exact key.length_toList

/-- What the provider makes of a plaintext. -/
theorem sealedBy_encryptCalls (p : Ctx) (key iv : Vector Byte 16) (ad : List Byte)
    (chunks : List (List Byte)) :
    sealedBy (run step p (encryptCalls (some key.toList) iv ad chunks)).2 =
      sealFrom (loadLE 128 key.toList)
        (lazyStart (loadLE 128 key.toList) (loadLE 128 iv.toList) ad) chunks.flatten := by
  obtain ⟨outs, hrun, hflat, -⟩ := run_encryptCalls p (length_given key) iv ad chunks
  simp only [keyAfter] at hrun hflat
  rw [hrun, sealedBy_encryptReplies, hflat]

/-- What wolfSSL makes of it. -/
theorem wolfSealedBy_encryptCalls (B : Wolf.Build) (a : Wolf.AsconAEAD128) (keyFirst : Bool)
    (key iv : Vector Byte 16) (ad : List Byte) {chunks : List (List Byte)} (hne : chunks ≠ []) :
    wolfSealedBy (run (Wolf.step B) a (Wolf.encryptCalls keyFirst key iv ad chunks)).2 =
      sealFrom (loadLE 128 key.toList)
        (aeadStart (loadLE 128 key.toList) (loadLE 128 iv.toList) ad) chunks.flatten := by
  obtain ⟨outs, hrun, hflat, -⟩ := Wolf.run_encrypt B a keyFirst key iv ad hne
  rw [hrun, wolfSealedBy_recordReplies, hflat]
  rfl

theorem interoperates_iff (key iv : Vector Byte 16) (ad : List Byte) :
    Interoperates key iv ad ↔ ∀ pt,
      sealFrom (loadLE 128 key.toList)
          (lazyStart (loadLE 128 key.toList) (loadLE 128 iv.toList) ad) pt =
        sealFrom (loadLE 128 key.toList)
          (aeadStart (loadLE 128 key.toList) (loadLE 128 iv.toList) ad) pt := by
  refine ⟨?_, ?_⟩
  · intro h pt
    have hone := h ⟨.looped, fun _ _ => 0⟩ .zero newctx true [pt] [pt] (by simp) rfl
    rw [sealedBy_encryptCalls, wolfSealedBy_encryptCalls _ _ _ _ _ _ (by simp)] at hone
    simpa using hone
  · intro h B a p keyFirst chunks chunks' hne hflat
    rw [sealedBy_encryptCalls, wolfSealedBy_encryptCalls B a keyFirst key iv ad hne, hflat, h]

/-- On one block of zeros under the zero key and nonce the tags differ. -/
theorem zero_block_differs :
    sealFrom 0 (lazyStart 0 0 (List.replicate 16 0#8)) [] ≠
      sealFrom 0 (aeadStart 0 0 (List.replicate 16 0#8)) [] := by
  decide +kernel

/-- **All ciphertexts and tags agree, exactly for the kinds of associated data
other than whole blocks.** -/
theorem interop_iff (k : AadKind) :
    (∀ ad, aadKind ad = k → ∀ key iv, Interoperates key iv ad) ↔ k ≠ .wholeBlocks := by
  refine ⟨?_, ?_⟩
  · rintro h rfl
    have hz := h (List.replicate 16 0#8) (by decide) (Vector.replicate 16 0#8)
      (Vector.replicate 16 0#8)
    have hzero : loadLE 128 (Vector.replicate 16 0#8).toList = 0 := by decide
    rw [interoperates_iff, hzero] at hz
    exact zero_block_differs (hz [])
  · intro hk ad had key iv
    rw [interoperates_iff]
    intro pt
    have hpart : ad = [] ∨ ad.length % 16 ≠ 0 := by
      by_contra hno
      rw [not_or, not_not] at hno
      exact hk (had.symm.trans (by rw [aadKind, if_neg hno.1, if_pos hno.2]))
    rw [lazyStart_eq_aeadStart _ _ hpart]

/-- **One block of associated data is enough for different tags.** -/
theorem interop_fails :
    let zeros : Vector Byte 16 := Vector.replicate 16 0#8
    ¬ Interoperates zeros zeros zeros.toList := by
  intro zeros h
  have hrun := h ⟨.looped, fun _ _ => 0⟩ .zero newctx true [[]] [] (by simp) rfl
  revert hrun
  decide +kernel

end AsconDtls.Provider
