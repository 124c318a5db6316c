import AsconDtls.Wolf.Stream

/-!
# What a record leaves behind in a wolfSSL context

The record layer keeps its per-epoch IV in the context and runs `Init` once per
record.  No call reads the `iv` words and none changes them (`step_setIv`), and
`Init` forgets everything else, so what a record answers does not depend on what
ran before it (`record_history_free`).
-/

namespace AsconDtls.Wolf

open LittleEndian
open Run (run run_append run_cons run_nil)

namespace AsconAEAD128

/-- The context with other IV words. -/
def setIv (a : AsconAEAD128) (iv : Vector (BitVec 64) 2) : AsconAEAD128 := { a with iv := iv }

@[simp] theorem setIv_self (a : AsconAEAD128) : a.setIv a.iv = a := rfl

/-- `Init` forgets everything but the IV words. -/
theorem init_setIv (a b : AsconAEAD128) : a.init = (b.init.1.setIv a.iv, .ok []) := by
  simp only [init, init_iv]
  rfl

/-- What a call does, with other IV words. -/
def mapIv (iv : Vector (BitVec 64) 2) (r : AsconAEAD128 × Reply) : AsconAEAD128 × Reply :=
  (r.1.setIv iv, r.2)

variable (B : Build) (a : AsconAEAD128) (iv : Vector (BitVec 64) 2)

theorem setKey_setIv (key : Option (Vector Byte 16)) :
    (a.setIv iv).setKey key = mapIv iv (a.setKey key) := by
  cases key with
  | none => rfl
  | some key =>
      unfold setKey
      simp only [apply_ite (mapIv iv)]
      rfl

theorem setNonce_setIv (nonce : Option (Vector Byte 16)) :
    (a.setIv iv).setNonce nonce = mapIv iv (a.setNonce nonce) := by
  cases nonce with
  | none => rfl
  | some nonce =>
      unfold setNonce
      simp only [apply_ite (mapIv iv)]
      rfl

theorem setAD_setIv (ad : Src) : setAD B (a.setIv iv) ad = mapIv iv (setAD B a ad) := by
  unfold setAD
  simp only [apply_ite (mapIv iv)]
  rfl

theorem update_setIv (dir : Op) (part : Nat → List Byte → AsconState → AsconState × List Byte)
    (inp : Src) : update B dir part (a.setIv iv) inp = mapIv iv (update B dir part a inp) := by
  unfold update
  simp only [apply_ite (mapIv iv)]
  rfl

theorem encryptFinal_setIv (tag : Dst) :
    encryptFinal B (a.setIv iv) tag = mapIv iv (encryptFinal B a tag) := by
  unfold encryptFinal
  simp only [apply_ite (mapIv iv)]
  rfl

theorem decryptFinal_setIv (tag : Option (Vector Byte 16)) :
    decryptFinal B (a.setIv iv) tag = mapIv iv (decryptFinal B a tag) := by
  cases tag with
  | none => rfl
  | some tag =>
      unfold decryptFinal
      simp only [apply_ite (mapIv iv)]
      rfl

theorem mask_setIv (ct : Option (Vector Byte 16)) (out : Dst) :
    (a.setIv iv).mask ct out = mapIv iv (a.mask ct out) := by
  cases ct with
  | none => rfl
  | some ct =>
      cases out with
      | null => rfl
      | ptr =>
          unfold mask
          simp only [apply_ite (mapIv iv)]
          rfl

end AsconAEAD128

open AsconAEAD128

/-- **No call reads the IV words or changes them.** -/
theorem step_setIv (B : Build) (a : AsconAEAD128) (iv : Vector (BitVec 64) 2) (c : Call) :
    step B (a.setIv iv) c = mapIv iv (step B a c) := by
  cases c with
  | init => exact init_setIv (a.setIv iv) a
  | setKey key => exact setKey_setIv a iv key
  | setNonce nonce => exact setNonce_setIv a iv nonce
  | setAD ad => exact setAD_setIv B a iv ad
  | encryptUpdate inp => exact update_setIv B a iv .encrypt encryptPart inp
  | encryptFinal tag => exact encryptFinal_setIv B a iv tag
  | decryptUpdate inp => exact update_setIv B a iv .decrypt decryptPart inp
  | decryptFinal tag => exact decryptFinal_setIv B a iv tag
  | mask ct out => exact mask_setIv a iv ct out

theorem step_iv (B : Build) (a : AsconAEAD128) (c : Call) : (step B a c).1.iv = a.iv := by
  have h := step_setIv B a a.iv c
  rw [setIv_self] at h
  rw [h]
  rfl

/-- Contexts that differ in the IV words only answer alike. -/
theorem run_setIv (B : Build) (a : AsconAEAD128) (iv : Vector (BitVec 64) 2) (cs : List Call) :
    (run (step B) (a.setIv iv) cs).2 = (run (step B) a cs).2 := by
  have hstep : ∀ (s t : AsconAEAD128) (c : Call), s = t.setIv iv →
      (step B s c).2 = (step B t c).2 ∧ (step B s c).1 = (step B t c).1.setIv iv := by
    rintro _ t c rfl
    rw [step_setIv]
    exact ⟨rfl, rfl⟩
  exact (Run.run_related (fun s t => s = t.setIv iv) hstep rfl cs).1

/-- **A record answers the same whatever ran on the context before it**, and no
run changes the IV words. -/
theorem record_history_free (B : Build) :
    (∀ (a b : AsconAEAD128) (hist hist' record : List Call),
      (run (step B) (run (step B) a hist).1 (.init :: record)).2 =
        (run (step B) (run (step B) b hist').1 (.init :: record)).2) ∧
    (∀ (a : AsconAEAD128) (cs : List Call), (run (step B) a cs).1.iv = a.iv) := by
  refine ⟨?_, ?_⟩
  · intro a b hist hist' record
    have hinit : ∀ a : AsconAEAD128, (run (step B) a (.init :: record)).2 =
        .ok [] :: (run (step B) zero.init.1 record).2 := by
      intro a
      rw [run_cons, step, init_setIv a zero]
      simp only [run_setIv]
    rw [hinit, hinit]
  · intro a cs
    exact Run.run_const AsconAEAD128.iv (step_iv B) a cs

end AsconDtls.Wolf
