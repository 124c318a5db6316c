import Mathlib.Data.FinEnum
import Mathlib.Data.Set.Card

/-!
# HMAC over a registered digest

A `Digest` is what a hash registers with the stack that computes HMAC: the size
of the block that is keyed, the size of the digest, the function.  A key longer
than the block is replaced by its hash, and `keyBlock` is the first `blockSize`
symbols of the result, filled up with zeros.

HMAC sees the key through this block only (`hmac_congr`), so it has no more
keyed functions than there are blocks (`encard_range_hmac_le`).
-/

namespace Hmac

structure Digest (α : Type*) where
  blockSize : Nat
  digestSize : Nat
  hash : List α → List α
  length_hash : ∀ msg, (hash msg).length = digestSize

variable {α : Type*} (zero : α) (ipad opad : α → α) (D : Digest α)

/-- The key, or the hash of a key longer than the block. -/
def hkey (key : List α) : List α := if D.blockSize < key.length then D.hash key else key

def keyBlock (key : List α) : Fin D.blockSize → α := fun i => (hkey D key).getD i zero

/-- The block with each symbol changed by `f`. -/
def keyPad (f : α → α) (key : List α) : List α := List.ofFn fun i => f (keyBlock zero D key i)

def hmac (key msg : List α) : List α :=
  let inner := D.hash (keyPad zero D ipad key ++ msg)
  D.hash (keyPad zero D opad key ++ inner)

@[simp] theorem length_keyPad (f : α → α) (key : List α) :
    (keyPad zero D f key).length = D.blockSize := List.length_ofFn

theorem keyPad_eq_iff {f : α → α} (hf : Function.Injective f) (key key' : List α) :
    keyPad zero D f key = keyPad zero D f key' ↔ keyBlock zero D key = keyBlock zero D key' := by
  rw [keyPad, keyPad, List.ofFn_inj]
  refine ⟨?_, ?_⟩
  · intro h
    funext i
    exact hf (congrFun h i)
  · intro h
    rw [h]

/-- **HMAC sees the key through its block only.** -/
theorem hmac_congr {key key' : List α} (h : keyBlock zero D key = keyBlock zero D key') :
    hmac zero ipad opad D key = hmac zero ipad opad D key' := by
  funext msg
  simp only [hmac, keyPad, h]

theorem keyBlock_of_lt {key : List α} (hlong : D.blockSize < key.length) (i : Fin D.blockSize) :
    keyBlock zero D key i = (D.hash key).getD i zero := by
  rw [keyBlock, hkey, if_pos hlong]

/-- The block of a key that the stack hashes is the start of the digest. -/
theorem keyBlock_eq_iff {key key' : List α} (hlong : D.blockSize < key.length)
    (hlong' : D.blockSize < key'.length) (hsize : D.blockSize ≤ D.digestSize) :
    keyBlock zero D key = keyBlock zero D key' ↔
      (D.hash key).take D.blockSize = (D.hash key').take D.blockSize := by
  have hget : ∀ {key : List α}, D.blockSize < key.length → ∀ i : Fin D.blockSize,
      ((D.hash key).take D.blockSize)[i.val]? = some (keyBlock zero D key i) := by
    intro key hlong i
    have hi : i.val < (D.hash key).length := by
      rw [D.length_hash]
      omega
    rw [keyBlock_of_lt zero D hlong, List.getElem?_take_of_lt i.isLt, List.getD_eq_getElem?_getD,
      List.getElem?_eq_getElem hi, Option.getD_some]
  refine ⟨?_, ?_⟩
  · intro h
    apply List.ext_getElem?
    intro i
    by_cases hi : i < D.blockSize
    · rw [hget hlong ⟨i, hi⟩, hget hlong' ⟨i, hi⟩, h]
    · rw [List.getElem?_eq_none (by rw [List.length_take]; omega),
        List.getElem?_eq_none (by rw [List.length_take]; omega)]
  · intro h
    funext i
    have hi := hget hlong i
    rw [h, hget hlong' i] at hi
    exact (Option.some.inj hi).symm

/-- **No more keyed functions than blocks**, whatever the keys. -/
theorem encard_range_hmac_le [Fintype α] {κ : Type*} (key : κ → List α) :
    (Set.range fun k => hmac zero ipad opad D (key k)).encard ≤
      (Fintype.card α ^ D.blockSize : ℕ) := by
  let keyed (block : Fin D.blockSize → α) (msg : List α) : List α :=
    D.hash (List.ofFn (fun i => opad (block i)) ++
      D.hash (List.ofFn (fun i => ipad (block i)) ++ msg))
  have hrange : (Set.range fun k => hmac zero ipad opad D (key k)) ⊆ Set.range keyed := by
    rintro _ ⟨k, rfl⟩
    exact ⟨keyBlock zero D (key k), rfl⟩
  have hcard : (Set.univ : Set (Fin D.blockSize → α)).encard =
      (Fintype.card α ^ D.blockSize : ℕ) := by
    rw [Set.encard_univ, ENat.card_eq_coe_fintype_card, Fintype.card_fun, Fintype.card_fin]
  calc (Set.range fun k => hmac zero ipad opad D (key k)).encard
      ≤ (Set.range keyed).encard := Set.encard_le_encard hrange
    _ = (keyed '' Set.univ).encard := by rw [Set.image_univ]
    _ ≤ (Set.univ : Set (Fin D.blockSize → α)).encard := Set.encard_image_le ..
    _ = (Fintype.card α ^ D.blockSize : ℕ) := hcard

end Hmac
