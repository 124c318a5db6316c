import Mathlib.Data.List.Basic
import Mathlib.Tactic.Common

/-!
# The padding 10*

`pad10` appends a mark and as many zeros as it takes to fill a block, a whole
block if need be.  It is injective.  `lazyPad` leaves whole blocks as they are;
`lazyPad_eq_iff` says which messages it confuses: one that ends inside a block with
its padding.
-/

namespace Padding

variable {α : Type*} (one zero : α) (rate : Nat)

/-- `xs 1 0 … 0`, up to the end of a block. -/
def pad10 (xs : List α) : List α :=
  xs ++ one :: List.replicate (rate - 1 - xs.length % rate) zero

/-- `pad10`, but not after whole blocks. -/
def lazyPad (xs : List α) : List α :=
  if xs.length % rate = 0 then xs else pad10 one zero rate xs

/-- `xs` is the padding of a message `ys` that ends inside a block. -/
def IsPaddingOf (xs ys : List α) : Prop :=
  ys.length % rate ≠ 0 ∧ xs = pad10 one zero rate ys

variable {one zero rate}

theorem length_pad10_mod (hr : 0 < rate) (xs : List α) :
    (pad10 one zero rate xs).length % rate = 0 := by
  have hlt : xs.length % rate < rate := Nat.mod_lt _ hr
  have hdiv : rate * (xs.length / rate) + xs.length % rate = xs.length := Nat.div_add_mod _ _
  have hlen : (pad10 one zero rate xs).length = rate * (xs.length / rate + 1) := by
    rw [pad10, List.length_append, List.length_cons, List.length_replicate, Nat.mul_add]
    omega
  rw [hlen, Nat.mul_mod_right]

theorem length_lazyPad_mod (hr : 0 < rate) (xs : List α) :
    (lazyPad one zero rate xs).length % rate = 0 := by
  by_cases h : xs.length % rate = 0
  · rw [lazyPad, if_pos h, h]
  · rw [lazyPad, if_neg h, length_pad10_mod hr]

/-- The last mark of a padded message is the one that the padding put there. -/
theorem mark_unique (h : one ≠ zero) {xs : List α} {m n : Nat}
    (heq : one :: List.replicate m zero = xs ++ one :: List.replicate n zero) : xs = [] := by
  cases xs with
  | nil => rfl
  | cons x xs =>
      rw [List.cons_append, List.cons.injEq] at heq
      have hmem : one ∈ List.replicate m zero := by
        rw [heq.2]
        exact List.mem_append_right _ List.mem_cons_self
      exact absurd (List.eq_of_mem_replicate hmem) h

theorem pad10_injective (h : one ≠ zero) {xs ys : List α}
    (heq : pad10 one zero rate xs = pad10 one zero rate ys) : xs = ys := by
  rcases List.append_eq_append_iff.1 heq with ⟨t, hys, ht⟩ | ⟨t, hxs, ht⟩
  · rw [hys, mark_unique h ht, List.append_nil]
  · rw [hxs, mark_unique h ht, List.append_nil]

theorem IsPaddingOf.lazyPad_eq (hr : 0 < rate) {xs ys : List α}
    (h : IsPaddingOf one zero rate xs ys) :
    lazyPad one zero rate xs = lazyPad one zero rate ys := by
  obtain ⟨hy, rfl⟩ := h
  rw [lazyPad, if_pos (length_pad10_mod hr ys), lazyPad, if_neg hy]

/-- **What the lazy padding confuses.** -/
theorem lazyPad_eq_iff (hr : 0 < rate) (h : one ≠ zero) {xs ys : List α} :
    lazyPad one zero rate xs = lazyPad one zero rate ys ↔
      xs = ys ∨ IsPaddingOf one zero rate xs ys ∨ IsPaddingOf one zero rate ys xs := by
  refine ⟨?_, ?_⟩
  · intro heq
    by_cases hx : xs.length % rate = 0
    · by_cases hy : ys.length % rate = 0
      · rw [lazyPad, if_pos hx, lazyPad, if_pos hy] at heq
        exact .inl heq
      · rw [lazyPad, if_pos hx, lazyPad, if_neg hy] at heq
        exact .inr (.inl ⟨hy, heq⟩)
    · by_cases hy : ys.length % rate = 0
      · rw [lazyPad, if_neg hx, lazyPad, if_pos hy] at heq
        exact .inr (.inr ⟨hx, heq.symm⟩)
      · rw [lazyPad, if_neg hx, lazyPad, if_neg hy] at heq
        exact .inl (pad10_injective h heq)
  · rintro (rfl | hpad | hpad)
    · rfl
    · exact hpad.lazyPad_eq hr
    · exact (hpad.lazyPad_eq hr).symm

end Padding
