import Mathlib.Data.List.Infix
import Mathlib.Data.List.Nodup
import Mathlib.Tactic.Common

/-!
# The distinct elements of a list in order of first appearance

`firsts l` is what a loop over `l` collects that keeps the elements it has not seen yet.
Elements are added at the end only, so a place once taken keeps its element
(`getElem?_firsts_append`).
-/

namespace Firsts

variable {α : Type*} [DecidableEq α]

/-- An element is added unless it is there. -/
def insertNew (seen : List α) (x : α) : List α := if x ∈ seen then seen else seen ++ [x]

def firsts (l : List α) : List α := l.foldl insertNew []

@[simp] theorem firsts_nil : firsts ([] : List α) = [] := rfl

theorem firsts_concat (l : List α) (x : α) : firsts (l ++ [x]) = insertNew (firsts l) x := by
  rw [firsts, List.foldl_append]
  rfl

theorem mem_insertNew {seen : List α} {x y : α} : y ∈ insertNew seen x ↔ y ∈ seen ∨ y = x := by
  unfold insertNew
  split
  · next hx =>
      refine ⟨Or.inl, ?_⟩
      rintro (hy | rfl)
      · exact hy
      · exact hx
  · rw [List.mem_append, List.mem_singleton]

theorem mem_firsts {l : List α} {x : α} : x ∈ firsts l ↔ x ∈ l := by
  induction l using List.reverseRecOn with
  | nil => simp
  | append_singleton l y ih =>
      rw [firsts_concat, mem_insertNew, ih, List.mem_append, List.mem_singleton]

theorem nodup_firsts (l : List α) : (firsts l).Nodup := by
  induction l using List.reverseRecOn with
  | nil => exact List.nodup_nil
  | append_singleton l x ih =>
      rw [firsts_concat, insertNew]
      split
      · exact ih
      · next hx =>
          refine List.nodup_append.mpr ⟨ih, List.nodup_singleton x, ?_⟩
          intro y hy z hz
          obtain rfl := List.mem_singleton.mp hz
          exact ne_of_mem_of_not_mem hy hx

theorem prefix_insertNew (seen : List α) (x : α) : seen <+: insertNew seen x := by
  unfold insertNew
  split
  · exact List.prefix_refl seen
  · exact List.prefix_append seen [x]

theorem firsts_prefix (l m : List α) : firsts l <+: firsts (l ++ m) := by
  induction m using List.reverseRecOn with
  | nil => rw [List.append_nil]
  | append_singleton m x ih =>
      rw [← List.append_assoc, firsts_concat]
      exact ih.trans (prefix_insertNew _ x)

/-- The element at a place stays there. -/
theorem getElem?_firsts_append {l : List α} {n : Nat} (h : n < (firsts l).length) (m : List α) :
    (firsts (l ++ m))[n]? = (firsts l)[n]? := by
  obtain ⟨t, ht⟩ := firsts_prefix l m
  rw [← ht, List.getElem?_append_left h]

/-- An element has one place. -/
theorem place_unique {l : List α} {m n : Nat} {x : α} (hm : (firsts l)[m]? = some x)
    (hn : (firsts l)[n]? = some x) : m = n := by
  obtain ⟨hlt, -⟩ := List.getElem?_eq_some_iff.mp hm
  exact (List.getElem?_inj hlt (nodup_firsts l)).mp (hm.trans hn.symm)

/-- An element seen by now has its place among those seen by now. -/
theorem place_lt {l m : List α} {n : Nat} {x : α} (hx : x ∈ l)
    (hn : (firsts (l ++ m))[n]? = some x) : n < (firsts l).length := by
  obtain ⟨i, hi, hget⟩ := List.getElem_of_mem (mem_firsts.mpr hx)
  have hget : (firsts l)[i]? = some x := List.getElem?_eq_some_iff.mpr ⟨hi, hget⟩
  rw [← getElem?_firsts_append hi m] at hget
  rw [place_unique hn hget]
  exact hi

end Firsts
