import Mathlib.Data.List.Induction
import Mathlib.Tactic.Common

/-!
# Where two inputs of a sponge meet

A sponge takes blocks into the outer part of its state and permutes after each.  No block touches
the inner part.  So two inputs come to one state only where two different states, or a state and
the start, already agree on the inner part (`Sponge.Collide`):

* `lastInput_eq_iff` says which inputs meet.
* `exists_meet` makes two inputs that meet from two that collide.
* `lastInput_append` says that inputs that have met go on together.
-/

namespace Collision

structure Sponge (σ β κ : Type*) where
  start : σ
  permute : σ → σ
  absorb : σ → β → σ
  inner : σ → κ
  inner_absorb : ∀ s b, inner (absorb s b) = inner s
  absorb_injective : ∀ s, Function.Injective (absorb s)
  /-- The blocks reach every state with this inner part. -/
  exists_absorb : ∀ s t, inner s = inner t → ∃ b, absorb s b = t

namespace Sponge

variable {σ β κ : Type*} (S : Sponge σ β κ)

/-- The state after whole blocks. -/
def after (bs : List β) : σ := bs.foldl (fun s b => S.permute (S.absorb s b)) S.start

/-- What the permutation is given last, none at the start. -/
def lastInput (bs : List β) : Option σ := bs.getLast?.map (S.absorb (S.after bs.dropLast))

/-- The inner parts agree although the permutation was given different states. -/
def Collide (us vs : List β) : Prop :=
  S.inner (S.after us) = S.inner (S.after vs) ∧ S.lastInput us ≠ S.lastInput vs

/-- `us` and `vs` collide, the next blocks make up for what is left, and then the inputs are the
same. -/
def Meet (bs cs : List β) : Prop :=
  ∃ us b vs c ws, bs = us ++ b :: ws ∧ cs = vs ++ c :: ws ∧ S.Collide us vs ∧
    S.absorb (S.after us) b = S.absorb (S.after vs) c

@[simp] theorem after_append_singleton (bs : List β) (b : β) :
    S.after (bs ++ [b]) = S.permute (S.absorb (S.after bs) b) := by
  rw [after, List.foldl_append]
  rfl

@[simp] theorem lastInput_nil : S.lastInput [] = none := rfl

@[simp] theorem lastInput_append_singleton (bs : List β) (b : β) :
    S.lastInput (bs ++ [b]) = some (S.absorb (S.after bs) b) := by
  rw [lastInput, List.getLast?_append, List.dropLast_concat]
  rfl

variable {S} {bs cs : List β}

theorem after_eq_of_lastInput_eq (h : S.lastInput bs = S.lastInput cs) : S.after bs = S.after cs := by
  rcases List.eq_nil_or_concat bs with rfl | ⟨us, b, rfl⟩
  · rcases List.eq_nil_or_concat cs with rfl | ⟨vs, c, rfl⟩
    · rfl
    · rw [List.concat_eq_append, lastInput_nil, lastInput_append_singleton] at h
      cases h
  · rcases List.eq_nil_or_concat cs with rfl | ⟨vs, c, rfl⟩
    · rw [List.concat_eq_append, lastInput_nil, lastInput_append_singleton] at h
      cases h
    · simp only [List.concat_eq_append, lastInput_append_singleton, Option.some.injEq] at h
      simp only [List.concat_eq_append, after_append_singleton, h]

/-- What has met goes on together. -/
theorem lastInput_append (h : S.lastInput bs = S.lastInput cs) (ws : List β) :
    S.lastInput (bs ++ ws) = S.lastInput (cs ++ ws) := by
  induction ws using List.reverseRecOn with
  | nil => rwa [List.append_nil, List.append_nil]
  | append_singleton ws w ih =>
      rw [← List.append_assoc, ← List.append_assoc, lastInput_append_singleton,
        lastInput_append_singleton, after_eq_of_lastInput_eq ih]

theorem Meet.append (h : S.Meet bs cs) (ws : List β) : S.Meet (bs ++ ws) (cs ++ ws) := by
  obtain ⟨us, b, vs, c, ws', rfl, rfl, hcollide, hblock⟩ := h
  refine ⟨us, b, vs, c, ws' ++ ws, ?_, ?_, hcollide, hblock⟩
  · rw [List.append_assoc, List.cons_append]
  · rw [List.append_assoc, List.cons_append]

theorem Meet.lastInput_eq (h : S.Meet bs cs) : S.lastInput bs = S.lastInput cs := by
  obtain ⟨us, b, vs, c, ws, rfl, rfl, -, hblock⟩ := h
  have hmet : S.lastInput (us ++ [b]) = S.lastInput (vs ++ [c]) := by
    rw [lastInput_append_singleton, lastInput_append_singleton, hblock]
  have hon := lastInput_append hmet ws
  rwa [List.append_assoc, List.append_assoc, List.singleton_append, List.singleton_append] at hon

/-- By induction from the end: as long as the permutation was given one state, the blocks were the
same; the first time it was not is the collision. -/
theorem eq_or_meet (h : S.lastInput bs = S.lastInput cs) : bs = cs ∨ S.Meet bs cs := by
  induction bs using List.reverseRecOn generalizing cs with
  | nil =>
      rcases List.eq_nil_or_concat cs with rfl | ⟨vs, c, rfl⟩
      · exact .inl rfl
      · rw [List.concat_eq_append, lastInput_nil, lastInput_append_singleton] at h
        cases h
  | append_singleton us b ih =>
      rcases List.eq_nil_or_concat cs with rfl | ⟨vs, c, rfl⟩
      · rw [lastInput_nil, lastInput_append_singleton] at h
        cases h
      · simp only [List.concat_eq_append, lastInput_append_singleton, Option.some.injEq] at h ⊢
        by_cases hsame : S.lastInput us = S.lastInput vs
        · rw [after_eq_of_lastInput_eq hsame] at h
          obtain rfl := S.absorb_injective _ h
          rcases ih hsame with rfl | hmeet
          · exact .inl rfl
          · exact .inr (hmeet.append [b])
        · have hinner : S.inner (S.after us) = S.inner (S.after vs) := by
            rw [← S.inner_absorb _ b, h, S.inner_absorb]
          exact .inr ⟨us, b, vs, c, [], rfl, rfl, ⟨hinner, hsame⟩, h⟩

/-- **Which inputs meet.** -/
theorem lastInput_eq_iff : S.lastInput bs = S.lastInput cs ↔ bs = cs ∨ S.Meet bs cs := by
  refine ⟨eq_or_meet, ?_⟩
  rintro (rfl | hmeet)
  · rfl
  · exact hmeet.lastInput_eq

/-- A collision makes inputs meet, whatever the next block of one of them. -/
theorem Collide.exists_meet {us vs : List β} (h : S.Collide us vs) (b : β) :
    ∃ c, S.Meet (us ++ [b]) (vs ++ [c]) := by
  have hinner : S.inner (S.after vs) = S.inner (S.absorb (S.after us) b) := by
    rw [S.inner_absorb, h.1]
  obtain ⟨c, hc⟩ := S.exists_absorb _ _ hinner
  exact ⟨c, us, b, vs, c, [], rfl, rfl, h, hc.symm⟩

theorem Collide.ne {us vs : List β} (h : S.Collide us vs) : us ≠ vs := by
  rintro rfl
  exact h.2 rfl

end Sponge

end Collision
