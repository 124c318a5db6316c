import Mathlib.Data.List.Basic
import Mathlib.Tactic.Common

/-!
# Runs of a state machine that answers calls

`run step s cs` makes the calls `cs` one after another and collects the
replies; `trace` pairs each call with its reply.  An induction over a run is one
of the rules below:

* `run_preserves`: what every step preserves, a run preserves.
* `run_related`: related states that answer alike and stay related give the
  same replies.
* `trace_invariant`: an invariant between the trace so far and the state.
-/

namespace Run

variable {σ τ ι ο : Type*}

def run (step : σ → ι → σ × ο) : σ → List ι → σ × List ο
  | s, [] => (s, [])
  | s, c :: cs =>
    let r := step s c
    let t := run step r.1 cs
    (t.1, r.2 :: t.2)

/-- The calls of a run with their replies. -/
def trace (step : σ → ι → σ × ο) (s : σ) (cs : List ι) : List (ι × ο) := cs.zip (run step s cs).2

variable {step : σ → ι → σ × ο}

@[simp] theorem run_nil (s : σ) : run step s [] = (s, []) := rfl

theorem run_cons (s : σ) (c : ι) (cs : List ι) :
    run step s (c :: cs) =
      ((run step (step s c).1 cs).1, (step s c).2 :: (run step (step s c).1 cs).2) := rfl

theorem run_append (s : σ) (cs ds : List ι) :
    run step s (cs ++ ds) =
      ((run step (run step s cs).1 ds).1,
        (run step s cs).2 ++ (run step (run step s cs).1 ds).2) := by
  induction cs generalizing s with
  | nil => rfl
  | cons c cs ih => simp only [List.cons_append, run_cons, ih]

/-- What every step preserves, a run preserves. -/
theorem run_preserves (P : σ → Prop) (h : ∀ s c, P s → P (step s c).1) {s : σ} (hs : P s)
    (cs : List ι) : P (run step s cs).1 := by
  induction cs generalizing s with
  | nil => exact hs
  | cons c cs ih => exact ih (h s c hs)

/-- A function of the state that no step changes. -/
theorem run_const {α : Type*} (f : σ → α) (h : ∀ s c, f (step s c).1 = f s) (s : σ)
    (cs : List ι) : f (run step s cs).1 = f s :=
  run_preserves (fun t => f t = f s) (fun t c ht => (h t c).trans ht) rfl cs

/-- Related states that answer alike and stay related give the same replies. -/
theorem run_related {step' : τ → ι → τ × ο} (R : σ → τ → Prop)
    (h : ∀ s t c, R s t → (step s c).2 = (step' t c).2 ∧ R (step s c).1 (step' t c).1)
    {s : σ} {t : τ} (hst : R s t) (cs : List ι) :
    (run step s cs).2 = (run step' t cs).2 ∧ R (run step s cs).1 (run step' t cs).1 := by
  induction cs generalizing s t with
  | nil => exact ⟨rfl, hst⟩
  | cons c cs ih =>
      obtain ⟨ho, hR⟩ := h s t c hst
      obtain ⟨hos, hRs⟩ := ih hR
      exact ⟨by simp only [run_cons, ho, hos], hRs⟩

/-- An invariant between what happened so far and the state, for calls with `Q`. -/
theorem trace_invariant (P : List (ι × ο) → σ → Prop) (Q : ι → Prop)
    (h : ∀ tr s c, Q c → P tr s → P (tr ++ [(c, (step s c).2)]) (step s c).1) {s : σ}
    (hs : P [] s) {cs : List ι} (hcs : ∀ c ∈ cs, Q c) :
    P (trace step s cs) (run step s cs).1 := by
  have aux : ∀ (cs : List ι) (tr : List (ι × ο)) (s : σ), (∀ c ∈ cs, Q c) → P tr s →
      P (tr ++ trace step s cs) (run step s cs).1 := by
    intro cs
    induction cs with
    | nil =>
        intro tr s _ htr
        simpa [trace] using htr
    | cons c cs ih =>
        intro tr s hq htr
        obtain ⟨hc, hcs⟩ := List.forall_mem_cons.mp hq
        have hnext := ih _ _ hcs (h tr s c hc htr)
        rwa [List.append_assoc, List.singleton_append] at hnext
  exact aux cs [] s hcs hs

end Run
