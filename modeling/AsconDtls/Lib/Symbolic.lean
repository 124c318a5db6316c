/-!
# Symbolic terms and what an attacker derives

Terms over a signature are taken modulo a set of equations.  An attacker who
knows some terms derives all that the function symbols build of them
(`Derives`); the destructors are function symbols like the others.

An interpretation in which the equations hold tells terms apart
(`Models.not_eqv`).  Two valuations of the names that give the known terms the
same values give every derivable term the same value, so no term on which they
differ is derivable (`Models.not_derives`).
-/

namespace Symbolic

/-- The function symbols by their number of arguments. -/
structure Sig where
  Nullary : Type
  Unary : Type
  Binary : Type

inductive Term (S : Sig)
  | name (n : Nat)
  | const (c : S.Nullary)
  | un (f : S.Unary) (a : Term S)
  | bin (f : S.Binary) (a b : Term S)

variable {S : Sig}

/-- Equality modulo the equations `ax`. -/
inductive Eqv (ax : Term S → Term S → Prop) : Term S → Term S → Prop
  | ax {s t : Term S} (h : ax s t) : Eqv ax s t
  | refl (t : Term S) : Eqv ax t t
  | symm {s t : Term S} (h : Eqv ax s t) : Eqv ax t s
  | trans {s t u : Term S} (h : Eqv ax s t) (h' : Eqv ax t u) : Eqv ax s u
  | un (f : S.Unary) {s t : Term S} (h : Eqv ax s t) : Eqv ax (.un f s) (.un f t)
  | bin (f : S.Binary) {s t s' t' : Term S} (h : Eqv ax s t) (h' : Eqv ax s' t') :
      Eqv ax (.bin f s s') (.bin f t t')

/-- What an attacker derives from the terms `known`. -/
inductive Derives (ax : Term S → Term S → Prop) (known : List (Term S)) : Term S → Prop
  | known {t : Term S} (h : t ∈ known) : Derives ax known t
  | const (c : S.Nullary) : Derives ax known (.const c)
  | un (f : S.Unary) {t : Term S} (h : Derives ax known t) : Derives ax known (.un f t)
  | bin (f : S.Binary) {s t : Term S} (h : Derives ax known s) (h' : Derives ax known t) :
      Derives ax known (.bin f s t)
  | eqv {s t : Term S} (h : Derives ax known s) (h' : Eqv ax s t) : Derives ax known t

theorem Derives.mono {ax : Term S → Term S → Prop} {known known' : List (Term S)}
    (hsub : known ⊆ known') {t : Term S} (h : Derives ax known t) : Derives ax known' t := by
  induction h with
  | known h => exact .known (hsub h)
  | const c => exact .const c
  | un f _ ih => exact .un f ih
  | bin f _ _ ih ih' => exact .bin f ih ih'
  | eqv _ h' ih => exact .eqv ih h'

/-! ### Interpretations -/

/-- A value for each function symbol. -/
structure Interp (S : Sig) (α : Type) where
  const : S.Nullary → α
  un : S.Unary → α → α
  bin : S.Binary → α → α → α

namespace Interp

variable {α : Type} (I : Interp S α)

def eval (ρ : Nat → α) : Term S → α
  | .name n => ρ n
  | .const c => I.const c
  | .un f a => I.un f (eval ρ a)
  | .bin f a b => I.bin f (eval ρ a) (eval ρ b)

/-- The equations hold, whatever the names stand for. -/
def Models (ax : Term S → Term S → Prop) : Prop := ∀ ρ s t, ax s t → I.eval ρ s = I.eval ρ t

namespace Models

variable {I} {ax : Term S → Term S → Prop} (hI : I.Models ax)
include hI

theorem eval_eq (ρ : Nat → α) {s t : Term S} (h : Eqv ax s t) : I.eval ρ s = I.eval ρ t := by
  induction h with
  | ax h => exact hI ρ _ _ h
  | refl t => rfl
  | symm _ ih => exact ih.symm
  | trans _ _ ih ih' => exact ih.trans ih'
  | un f _ ih => rw [eval, eval, ih]
  | bin f _ _ ih ih' => rw [eval, eval, ih, ih']

theorem not_eqv {ρ : Nat → α} {s t : Term S} (h : I.eval ρ s ≠ I.eval ρ t) : ¬ Eqv ax s t :=
  fun hst => h (hI.eval_eq ρ hst)

/-- Valuations that agree on the known terms agree on the derivable ones. -/
theorem eval_derives {ρ ρ' : Nat → α} {known : List (Term S)}
    (hknown : ∀ t ∈ known, I.eval ρ t = I.eval ρ' t) {t : Term S} (ht : Derives ax known t) :
    I.eval ρ t = I.eval ρ' t := by
  induction ht with
  | known h => exact hknown _ h
  | const c => rfl
  | un f _ ih => rw [eval, eval, ih]
  | bin f _ _ ih ih' => rw [eval, eval, ih, ih']
  | eqv _ h' ih => rw [← hI.eval_eq ρ h', ← hI.eval_eq ρ' h', ih]

/-- **Secrecy by two valuations.** -/
theorem not_derives {ρ ρ' : Nat → α} {known : List (Term S)}
    (hknown : ∀ t ∈ known, I.eval ρ t = I.eval ρ' t) {t : Term S}
    (ht : I.eval ρ t ≠ I.eval ρ' t) : ¬ Derives ax known t :=
  fun h => ht (hI.eval_derives hknown h)

end Models

end Interp

/-! ### Rules -/

/-- An instance of a rule: the names it draws, the facts it asks for and leaves in place, the terms
it takes from the attacker, the facts and the terms it puts out. -/
structure Rule (S : Sig) (Fact : Type) where
  fresh : List Nat
  premises : List Fact
  inputs : List (Term S)
  conclusions : List Fact
  outputs : List (Term S)

structure Config (S : Sig) (Fact : Type) where
  used : List Nat
  facts : List Fact
  known : List (Term S)

variable {Fact L : Type}

def Config.init : Config S Fact := ⟨[], [], []⟩

def Config.fire (c : Config S Fact) (r : Rule S Fact) : Config S Fact where
  used := r.fresh ++ c.used
  facts := r.conclusions ++ c.facts
  known := r.outputs ++ c.known

structure Enabled (ax : Term S → Term S → Prop) (c : Config S Fact) (r : Rule S Fact) : Prop where
  nodup : r.fresh.Nodup
  new : ∀ n ∈ r.fresh, n ∉ c.used
  premises : ∀ f ∈ r.premises, f ∈ c.facts
  inputs : ∀ t ∈ r.inputs, Derives ax c.known t

section Runs

variable (ax : Term S → Term S → Prop) (rule : L → Rule S Fact)

def exec (c : Config S Fact) (ls : List L) : Config S Fact := ls.foldl (fun c l => c.fire (rule l)) c

/-- Every step of the run is enabled where it is taken. -/
def Valid : Config S Fact → List L → Prop
  | _, [] => True
  | c, l :: ls => Enabled ax c (rule l) ∧ Valid (c.fire (rule l)) ls

theorem exec_append (c : Config S Fact) (ls ls' : List L) :
    exec rule c (ls ++ ls') = exec rule (exec rule c ls) ls' := List.foldl_append ..

theorem exec_concat (c : Config S Fact) (ls : List L) (l : L) :
    exec rule c (ls ++ [l]) = (exec rule c ls).fire (rule l) := exec_append rule c ls [l]

theorem valid_append (c : Config S Fact) (ls ls' : List L) :
    Valid ax rule c (ls ++ ls') ↔ Valid ax rule c ls ∧ Valid ax rule (exec rule c ls) ls' := by
  induction ls generalizing c with
  | nil => simp [Valid, exec]
  | cons l ls ih =>
    rw [List.cons_append, Valid, ih, Valid, and_assoc]
    rfl

theorem valid_concat (c : Config S Fact) (ls : List L) (l : L) :
    Valid ax rule c (ls ++ [l]) ↔
      Valid ax rule c ls ∧ Enabled ax (exec rule c ls) (rule l) := by
  rw [valid_append, Valid, Valid, and_true]

variable {ax rule}

/-- What the start has and every enabled step keeps holds along every run. -/
theorem Valid.invariant {Inv : Config S Fact → Prop}
    (hstep : ∀ c l, Inv c → Enabled ax c (rule l) → Inv (c.fire (rule l))) {c : Config S Fact}
    {ls : List L} (h : Valid ax rule c ls) (hc : Inv c) : Inv (exec rule c ls) := by
  induction ls generalizing c with
  | nil => exact hc
  | cons l ls ih => exact ih h.2 (hstep c l hc h.1)

/-- What no rule takes away stays. -/
theorem subset_exec {α : Type} (get : Config S Fact → List α)
    (hfire : ∀ c r, get c ⊆ get (c.fire r)) (c : Config S Fact) (ls : List L) :
    get c ⊆ get (exec rule c ls) := by
  induction ls generalizing c with
  | nil => exact fun _ h => h
  | cons l ls ih => exact fun _ h => ih _ (hfire c (rule l) h)

theorem facts_subset_exec (c : Config S Fact) (ls : List L) : c.facts ⊆ (exec rule c ls).facts :=
  subset_exec Config.facts (fun _ _ _ => List.mem_append_right _) c ls

theorem known_subset_exec (c : Config S Fact) (ls : List L) : c.known ⊆ (exec rule c ls).known :=
  subset_exec Config.known (fun _ _ _ => List.mem_append_right _) c ls

end Runs

end Symbolic
