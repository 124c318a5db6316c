import AsconDtls.Lib.InPlace

/-!
# Objects in blocks of memory

A component keeps each of its objects in a block that an allocator hands out.  The objects share
the memory with each other and with the rest of the program: an object is made in a block with
whatever is there, it is copied block to block, it is overwritten when it is released.  `exec` is
this on a memory.

What it is for is `spec`: an object is the list of the calls that were made on it, on the one it
is a copy of up to the copy included, and answers as one that has seen these calls and nothing else;
the rest of the memory is what the rest of the program wrote, and blank where an object has been.

* `Lawful`: what this takes of the component.  `Same` says which objects cannot be told apart, as
  one is made with parts of what the block held.
* `holds_set`, `holds_release`, `holds_write`: what the invariant `Holds` needs of a step.
* `run_spec`: over every run in which the allocator and the rest of the program keep off the blocks
  in use (`Respects`), the answers are those of `spec`.
-/

namespace Pool

open InPlace (Mem load store length_load load_store load_store_apart store_apart load_congr)
open Run (run run_cons run_nil run_append)

/-- Objects `σ` in blocks of `size` elements. -/
structure Component (σ β ι ο : Type) where
  size : Nat
  encode : σ → List β
  decode : List β → σ
  /-- A new object, and what it is made of. -/
  make : List β → σ
  /-- What releasing an object makes of its elements. -/
  release : List β → List β
  /-- What is to be left of it. -/
  blank : List β
  step : σ → ι → σ × ο

inductive Event (β ι : Type)
  /-- A new object in a block that the allocator hands out, or null. -/
  | create (block : Option Nat)
  /-- `*ret = *obj;` -/
  | copy (obj : Nat) (block : Option Nat)
  | release (obj : Nat)
  | call (obj : Nat) (c : ι)
  /-- The rest of the program. -/
  | write (a : Nat) (b : β)
  | read (a : Nat)

inductive Answer (β ο : Type)
  | block (p : Option Nat)
  | reply (o : ο)
  | byte (b : β)
  | done
deriving DecidableEq

variable {σ β ι ο : Type} (C : Component σ β ι ο)

def exec (m : Mem β) : Event β ι → Mem β × Answer β ο
  | .create none => (m, .block none)
  | .create (some p) => (store m p (C.encode (C.make (load m p C.size))), .block (some p))
  | .copy _ none => (m, .block none)
  | .copy q (some p) => (store m p (load m q C.size), .block (some p))
  | .release q => (store m q (C.release (load m q C.size)), .done)
  | .call q c =>
    let r := C.step (C.decode (load m q C.size)) c
    (store m q (C.encode r.1), .reply r.2)
  | .write a b => (store m a [b], .done)
  | .read a => (m, .byte (m a))

/-- Whatever `f` is given, every element becomes `z`. -/
def Overwrites (z : β) (f : List β → List β) : Prop := ∀ bs, f bs = List.replicate bs.length z

/-! ### What it is for -/

/-- The calls that each object has seen, none where there is no object, and the rest of the
memory. -/
structure Spec (β ι : Type) where
  calls : Nat → Option (List ι)
  rest : Mem β

namespace Spec

def start (m : Mem β) : Spec β ι := ⟨fun _ => none, m⟩

variable (fresh : σ) (A : Spec β ι)

/-- The calls of an object. -/
def seen (q : Nat) : List ι := (A.calls q).getD []

/-- Another object, or none, at `p`. -/
def set (p : Nat) (o : Option (List ι)) : Spec β ι := { A with calls := Function.update A.calls p o }

def step : Event β ι → Spec β ι × Answer β ο
  | .create none => (A, .block none)
  | .create (some p) => (A.set p (some []), .block (some p))
  | .copy _ none => (A, .block none)
  | .copy q (some p) => (A.set p (some (A.seen q)), .block (some p))
  | .release q => ({ A.set q none with rest := store A.rest q C.blank }, .done)
  | .call q c =>
    (A.set q (some (A.seen q ++ [c])), .reply (C.step (run C.step fresh (A.seen q)).1 c).2)
  | .write a b => ({ A with rest := store A.rest a [b] }, .done)
  | .read a => (A, .byte (A.rest a))

/-- There is an object at `q`. -/
def Live (q : Nat) : Prop := A.calls q ≠ none

/-- `a` is in no block in use. -/
def Outside (size a : Nat) : Prop := ∀ q, A.Live q → a < q ∨ q + size ≤ a

/-- The block at `p` is apart from the blocks in use. -/
def Free (size p : Nat) : Prop := ∀ q, A.Live q → p + size ≤ q ∨ q + size ≤ p

/-- What the allocator, the callers and the rest of the program keep to. -/
def Allows (size : Nat) : Event β ι → Prop
  | .create block => ∀ p, block = some p → A.Free size p
  | .copy q block => A.Live q ∧ ∀ p, block = some p → A.Free size p
  | .release q => A.Live q
  | .call q _ => A.Live q
  | .write a _ => A.Outside size a
  | .read a => A.Outside size a

end Spec

/-- At every moment of a run. -/
def Respects (fresh : σ) : Spec β ι → List (Event β ι) → Prop
  | _, [] => True
  | A, e :: es => A.Allows C.size e ∧ Respects fresh (A.step C fresh e).1 es

/-! ### The invariant -/

/-- What the component has to do, with `fresh` for a new object. -/
structure Lawful (fresh : σ) (Same : σ → σ → Prop) : Prop where
  length_encode : ∀ s, (C.encode s).length = C.size
  length_blank : C.blank.length = C.size
  release_eq : ∀ bs, bs.length = C.size → C.release bs = C.blank
  decode_encode : ∀ s t, Same s t → C.decode (C.encode s) = s
  same_make : ∀ junk, junk.length = C.size → Same (C.make junk) fresh
  same_step : ∀ s t c, Same s t →
    (C.step s c).2 = (C.step t c).2 ∧ Same (C.step s c).1 (C.step t c).1

/-- The memory holds the objects in blocks apart from each other, and the rest. -/
structure Holds (fresh : σ) (Same : σ → σ → Prop) (m : Mem β) (A : Spec β ι) : Prop where
  object : ∀ q cs, A.calls q = some cs →
    ∃ s, load m q C.size = C.encode s ∧ Same s (run C.step fresh cs).1
  apart : ∀ p q, A.Live p → A.Live q → p ≠ q → p + C.size ≤ q ∨ q + C.size ≤ p
  rest : ∀ a, A.Outside C.size a → m a = A.rest a

variable {C} {fresh : σ} {Same : σ → σ → Prop} {m : Mem β} {A : Spec β ι}

theorem holds_start (m : Mem β) : Holds C fresh Same m (Spec.start m) where
  object _ _ h := nomatch h
  apart _ _ h := absurd rfl h
  rest _ _ := rfl

@[simp] theorem set_calls_self (A : Spec β ι) (p : Nat) (o : Option (List ι)) :
    (A.set p o).calls p = o := Function.update_self ..

theorem set_calls_of_ne (A : Spec β ι) {p q : Nat} (o : Option (List ι)) (hne : q ≠ p) :
    (A.set p o).calls q = A.calls q := Function.update_of_ne hne ..

theorem live_set_of_ne (A : Spec β ι) {p q : Nat} (o : Option (List ι)) (hne : q ≠ p) :
    (A.set p o).Live q ↔ A.Live q := by
  rw [Spec.Live, Spec.Live, set_calls_of_ne A o hne]

@[simp] theorem live_rest (A : Spec β ι) (m : Mem β) (q : Nat) :
    Spec.Live { A with rest := m } q ↔ A.Live q := Iff.rfl

@[simp] theorem live_start (m : Mem β) (q : Nat) : (Spec.start m : Spec β ι).Live q ↔ False :=
  ⟨fun h => h rfl, False.elim⟩

@[simp] theorem live_set_some (A : Spec β ι) (p q : Nat) (cs : List ι) :
    (A.set p (some cs)).Live q ↔ q = p ∨ A.Live q := by
  by_cases hqp : q = p
  · subst hqp
    simp [Spec.Live]
  · rw [live_set_of_ne A _ hqp]
    simp [hqp]

theorem live_of_calls {A : Spec β ι} {q : Nat} {cs : List ι} (h : A.calls q = some cs) :
    A.Live q := by
  rw [Spec.Live, h]
  exact Option.some_ne_none cs

/-- An object at `p`, new or after a call, where the other blocks in use are apart from it. -/
theorem holds_set (hC : Lawful C fresh Same) (h : Holds C fresh Same m A) {p : Nat}
    (hfree : ∀ q, A.Live q → q ≠ p → p + C.size ≤ q ∨ q + C.size ≤ p) {s : σ} {cs : List ι}
    (hs : Same s (run C.step fresh cs).1) :
    Holds C fresh Same (store m p (C.encode s)) (A.set p (some cs)) := by
  have hlen := hC.length_encode s
  have hp : (A.set p (some cs)).Live p := live_of_calls (set_calls_self ..)
  refine ⟨?_, ?_, ?_⟩
  · intro q cs' hq
    by_cases hqp : q = p
    · subst hqp
      rw [set_calls_self, Option.some.injEq] at hq
      subst hq
      refine ⟨s, ?_, hs⟩
      rw [← hlen, load_store]
    · rw [set_calls_of_ne A _ hqp] at hq
      obtain ⟨t, ht, hsame⟩ := h.object q cs' hq
      refine ⟨t, ?_, hsame⟩
      rw [load_store_apart _ _ _ (hlen ▸ (hfree q (live_of_calls hq) hqp).symm), ht]
  · intro q q' hq hq' hne
    by_cases hqp : q = p
    · subst hqp
      exact hfree q' ((live_set_of_ne A _ (Ne.symm hne)).mp hq') (Ne.symm hne)
    · have hlive := (live_set_of_ne A _ hqp).mp hq
      by_cases hqp' : q' = p
      · subst hqp'
        exact (hfree q hlive hqp).symm
      · exact h.apart q q' hlive ((live_set_of_ne A _ hqp').mp hq') hne
  · intro a ha
    rw [store_apart _ _ _ (hlen ▸ ha p hp)]
    refine h.rest a fun q hq => ?_
    by_cases hqp : q = p
    · subst hqp
      exact ha q hp
    · exact ha q ((live_set_of_ne A _ hqp).mpr hq)

@[simp] theorem live_set_none (A : Spec β ι) (p q : Nat) :
    (A.set p none).Live q ↔ A.Live q ∧ q ≠ p := by
  by_cases hqp : q = p
  · subst hqp
    simp [Spec.Live]
  · rw [live_set_of_ne A _ hqp]
    exact ⟨fun hq => ⟨hq, hqp⟩, fun hq => hq.1⟩

/-- What is stored is there in either memory. -/
theorem store_eq_store (m m' : Mem β) {p : Nat} {bs : List β} {a : Nat} (hp : p ≤ a)
    (ha : a < p + bs.length) : store m p bs a = store m' p bs a := by
  have hload : load (store m p bs) p bs.length = load (store m' p bs) p bs.length := by
    rw [load_store, load_store]
  obtain ⟨i, rfl⟩ := Nat.exists_eq_add_of_le hp
  exact InPlace.eq_of_load_eq hload (Nat.lt_of_add_lt_add_left ha)

/-- A block in use is given back. -/
theorem holds_release (hC : Lawful C fresh Same) (h : Holds C fresh Same m A) {p : Nat}
    (hp : A.Live p) :
    Holds C fresh Same (store m p C.blank)
      { A.set p none with rest := store A.rest p C.blank } := by
  have hlen := hC.length_blank
  refine ⟨?_, ?_, ?_⟩
  · intro q cs hq
    obtain ⟨hlive, hne⟩ := (live_set_none A p q).mp (live_of_calls hq)
    rw [set_calls_of_ne A _ hne] at hq
    obtain ⟨t, ht, hsame⟩ := h.object q cs hq
    refine ⟨t, ?_, hsame⟩
    rw [load_store_apart _ _ _ (hlen ▸ h.apart q p hlive hp hne), ht]
  · intro q q' hq hq' hne
    exact h.apart q q' ((live_set_none A p q).mp hq).1 ((live_set_none A p q').mp hq').1 hne
  · intro a ha
    by_cases hin : p ≤ a ∧ a < p + C.size
    · exact store_eq_store _ _ hin.1 (hlen ▸ hin.2)
    · have hout : a < p ∨ p + C.blank.length ≤ a := by omega
      simp only [store_apart _ _ _ hout]
      refine h.rest a fun q hq => ?_
      by_cases hqp : q = p
      · subst hqp
        omega
      · exact ha q ((live_set_none A p q).mpr ⟨hq, hqp⟩)

/-- A write outside the blocks in use. -/
theorem holds_write (h : Holds C fresh Same m A) {a : Nat} (ha : A.Outside C.size a) (b : β) :
    Holds C fresh Same (store m a [b]) { A with rest := store A.rest a [b] } := by
  refine ⟨?_, h.apart, ?_⟩
  · intro q cs hq
    obtain ⟨s, hs, hsame⟩ := h.object q cs hq
    refine ⟨s, ?_, hsame⟩
    have hapart : q + C.size ≤ a ∨ a + [b].length ≤ q := by
      rcases ha q (live_of_calls hq) with hlt | hge
      · exact .inr hlt
      · exact .inl hge
    rw [load_store_apart _ _ _ hapart, hs]
  · intro a' ha'
    by_cases heq : a' = a
    · subst heq
      simp [store]
    · have hne : a' < a ∨ a + [b].length ≤ a' := by
        rw [List.length_singleton]
        omega
      simp only [store_apart _ _ _ hne]
      exact h.rest a' ha'

/-! ### Runs -/

theorem Holds.live_object (h : Holds C fresh Same m A) {q : Nat} (hq : A.Live q) :
    ∃ s, load m q C.size = C.encode s ∧ Same s (run C.step fresh (A.seen q)).1 := by
  obtain ⟨cs, hcs⟩ := Option.ne_none_iff_exists'.mp hq
  rw [Spec.seen, hcs]
  exact h.object q cs hcs

/-- One step answers as `spec` does. -/
theorem step_spec (hC : Lawful C fresh Same) (h : Holds C fresh Same m A) {e : Event β ι}
    (he : A.Allows C.size e) :
    (exec C m e).2 = (A.step C fresh e).2 ∧
      Holds C fresh Same (exec C m e).1 (A.step C fresh e).1 := by
  cases e with
  | create block =>
    cases block with
    | none => exact ⟨rfl, h⟩
    | some p =>
      have hmake : Same (C.make (load m p C.size)) (run C.step fresh []).1 :=
        hC.same_make _ (length_load ..)
      exact ⟨rfl, holds_set hC h (fun q hq _ => he p rfl q hq) hmake⟩
  | copy q block =>
    cases block with
    | none => exact ⟨rfl, h⟩
    | some p =>
      obtain ⟨s, hs, hsame⟩ := h.live_object he.1
      refine ⟨rfl, ?_⟩
      simp only [exec, hs]
      exact holds_set hC h (fun q hq _ => he.2 p rfl q hq) hsame
  | release q =>
    refine ⟨rfl, ?_⟩
    simp only [exec, hC.release_eq _ (length_load ..)]
    exact holds_release hC h he
  | call q c =>
    obtain ⟨s, hs, hsame⟩ := h.live_object he
    obtain ⟨hreply, hnext⟩ := hC.same_step s _ c hsame
    have hdecode : C.decode (load m q C.size) = s := by
      rw [hs]
      exact hC.decode_encode s _ hsame
    simp only [exec, Spec.step, hdecode, hreply, true_and]
    refine holds_set hC h (fun q' hq' hne => h.apart q q' he hq' (Ne.symm hne)) ?_
    rw [run_append, run_cons, run_nil]
    exact hnext
  | write a b => exact ⟨rfl, holds_write h he b⟩
  | read a => exact ⟨congrArg Answer.byte (h.rest a he), h⟩

/-- **Objects that share a memory do not meet.**  Every answer of a run is that of `spec`, and so
is the memory outside the blocks in use. -/
theorem run_spec (hC : Lawful C fresh Same) (h : Holds C fresh Same m A) {es : List (Event β ι)}
    (hes : Respects C fresh A es) :
    (run (exec C) m es).2 = (run (Spec.step C fresh) A es).2 ∧
      Holds C fresh Same (run (exec C) m es).1 (run (Spec.step C fresh) A es).1 := by
  induction es generalizing m A with
  | nil => exact ⟨rfl, h⟩
  | cons e es ih =>
    obtain ⟨hanswer, hnext⟩ := step_spec hC h hes.1
    obtain ⟨hanswers, hend⟩ := ih hnext hes.2
    rw [run_cons, run_cons, hanswer, hanswers]
    exact ⟨rfl, hend⟩

end Pool
