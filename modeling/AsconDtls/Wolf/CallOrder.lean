import AsconDtls.Wolf.Stream

/-!
# The order of calls on a wolfSSL context

Three flags and the direction decide which calls are executed; the others return
`BAD_STATE_E`.  `Flags` is this part of a context as a machine of its own, and
`step_executed` and `step_refused` say that `step` follows it.

* `Tracks`: what the flags know of the calls executed since `Init`.
* `call_order`: in every run a call is executed only as `Allowed` by those
  executed before it, and refused without effect otherwise.
* `not_singleUse`: the flags do not stop a second `SetAD`, and the finals leave
  them set, so a second final is executed as well.
-/

namespace AsconDtls.Wolf

open LittleEndian
open Run (run trace)
open AsconAEAD128

/-! ### Kinds of calls -/

inductive Dir
  | encrypt
  | decrypt
deriving DecidableEq

def Dir.op : Dir → Op
  | .encrypt => .encrypt
  | .decrypt => .decrypt

inductive Kind
  | setKey
  | setNonce
  | setAD
  | update (d : Dir)
  | final (d : Dir)
  | mask
deriving DecidableEq

/-- The kind of a call; none for `Init` and for a call with a null argument. -/
def Call.kind? : Call → Option Kind
  | .setKey (some _) => some .setKey
  | .setNonce (some _) => some .setNonce
  | .setAD ad => if ad.bad then none else some .setAD
  | .encryptUpdate inp => if inp.bad then none else some (.update .encrypt)
  | .decryptUpdate inp => if inp.bad then none else some (.update .decrypt)
  | .encryptFinal .ptr => some (.final .encrypt)
  | .decryptFinal (some _) => some (.final .decrypt)
  | .mask (some _) .ptr => some .mask
  | _ => none

/-- The call was carried out: it returned 0, or `ASCON_AUTH_E`. -/
def Reply.Executed (r : Reply) : Prop := r.ret = .ok ∨ r.ret = .asconAuthE

instance (r : Reply) : Decidable r.Executed := inferInstanceAs (Decidable (_ ∨ _))

/-- The kinds of the calls of a trace that were executed. -/
def executed (tr : List (Call × Reply)) : List Kind :=
  tr.filterMap fun x => if x.2.Executed then x.1.kind? else none

/-- The kinds of the calls other than `Mask` that returned 0. -/
def successful (tr : List (Call × Reply)) : List Kind :=
  tr.filterMap fun x => if x.2.ret = .ok ∧ x.1.kind? ≠ some .mask then x.1.kind? else none

/-! ### The flags as a machine -/

structure Flags where
  keySet : Bool
  nonceSet : Bool
  adSet : Bool
  op : Op
deriving DecidableEq

def AsconAEAD128.flags (a : AsconAEAD128) : Flags := ⟨a.keySet, a.nonceSet, a.adSet, a.op⟩

def Flags.fresh : Flags := ⟨false, false, false, .notSet⟩

/-- The calls that the flags let through. -/
def Flags.Allows (f : Flags) : Kind → Prop
  | .setKey => f.keySet = false
  | .setNonce => f.nonceSet = false
  | .setAD => f.keySet = true ∧ f.nonceSet = true
  | .update d =>
    (f.keySet = true ∧ f.nonceSet = true ∧ f.adSet = true) ∧ (f.op = .notSet ∨ f.op = d.op)
  | .final d => (f.keySet = true ∧ f.nonceSet = true ∧ f.adSet = true) ∧ f.op = d.op
  | .mask => f.keySet = true

def Flags.after (f : Flags) : Kind → Flags
  | .setKey => { f with keySet := true }
  | .setNonce => { f with nonceSet := true }
  | .setAD => { f with adSet := true }
  | .update d => { f with op := d.op }
  | .final _ => f
  | .mask => f

theorem kind?_ite {b : Bool} {k k' : Kind} (h : (if b then none else some k') = some k) :
    b = false ∧ k' = k := by
  cases b with
  | true => cases h
  | false => exact ⟨rfl, Option.some.inj h⟩

/-- The checks of `SetAD`, the updates and the finals in terms of the flags. -/
theorem not_guard_iff (a : AsconAEAD128) :
    (!a.keySet || !a.nonceSet || !a.adSet) = false ↔
      a.keySet = true ∧ a.nonceSet = true ∧ a.adSet = true := by
  cases a.keySet <;> cases a.nonceSet <;> cases a.adSet <;> decide

theorem update_refused (B : Build) (a : AsconAEAD128) (d : Dir)
    (part : Nat → List Byte → AsconState → AsconState × List Byte) {inp : Src}
    (hb : inp.bad = false) (h : ¬ a.flags.Allows (.update d)) :
    update B d.op part a inp = (a, .fail .badStateE) := by
  rw [update, if_neg (by simp [hb])]
  by_cases hg : (!a.keySet || !a.nonceSet || !a.adSet) = true
  · rw [if_pos hg]
  · have hset := (not_guard_iff a).mp (Bool.eq_false_iff.mpr hg)
    have hop : ¬ (a.op = .notSet ∨ a.op = d.op) := fun hop => h ⟨hset, hop⟩
    rw [if_neg hg, if_neg (fun h0 => hop (.inl h0)), if_pos (fun h1 => hop (.inr h1))]

theorem update_executed (B : Build) (a : AsconAEAD128) (d : Dir)
    (part : Nat → List Byte → AsconState → AsconState × List Byte) {inp : Src}
    (hb : inp.bad = false) (h : a.flags.Allows (.update d)) :
    (update B d.op part a inp).2.Executed ∧
      (update B d.op part a inp).1.flags = a.flags.after (.update d) := by
  obtain ⟨hset, hop⟩ := h
  have hg : (!a.keySet || !a.nonceSet || !a.adSet) = false := (not_guard_iff a).mpr hset
  rw [update, if_neg (by simp [hb]), if_neg (by simp [hg])]
  by_cases h0 : a.op = .notSet
  · rw [if_pos h0]
    exact ⟨.inl rfl, rfl⟩
  · have hd : a.op = d.op := hop.resolve_left h0
    rw [if_neg h0, if_neg (not_not.mpr hd)]
    refine ⟨.inl rfl, ?_⟩
    simp only [process, flags, Flags.after, hd]

theorem not_allows_final {a : AsconAEAD128} {d : Dir} (h : ¬ a.flags.Allows (.final d))
    (hg : ¬ (!a.keySet || !a.nonceSet || !a.adSet) = true) : a.op ≠ d.op :=
  fun hop => h ⟨(not_guard_iff a).mp (Bool.eq_false_iff.mpr hg), hop⟩

theorem encryptFinal_refused (B : Build) (a : AsconAEAD128)
    (h : ¬ a.flags.Allows (.final .encrypt)) : encryptFinal B a .ptr = (a, .fail .badStateE) := by
  rw [encryptFinal, if_neg (by simp)]
  by_cases hg : (!a.keySet || !a.nonceSet || !a.adSet) = true
  · rw [if_pos hg]
  · have hop : a.op ≠ .encrypt := not_allows_final h hg
    rw [if_neg hg, if_pos hop]

theorem decryptFinal_refused (B : Build) (a : AsconAEAD128) (tag : Vector Byte 16)
    (h : ¬ a.flags.Allows (.final .decrypt)) :
    decryptFinal B a (some tag) = (a, .fail .badStateE) := by
  simp only [decryptFinal]
  by_cases hg : (!a.keySet || !a.nonceSet || !a.adSet) = true
  · rw [if_pos hg]
  · have hop : a.op ≠ .decrypt := not_allows_final h hg
    rw [if_neg hg, if_pos hop]

theorem encryptFinal_executed (B : Build) (a : AsconAEAD128)
    (h : a.flags.Allows (.final .encrypt)) :
    (encryptFinal B a .ptr).2.Executed ∧
      (encryptFinal B a .ptr).1.flags = a.flags.after (.final .encrypt) := by
  obtain ⟨hset, hop⟩ := h
  have hop : a.op = .encrypt := hop
  have hg := (not_guard_iff a).mpr hset
  rw [encryptFinal, if_neg (by simp), if_neg (by simp [hg]), if_neg (not_not.mpr hop)]
  exact ⟨.inl rfl, rfl⟩

theorem decryptFinal_executed (B : Build) (a : AsconAEAD128) (tag : Vector Byte 16)
    (h : a.flags.Allows (.final .decrypt)) :
    (decryptFinal B a (some tag)).2.Executed ∧
      (decryptFinal B a (some tag)).1.flags = a.flags.after (.final .decrypt) := by
  obtain ⟨hset, hop⟩ := h
  have hop : a.op = .decrypt := hop
  have hg := (not_guard_iff a).mpr hset
  simp only [decryptFinal]
  rw [if_neg (by simp [hg]), if_neg (not_not.mpr hop)]
  split
  · exact ⟨.inr rfl, rfl⟩
  · exact ⟨.inl rfl, rfl⟩

/-- A call that the flags do not let through changes nothing. -/
theorem step_refused (B : Build) (a : AsconAEAD128) {c : Call} {k : Kind}
    (hk : c.kind? = some k) (h : ¬ a.flags.Allows k) : step B a c = (a, .fail .badStateE) := by
  cases c with
  | init => cases hk
  | setKey key =>
      cases key with
      | none => cases hk
      | some key =>
          obtain rfl := Option.some.inj hk
          have hset : a.keySet = true := Bool.not_eq_false _ ▸ h
          exact if_pos hset
  | setNonce nonce =>
      cases nonce with
      | none => cases hk
      | some nonce =>
          obtain rfl := Option.some.inj hk
          have hset : a.nonceSet = true := Bool.not_eq_false _ ▸ h
          exact if_pos hset
  | setAD ad =>
      obtain ⟨hb, rfl⟩ := kind?_ite hk
      have hg : (!a.keySet || !a.nonceSet) = true := by
        by_contra hg
        refine h (show a.keySet = true ∧ a.nonceSet = true from ?_)
        simpa using hg
      rw [step, setAD, if_neg (by simp [hb]), if_pos hg]
  | encryptUpdate inp =>
      obtain ⟨hb, rfl⟩ := kind?_ite hk
      exact update_refused B a .encrypt encryptPart hb h
  | decryptUpdate inp =>
      obtain ⟨hb, rfl⟩ := kind?_ite hk
      exact update_refused B a .decrypt decryptPart hb h
  | encryptFinal tag =>
      cases tag with
      | null => cases hk
      | ptr =>
          obtain rfl := Option.some.inj hk
          exact encryptFinal_refused B a h
  | decryptFinal tag =>
      cases tag with
      | none => cases hk
      | some tag =>
          obtain rfl := Option.some.inj hk
          exact decryptFinal_refused B a tag h
  | mask ct out =>
      cases ct with
      | none => cases hk
      | some ct =>
          cases out with
          | null => cases hk
          | ptr =>
              obtain rfl := Option.some.inj hk
              have hset : a.keySet = false := Bool.not_eq_true _ ▸ h
              exact if_pos (by simp [hset])

/-- A call that the flags let through is executed and moves them on. -/
theorem step_executed (B : Build) (a : AsconAEAD128) {c : Call} {k : Kind}
    (hk : c.kind? = some k) (h : a.flags.Allows k) :
    (step B a c).2.Executed ∧ (step B a c).1.flags = a.flags.after k := by
  cases c with
  | init => cases hk
  | setKey key =>
      cases key with
      | none => cases hk
      | some key =>
          obtain rfl := Option.some.inj hk
          have hset : a.keySet = false := h
          rw [step, setKey, if_neg (by simp [hset])]
          exact ⟨.inl rfl, rfl⟩
  | setNonce nonce =>
      cases nonce with
      | none => cases hk
      | some nonce =>
          obtain rfl := Option.some.inj hk
          have hset : a.nonceSet = false := h
          rw [step, setNonce, if_neg (by simp [hset])]
          exact ⟨.inl rfl, rfl⟩
  | setAD ad =>
      obtain ⟨hb, rfl⟩ := kind?_ite hk
      obtain ⟨hkey, hnonce⟩ := h
      have hkey : a.keySet = true := hkey
      have hnonce : a.nonceSet = true := hnonce
      rw [step, setAD, if_neg (by simp [hb]), if_neg (by simp [hkey, hnonce])]
      exact ⟨.inl rfl, rfl⟩
  | encryptUpdate inp =>
      obtain ⟨hb, rfl⟩ := kind?_ite hk
      exact update_executed B a .encrypt encryptPart hb h
  | decryptUpdate inp =>
      obtain ⟨hb, rfl⟩ := kind?_ite hk
      exact update_executed B a .decrypt decryptPart hb h
  | encryptFinal tag =>
      cases tag with
      | null => cases hk
      | ptr =>
          obtain rfl := Option.some.inj hk
          exact encryptFinal_executed B a h
  | decryptFinal tag =>
      cases tag with
      | none => cases hk
      | some tag =>
          obtain rfl := Option.some.inj hk
          exact decryptFinal_executed B a tag h
  | mask ct out =>
      cases ct with
      | none => cases hk
      | some ct =>
          cases out with
          | null => cases hk
          | ptr =>
              obtain rfl := Option.some.inj hk
              have hset : a.keySet = true := h
              simp only [step, mask]
              rw [if_neg (by simp [hset])]
              exact ⟨.inl rfl, rfl⟩

/-! ### What the flags know of the past -/

/-- What the calls executed since `Init` allow. -/
def Allowed (E : List Kind) : Kind → Prop
  | .setKey => .setKey ∉ E
  | .setNonce => .setNonce ∉ E
  | .setAD => .setKey ∈ E ∧ .setNonce ∈ E
  | .update d => .setAD ∈ E ∧ ∀ d', .update d' ∈ E → d' = d
  | .final d => .update d ∈ E
  | .mask => .setKey ∈ E

/-- Each call is allowed by those before it. -/
def Ordered (E : List Kind) : Prop := ∀ E₁ k E₂, E = E₁ ++ k :: E₂ → Allowed E₁ k

/-- The flags know the calls executed so far. -/
structure Tracks (E : List Kind) (f : Flags) : Prop where
  keySet : f.keySet = true ↔ .setKey ∈ E
  nonceSet : f.nonceSet = true ↔ .setNonce ∈ E
  adSet : f.adSet = true ↔ .setAD ∈ E
  notSet : f.op = .notSet ↔ ∀ d, .update d ∉ E
  op : ∀ d, f.op = d.op ↔ .update d ∈ E

theorem Dir.op_ne_notSet (d : Dir) : d.op ≠ .notSet := by
  cases d with
  | encrypt => exact fun h => by cases h
  | decrypt => exact fun h => by cases h

theorem Dir.op_inj {d d' : Dir} : d.op = d'.op ↔ d = d' := by
  refine ⟨?_, ?_⟩
  · intro h
    cases d <;> cases d' <;> first | rfl | cases h
  · rintro rfl
    rfl

theorem tracks_fresh : Tracks [] .fresh where
  keySet := by simp [Flags.fresh]
  nonceSet := by simp [Flags.fresh]
  adSet := by simp [Flags.fresh]
  notSet := by simp [Flags.fresh]
  op := fun d => by simpa [Flags.fresh] using d.op_ne_notSet.symm

variable {E : List Kind} {f : Flags}

theorem Ordered.nil : Ordered [] := by
  intro E₁ k E₂ h
  simp at h

theorem Ordered.concat (h : Ordered E) {k : Kind} (hk : Allowed E k) : Ordered (E ++ [k]) := by
  intro E₁ k' E₂ heq
  rcases List.eq_nil_or_concat E₂ with rfl | ⟨E₃, x, rfl⟩
  · obtain ⟨rfl, hlast⟩ := List.append_inj' heq rfl
    obtain rfl := (List.cons.inj hlast).1
    exact hk
  · have hsplit : E ++ [k] = (E₁ ++ k' :: E₃) ++ [x] := by
      rw [heq, List.concat_eq_append, List.append_assoc, List.cons_append]
    exact h E₁ k' E₃ (List.append_inj' hsplit rfl).1

theorem Ordered.before (h : Ordered E) {k : Kind} (hk : k ∈ E) : ∃ E₁, E₁ ⊆ E ∧ Allowed E₁ k := by
  obtain ⟨E₁, E₂, rfl⟩ := List.append_of_mem hk
  exact ⟨E₁, List.subset_append_left _ _, h E₁ k E₂ rfl⟩

theorem Ordered.before_setAD (h : Ordered E) (had : .setAD ∈ E) : .setKey ∈ E ∧ .setNonce ∈ E := by
  obtain ⟨E₁, hsub, hkey, hnonce⟩ := h.before had
  exact ⟨hsub hkey, hsub hnonce⟩

theorem Ordered.before_update (h : Ordered E) {d : Dir} (hd : .update d ∈ E) : .setAD ∈ E := by
  obtain ⟨E₁, hsub, had, -⟩ := h.before hd
  exact hsub had

/-- The flags let through what the past allows. -/
theorem Tracks.allows_iff (h : Tracks E f) (ho : Ordered E) (k : Kind) :
    f.Allows k ↔ Allowed E k := by
  have hset : .setAD ∈ E → f.keySet = true ∧ f.nonceSet = true ∧ f.adSet = true := by
    intro had
    obtain ⟨hkey, hnonce⟩ := ho.before_setAD had
    exact ⟨h.keySet.mpr hkey, h.nonceSet.mpr hnonce, h.adSet.mpr had⟩
  cases k with
  | setKey => exact Bool.eq_false_iff.trans (not_congr h.keySet)
  | setNonce => exact Bool.eq_false_iff.trans (not_congr h.nonceSet)
  | setAD => exact and_congr h.keySet h.nonceSet
  | update d =>
      refine ⟨?_, ?_⟩
      · rintro ⟨⟨-, -, had⟩, hop⟩
        refine ⟨h.adSet.mp had, ?_⟩
        intro d' hd'
        rcases hop with h0 | h1
        · exact absurd hd' (h.notSet.mp h0 d')
        · exact Dir.op_inj.mp (((h.op d').mpr hd').symm.trans h1)
      · rintro ⟨had, hone⟩
        refine ⟨hset had, ?_⟩
        by_cases hd : .update d ∈ E
        · exact .inr ((h.op d).mpr hd)
        · refine .inl (h.notSet.mpr ?_)
          intro d' hd'
          exact hd (hone d' hd' ▸ hd')
  | final d =>
      refine ⟨?_, ?_⟩
      · rintro ⟨-, hop⟩
        exact (h.op d).mp hop
      · intro hd
        exact ⟨hset (ho.before_update hd), (h.op d).mpr hd⟩
  | mask => exact h.keySet

/-- **The flags keep track of the calls executed.** -/
theorem Tracks.after (h : Tracks E f) {k : Kind} (hk : Allowed E k) :
    Tracks (E ++ [k]) (f.after k) := by
  obtain ⟨hkey, hnonce, had, hnot, hop⟩ := h
  cases k with
  | setKey => constructor <;> simp [Flags.after, hnonce, had, hnot, hop]
  | setNonce => constructor <;> simp [Flags.after, hkey, had, hnot, hop]
  | setAD => constructor <;> simp [Flags.after, hkey, hnonce, hnot, hop]
  | update d =>
      obtain ⟨-, hone⟩ := hk
      refine ⟨?_, ?_, ?_, ?_, ?_⟩
      · simp [Flags.after, hkey]
      · simp [Flags.after, hnonce]
      · simp [Flags.after, had]
      · simp only [Flags.after, d.op_ne_notSet, false_iff, not_forall, not_not]
        exact ⟨d, by simp⟩
      · intro d'
        simp only [Flags.after, Dir.op_inj, List.mem_append, List.mem_singleton, Kind.update.injEq]
        refine ⟨?_, ?_⟩
        · intro hd
          exact .inr hd.symm
        · rintro (hd | hd)
          · exact (hone d' hd).symm
          · exact hd.symm
  | final d => constructor <;> simp [Flags.after, hkey, hnonce, had, hnot, hop]
  | mask => constructor <;> simp [Flags.after, hkey, hnonce, had, hnot, hop]

/-! ### Runs -/

theorem executed_append (tr tr' : List (Call × Reply)) :
    executed (tr ++ tr') = executed tr ++ executed tr' := List.filterMap_append ..

/-- In a run after `Init` the executed calls are in order and the flags track them. -/
theorem run_tracks (B : Build) (a : AsconAEAD128) {cs : List Call}
    (hcs : ∀ c ∈ cs, c.kind? ≠ none) :
    Ordered (executed (trace (step B) a.init.1 cs)) ∧
      Tracks (executed (trace (step B) a.init.1 cs)) (run (step B) a.init.1 cs).1.flags := by
  have hstep : ∀ (tr : List (Call × Reply)) (b : AsconAEAD128) (c : Call), c.kind? ≠ none →
      Ordered (executed tr) ∧ Tracks (executed tr) b.flags →
      Ordered (executed (tr ++ [(c, (step B b c).2)])) ∧
        Tracks (executed (tr ++ [(c, (step B b c).2)])) (step B b c).1.flags := by
    rintro tr b c hc ⟨ho, ht⟩
    obtain ⟨k, hk⟩ := Option.ne_none_iff_exists'.mp hc
    by_cases hallow : b.flags.Allows k
    · obtain ⟨hexec, hflags⟩ := step_executed B b hk hallow
      have hpast := (ht.allows_iff ho k).mp hallow
      have hone : executed [(c, (step B b c).2)] = [k] := by simp [executed, hexec, hk]
      rw [executed_append, hone, hflags]
      exact ⟨ho.concat hpast, ht.after hpast⟩
    · have href := step_refused B b hk hallow
      have hnone : executed [(c, Reply.fail .badStateE)] = [] := by
        simp [executed, Reply.Executed, Reply.fail]
      rw [executed_append, href, hnone, List.append_nil]
      exact ⟨ho, ht⟩
  have hstart : Ordered (executed []) ∧ Tracks (executed []) a.init.1.flags :=
    ⟨Ordered.nil, tracks_fresh⟩
  exact Run.trace_invariant
    (fun tr (b : AsconAEAD128) => Ordered (executed tr) ∧ Tracks (executed tr) b.flags)
    (fun c => c.kind? ≠ none) hstep hstart hcs

/-- **The order of calls.**  After `Init`, in every run of calls with no null
argument, the executed calls come in an allowed order.  A call that is not
executed returns `BAD_STATE_E` and changes nothing; an allowed call is executed,
a `SetAD` that repeats one left aside. -/
theorem call_order (B : Build) (a : AsconAEAD128) (cs : List Call)
    (hcs : ∀ c ∈ cs, c.kind? ≠ none) :
    Ordered (executed (trace (step B) a.init.1 cs)) ∧
    ∀ pre c post k, cs = pre ++ c :: post → c.kind? = some k →
      let E := executed (trace (step B) a.init.1 pre)
      let b := (run (step B) a.init.1 pre).1
      ((step B b c).2.Executed ∨ step B b c = (b, .fail .badStateE)) ∧
      (Allowed E k → (k = .setAD → .setAD ∉ E) → (step B b c).2.Executed) := by
  refine ⟨(run_tracks B a hcs).1, ?_⟩
  rintro pre c post k rfl hk E b
  obtain ⟨ho, ht⟩ := run_tracks B a (fun c' hc' => hcs c' (List.mem_append_left _ hc'))
  refine ⟨?_, ?_⟩
  · by_cases hallow : b.flags.Allows k
    · exact .inl (step_executed B b hk hallow).1
    · exact .inr (step_refused B b hk hallow)
  · intro hpast _
    exact (step_executed B b hk ((ht.allows_iff ho k).mpr hpast)).1

/-- A record, with a key set twice: the second is refused. -/
theorem call_order_example :
    let key : Vector Byte 16 := Vector.replicate 16 1#8
    let cs : List Call := [.setKey (some key), .setKey (some key), .setNonce (some key),
      .setAD (.ptr []), .encryptUpdate (.ptr [7#8]), .encryptFinal .ptr]
    let B : Build := ⟨.unrolled, fun x y => if x = y then 0 else 1⟩
    Ordered (executed (trace (step B) zero.init.1 cs)) := by
  intro key cs B
  have hcs : ∀ c ∈ cs, c.kind? ≠ none := by decide
  exact (call_order B zero cs hcs).1

/-! ### What the flags do not stop -/

/-- One life of a context: setup, updates of one direction, one final. -/
def oneLife (keyFirst : Bool) (d : Dir) (n : Nat) : List Kind :=
  (if keyFirst then [.setKey, .setNonce] else [.setNonce, .setKey]) ++ [.setAD] ++
    List.replicate (n + 1) (.update d) ++ [.final d]

/-- The successful calls other than `Mask` are a prefix of one life. -/
def SingleUse (B : Build) (a : AsconAEAD128) (cs : List Call) : Prop :=
  ∃ keyFirst d n, successful (trace (step B) a.init.1 cs) <+: oneLife keyFirst d n

/-- **A second `SetAD` succeeds, and so does a second final.** -/
theorem not_singleUse :
    let key : Vector Byte 16 := Vector.replicate 16 1#8
    let B : Build := ⟨.looped, fun x y => if x = y then 0 else 1⟩
    let setup : List Call := [.setKey (some key), .setNonce (some key), .setAD (.ptr [])]
    ¬ SingleUse B zero (setup ++ [.setAD (.ptr [])]) ∧
    ¬ SingleUse B zero (setup ++ [.encryptUpdate (.ptr []), .encryptFinal .ptr,
      .encryptFinal .ptr]) := by
  intro key B setup
  refine ⟨?_, ?_⟩
  · rintro ⟨keyFirst, d, n, h⟩
    have hrun : successful (trace (step B) zero.init.1 (setup ++ [.setAD (.ptr [])])) =
        [.setKey, .setNonce, .setAD, .setAD] := by decide +kernel
    rw [hrun] at h
    cases keyFirst with
    | true => simp [oneLife, List.replicate_succ] at h
    | false => simp [oneLife] at h
  · rintro ⟨keyFirst, d, n, h⟩
    have hrun : successful (trace (step B) zero.init.1
        (setup ++ [.encryptUpdate (.ptr []), .encryptFinal .ptr, .encryptFinal .ptr])) =
        [.setKey, .setNonce, .setAD, .update .encrypt, .final .encrypt, .final .encrypt] := by
      decide +kernel
    rw [hrun] at h
    cases keyFirst with
    | true =>
        cases n with
        | zero => simp [oneLife] at h
        | succ n => simp [oneLife, List.replicate_succ] at h
    | false => simp [oneLife] at h

end AsconDtls.Wolf
