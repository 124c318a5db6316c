import AsconDtls.Formal.RecordModel
import Mathlib.Data.List.Induction

/-!
# What `KeyUpdate` leaves usable

The keys are persistent facts: `KeyUpdate` adds new client keys and takes none
away, and it adds no server keys.  So a run retires the old keys exactly when
its steps never ask for them (`retires_iff_newestOnly`): the records of the
client use the newest client keys, and no record of the server follows a
`KeyUpdate` of its session.
-/

namespace AsconDtls.Formal.Record

open Symbolic

/-- The keys of a send or receive step, with their direction and session. -/
def Step.uses : Step → Option (Dir × Nat × Keys)
  | clientSend p k _ _ => some (.c2s, p, k)
  | serverRecv p k _ _ _ => some (.c2s, p, k)
  | serverSend p k _ _ => some (.s2c, p, k)
  | clientRecv p k _ _ _ => some (.s2c, p, k)
  | _ => none

/-- After a `KeyUpdate(p)` no step for `p` uses send keys that `p` had before it. -/
def RetiresKeys (ls : List Step) : Prop :=
  ∀ (ls₁ ls₂ ls₃ : List Step) (p : Nat) (k k2 : Keys) (l : Step),
    ls = ls₁ ++ .keyUpdate p k k2 :: (ls₂ ++ l :: ls₃) →
      ∀ d k', l.uses = some (d, p, k') → ∀ d', .sendKeys d' p k' ∉ (after ls₁).facts

/-- The client keys of `p` that came last. -/
def newest (c : State) (p : Nat) : Option Keys :=
  c.facts.findSome? fun
    | .sendKeys .c2s q k => if q = p then some k else none
    | _ => none

/-- Each step asks for the newest client keys, or for server keys of a session without a
`KeyUpdate`. -/
def NewestOnly (ls : List Step) : Prop :=
  ∀ (ls₁ ls₂ : List Step) (l : Step), ls = ls₁ ++ l :: ls₂ →
    (∀ p k, l.uses = some (.c2s, p, k) → newest (after ls₁) p = some k) ∧
    ∀ p k, l.uses = some (.s2c, p, k) → ∀ k1 k2, .keyUpdate p k1 k2 ∉ ls₁

/-! ### What one step does to the keys -/

/-- The keys that a step puts into facts. -/
def Step.creates : Step → List (Dir × Nat × Keys)
  | setup p kc ks => [(.c2s, p, kc), (.s2c, p, ks)]
  | keyUpdate p _ k2 => [(.c2s, p, k2)]
  | _ => []

section Step

variable {c : State} {l : Step} {d : Dir} {p : Nat} {k : Keys}

theorem sendKeys_conclusions : .sendKeys d p k ∈ l.rule.conclusions ↔ (d, p, k) ∈ l.creates := by
  cases l <;>
    simp [Step.rule, setup, keyUpdate, send, receive, received, nonce, Step.creates]

theorem recvKeys_conclusions : .recvKeys d p k ∈ l.rule.conclusions ↔ (d, p, k) ∈ l.creates := by
  cases l <;>
    simp [Step.rule, setup, keyUpdate, send, receive, received, nonce, Step.creates]

theorem sendKeys_fire :
    .sendKeys d p k ∈ (c.fire l.rule).facts ↔ (d, p, k) ∈ l.creates ∨ .sendKeys d p k ∈ c.facts := by
  rw [Config.fire, List.mem_append, sendKeys_conclusions]

/-- The server keys of `p` come from its `Setup`. -/
theorem serverKeys_fresh (h : (.s2c, p, k) ∈ l.creates) : p ∈ l.rule.fresh := by
  cases l with
  | setup q kc ks =>
    obtain ⟨rfl, -⟩ : p = q ∧ k = ks := by simpa [Step.creates] using h
    exact List.mem_cons_self
  | keyUpdate q k1 k2 => simp [Step.creates] at h
  | _ => exact absurd h List.not_mem_nil

/-- The client keys of `p` come from its `Setup` and from its `KeyUpdate`s. -/
theorem clientKeys_cases (l : Step) (p : Nat) : (∃ kc ks, l = .setup p kc ks) ∨
    (∃ k k2, l = .keyUpdate p k k2) ∨ ∀ k, (.c2s, p, k) ∉ l.creates := by
  cases l with
  | setup q kc ks =>
    by_cases hq : q = p
    · exact .inl ⟨kc, ks, by rw [hq]⟩
    · exact .inr (.inr fun k => by simp [Step.creates, Ne.symm hq])
  | keyUpdate q k k2 =>
    by_cases hq : q = p
    · exact .inr (.inl ⟨k, k2, by rw [hq]⟩)
    · exact .inr (.inr fun k => by simp [Step.creates, Ne.symm hq])
  | _ => exact .inr (.inr fun k => List.not_mem_nil)

theorem newest_setup (kc ks : Keys) : newest (c.fire (Step.setup p kc ks).rule) p = some kc := by
  simp [newest, Config.fire, Step.rule, setup]

theorem newest_keyUpdate (k k2 : Keys) :
    newest (c.fire (Step.keyUpdate p k k2).rule) p = some k2 := by
  simp [newest, Config.fire, Step.rule, keyUpdate]

theorem newest_of_not_creates (h : ∀ k, (.c2s, p, k) ∉ l.creates) :
    newest (c.fire l.rule) p = newest c p := by
  rw [newest, Config.fire, List.findSome?_append, List.findSome?_eq_none_iff.2, Option.none_or,
    newest]
  intro f hf
  cases f with
  | sendKeys d q k =>
    cases d with
    | c2s =>
      have hq : q ≠ p := by
        rintro rfl
        exact h k (sendKeys_conclusions.1 hf)
      simp [hq]
    | s2c => rfl
  | _ => rfl

/-- The keys to receive with are the keys to send with. -/
def Paired (c : State) : Prop :=
  ∀ d p k, Fact.recvKeys d p k ∈ c.facts → Fact.sendKeys d p k ∈ c.facts

theorem Paired.fire (hc : Paired c) (l : Step) : Paired (c.fire l.rule) := by
  intro d p k h
  rcases List.mem_append.1 h with hnew | hold
  · exact sendKeys_fire.2 (.inl (recvKeys_conclusions.1 hnew))
  · exact sendKeys_fire.2 (.inr (hc d p k hold))

theorem uses_sendKeys (hc : Paired c) (hl : Enabled Equation c l.rule)
    (hu : l.uses = some (d, p, k)) : .sendKeys d p k ∈ c.facts := by
  have hkeys : .sendKeys d p k ∈ l.rule.premises ∨ .recvKeys d p k ∈ l.rule.premises := by
    cases l <;> simp [Step.uses] at hu <;> simp [hu, Step.rule, send, receive]
  rcases hkeys with hsend | hrecv
  · exact hl.premises _ hsend
  · exact hc d p k (hl.premises _ hrecv)

end Step

/-! ### Runs -/

section Runs

variable {ls ls' : List Step} {p : Nat} {k : Keys}

theorem paired_after (h : Run ls) : Paired (after ls) :=
  h.invariant (fun _ l hc _ => hc.fire l) fun _ _ _ hmem => absurd hmem List.not_mem_nil

theorem after_append_cons (ls : List Step) (l : Step) (ls' : List Step) :
    after (ls ++ l :: ls') = exec Step.rule ((after ls).fire l.rule) ls' :=
  exec_append Step.rule .init ls (l :: ls')

/-- The names `used` are drawn, the newest client keys of `p` are not among them. -/
def NewestSince (used : List Nat) (p : Nat) (c : State) : Prop :=
  used ⊆ c.used ∧ ∃ k, newest c p = some k ∧ k.ck ∉ used

theorem NewestSince.fire {used : List Nat} {c : State} {l : Step} (hc : NewestSince used p c)
    (hl : Enabled Equation c l.rule) : NewestSince used p (c.fire l.rule) := by
  obtain ⟨hused, k, hk, hck⟩ := hc
  refine ⟨List.subset_append_of_subset_right _ hused, ?_⟩
  rcases clientKeys_cases l p with ⟨kc, ks, rfl⟩ | ⟨k1, k2, rfl⟩ | hnone
  · refine ⟨kc, newest_setup kc ks, fun hmem => hl.new kc.ck ?_ (hused hmem)⟩
    exact List.mem_cons_of_mem p List.mem_cons_self
  · exact ⟨k2, newest_keyUpdate k1 k2, fun hmem => hl.new k2.ck List.mem_cons_self (hused hmem)⟩
  · exact ⟨k, (newest_of_not_creates hnone).trans hk, hck⟩

/-- After a `KeyUpdate` the newest client keys are drawn since. -/
theorem newest_after_update {k2 : Keys} (h : Run (ls ++ .keyUpdate p k k2 :: ls')) :
    NewestSince (after ls).used p (after (ls ++ .keyUpdate p k k2 :: ls')) := by
  obtain ⟨-, hupdate, hrest⟩ := (valid_append _ _ _ _ _).1 h
  have hstart : NewestSince (after ls).used p ((after ls).fire (Step.keyUpdate p k k2).rule) :=
    ⟨List.subset_append_right _ _, k2, newest_keyUpdate k k2, hupdate.new k2.ck List.mem_cons_self⟩
  rw [after_append_cons]
  exact hrest.invariant (fun _ _ hc hl => hc.fire hl) hstart

/-- Client keys of `p` are the newest, or a `KeyUpdate` came after them. -/
theorem newest_or_update (h : Run ls) (hk : .sendKeys .c2s p k ∈ (after ls).facts) :
    newest (after ls) p = some k ∨ ∃ ls₁ k1 k2 ls₂, ls = ls₁ ++ .keyUpdate p k1 k2 :: ls₂ ∧
      .sendKeys .c2s p k ∈ (after ls₁).facts := by
  induction ls using List.reverseRecOn with
  | nil => exact absurd hk List.not_mem_nil
  | append_singleton ls l ih =>
    obtain ⟨hbefore, hl⟩ := (valid_concat _ _ _ _ _).1 h
    rw [after, exec_concat] at hk ⊢
    rcases clientKeys_cases l p with ⟨kc, ks, rfl⟩ | ⟨k1, k2, rfl⟩ | hnone
    · rcases sendKeys_fire.1 hk with hnew | hold
      · obtain rfl : k = kc := by simpa [Step.creates] using hnew
        exact .inl (newest_setup k ks)
      · -- the session name is drawn by its `Setup`, so no keys of it are older
        have hp : p ∈ (after ls).used :=
          (guarded_after hbefore).used p ⟨_, hold, List.mem_cons_self⟩
        exact absurd hp (hl.new p List.mem_cons_self)
    · rcases sendKeys_fire.1 hk with hnew | hold
      · obtain rfl : k = k2 := by simpa [Step.creates] using hnew
        exact .inl (newest_keyUpdate k1 k)
      · exact .inr ⟨ls, k1, k2, [], rfl, hold⟩
    · have hold := (sendKeys_fire.1 hk).resolve_left (hnone k)
      rw [newest_of_not_creates hnone]
      rcases ih hbefore hold with hnewest | ⟨ls₁, k1, k2, ls₂, rfl, hmem⟩
      · exact .inl hnewest
      · exact .inr ⟨ls₁, k1, k2, ls₂ ++ [l], by simp, hmem⟩

/-- The name `p` is drawn, so its server keys are among the facts already. -/
def ServerKeysIn (facts : List Fact) (p : Nat) (c : State) : Prop :=
  p ∈ c.used ∧ ∀ k, .sendKeys .s2c p k ∈ c.facts → .sendKeys .s2c p k ∈ facts

theorem ServerKeysIn.fire {facts : List Fact} {c : State} {l : Step} (hc : ServerKeysIn facts p c)
    (hl : Enabled Equation c l.rule) : ServerKeysIn facts p (c.fire l.rule) := by
  refine ⟨List.mem_append_right _ hc.1, ?_⟩
  intro k hmem
  rcases sendKeys_fire.1 hmem with hnew | hold
  · exact absurd hc.1 (hl.new p (serverKeys_fresh hnew))
  · exact hc.2 k hold

/-- The server keys of `p` are there as soon as its client keys are. -/
theorem serverKeys_before (h : Run (ls ++ ls')) {k1 : Keys}
    (hclient : .sendKeys .c2s p k1 ∈ (after ls).facts)
    (hserver : .sendKeys .s2c p k ∈ (after (ls ++ ls')).facts) :
    .sendKeys .s2c p k ∈ (after ls).facts := by
  obtain ⟨hbefore, hrest⟩ := (valid_append _ _ _ _ _).1 h
  have hstart : ServerKeysIn (after ls).facts p (after ls) :=
    ⟨(guarded_after hbefore).used p ⟨_, hclient, List.mem_cons_self⟩, fun _ => id⟩
  rw [after, exec_append] at hserver
  exact (hrest.invariant (fun _ _ hc hl => hc.fire hl) hstart).2 k hserver

end Runs

/-- **A run retires the old keys if and only if no step asks for them.** -/
theorem retires_iff_newestOnly {ls : List Step} (h : Run ls) :
    RetiresKeys ls ↔ NewestOnly ls := by
  refine ⟨?_, ?_⟩
  · rintro hretires ls₁ ls₂ l rfl
    obtain ⟨hbefore, hl, -⟩ := (valid_append _ _ _ _ _).1 h
    refine ⟨?_, ?_⟩
    · intro p k hu
      have hkeys := uses_sendKeys (paired_after hbefore) hl hu
      rcases newest_or_update hbefore hkeys with hnewest | ⟨ls₃, k1, k2, ls₄, rfl, hold⟩
      · exact hnewest
      · exact absurd hold (hretires ls₃ ls₄ ls₂ p k1 k2 l (by simp) .c2s k hu .c2s)
    · rintro p k hu k1 k2 hmem
      obtain ⟨ls₃, ls₄, rfl⟩ := List.append_of_mem hmem
      have hkeys := uses_sendKeys (paired_after hbefore) hl hu
      obtain ⟨-, hupdate, -⟩ := (valid_append _ _ _ _ _).1 hbefore
      have hclient : .sendKeys .c2s p k1 ∈ (after ls₃).facts :=
        hupdate.premises _ (List.mem_singleton_self _)
      exact hretires ls₃ ls₄ ls₂ p k1 k2 l (by simp) .s2c k hu .s2c
        (serverKeys_before hbefore hclient hkeys)
  · rintro hnewest ls₁ ls₂ ls₃ p k k2 l rfl d k' hu d' hold
    have hsplit : ls₁ ++ .keyUpdate p k k2 :: (ls₂ ++ l :: ls₃) =
        (ls₁ ++ .keyUpdate p k k2 :: ls₂) ++ l :: ls₃ := by simp
    obtain ⟨hclient, hserver⟩ := hnewest _ _ l hsplit
    rw [hsplit] at h
    obtain ⟨hbefore, -⟩ := (valid_append _ _ _ _ _).1 h
    cases d with
    | c2s =>
      obtain ⟨-, k'', hk'', hck⟩ := newest_after_update hbefore
      obtain rfl : k' = k'' := Option.some.inj ((hclient p k' hu).symm.trans hk'')
      have hold' := ((valid_append _ _ _ _ _).1 hbefore).1
      exact hck ((guarded_after hold').used k'.ck ⟨_, hold, by simp [Fact.names, Keys.names]⟩)
    | s2c => exact hserver p k' hu k k2 (by simp)

/-- A handshake, a `KeyUpdate`, and a record of the client under its first keys. -/
def staleRun : List Step :=
  [.setup 0 ⟨1, 2, 3⟩ ⟨4, 5, 6⟩, .keyUpdate 0 ⟨1, 2, 3⟩ ⟨7, 8, 9⟩, .clientSend 0 ⟨1, 2, 3⟩ 10 11]

theorem staleRun_run : Run staleRun := by
  refine ⟨⟨?_, ?_, ?_, ?_⟩, ⟨?_, ?_, ?_, ?_⟩, ⟨?_, ?_, ?_, ?_⟩, trivial⟩
  all_goals simp [Step.rule, setup, keyUpdate, send, Keys.names, Config.fire, Config.init]

theorem retires_iff_newestOnly_example : RetiresKeys staleRun ↔ NewestOnly staleRun :=
  retires_iff_newestOnly staleRun_run

/-- The first keys are still usable. -/
theorem old_keys_used : ¬ ∀ ls : List Step, Run ls → RetiresKeys ls := by
  intro hall
  have hretires := hall staleRun staleRun_run [.setup 0 ⟨1, 2, 3⟩ ⟨4, 5, 6⟩] [] [] 0 ⟨1, 2, 3⟩
    ⟨7, 8, 9⟩ (.clientSend 0 ⟨1, 2, 3⟩ 10 11) rfl .c2s ⟨1, 2, 3⟩ rfl .c2s
  exact hretires (by simp [after, exec, Config.fire, Step.rule, setup])

end AsconDtls.Formal.Record
