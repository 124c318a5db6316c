import AsconDtls.Lib.Access
import AsconDtls.Wolf.CallOrder
import AsconDtls.Wolf.Hash

/-!
# What holds in every context, and what an error leaves behind

`AsconAEAD128.Inv` and `AsconHash256.Inv` are the invariants of the two contexts.
`accesses` are the places in the rate that a call touches, taken from the code run
with a log (`Lib.Access`), pad bytes included; the `_eq_log` lemmas say that it is the code.  `context_invariant` says for every run from `Init` that the
invariant holds, that no call touches anything behind the rate, and that a call with
an error changes nothing and writes nothing.
-/

namespace AsconDtls.Wolf

open LittleEndian
open Duplex (Access AllInside allInside_nil keepLog logged loggedByte threePhase whileBlocks
  threePhase_inside threePhase_logged whileBlocks_invariant whileBlocks_logged
  length_whileBlocks_rest)
open Run (run)

/-- `BAD_FUNC_ARG` or `BAD_STATE_E`. -/
def Reply.Refused (r : Reply) : Prop := r.ret = .badFuncArg ∨ r.ret = .badStateE

/-- `state.s8[i] ^= 1`, with a log. -/
def padLog (i : Nat) (s : AsconState × List Access) : AsconState × List Access :=
  loggedByte (fun i b s => s.xorS8 i b) i 1 s

theorem padLog_inside {rate i : Nat} (hi : i < rate) {s : AsconState × List Access}
    (h : AllInside rate s.2) : AllInside rate (padLog i s).2 :=
  h.loggedByte (fun i b s => s.xorS8 i b) hi 1

/-! ### The AEAD -/

namespace AsconAEAD128

structure Inv (a : AsconAEAD128) : Prop where
  lastBlkSz : a.lastBlkSz < ASCON_AEAD128_RATE
  op : a.op ≠ .notSet → a.adSet = true
  adSet : a.adSet = true → a.keySet = true ∧ a.nonceSet = true

theorem inv_init (a : AsconAEAD128) : Inv a.init.1 :=
  ⟨Nat.zero_lt_succ 15, fun h => absurd rfl h, fun h => absurd h Bool.false_ne_true⟩

section Accesses

variable (B : Build)

/-- An update with a log. -/
def processLog (part : Nat → List Byte → AsconState → AsconState × List Byte) (a : AsconAEAD128)
    (data : List Byte) : ((AsconState × List Access) × Nat) × List Byte :=
  threePhase ASCON_AEAD128_RATE (keepLog fun s => B.permutation s ASCON_AEAD128_ROUNDS_PB)
    (logged part) ((a.state, []), a.lastBlkSz) data

/-- The blocks of `SetAD` with a log. -/
def adBlocksLog (s : AsconState) (ad : List Byte) :
    (AsconState × List Access) × List Byte × List Byte :=
  let body (blk : List Byte) (s : AsconState × List Access) :
      (AsconState × List Access) × List Byte :=
    (keepLog (fun s => B.permutation s ASCON_AEAD128_ROUNDS_PB)
      (logged (fun i bs s => (s.xorbuf i bs, ([] : List Byte))) 0 blk s).1, [])
  whileBlocks ASCON_AEAD128_RATE body (s, []) ad

/-- The associated data with a log: the blocks, the rest, and `s8[adSz]`. -/
def absorbADLog (s : AsconState) (ad : List Byte) : AsconState × List Access :=
  let r := adBlocksLog B s ad
  let s := (logged (fun i bs s => (s.xorbuf i bs, ([] : List Byte))) 0 r.2.2 r.1).1
  let s := padLog r.2.2.length s
  keepLog (fun s => B.permutation s ASCON_AEAD128_ROUNDS_PB) s

/-- What both finals do, with a log. -/
def finalizeLog (a : AsconAEAD128) : AsconAEAD128 × List Access :=
  let r := padLog a.lastBlkSz (a.state, [])
  let s := r.1.xorS64 2 (a.keyWord 0)
  let s := s.xorS64 3 (a.keyWord 1)
  let s := B.permutation s ASCON_AEAD128_ROUNDS_PA
  let s := s.xorS64 3 (a.keyWord 0)
  let s := s.xorS64 4 (a.keyWord 1)
  ({ a with state := s }, r.2)

/-- What a call touches in the rate, once past its checks. -/
def accesses (a : AsconAEAD128) : Call → List Access
  | .setAD ad =>
    let s := B.permutation a.state ASCON_AEAD128_ROUNDS_PA
    let s := s.xorS64 3 (a.keyWord 0)
    let s := s.xorS64 4 (a.keyWord 1)
    if 0 < ad.data.length then (absorbADLog B s ad.data).2 else []
  | .encryptUpdate inp => (processLog B encryptPart a inp.data).1.1.2
  | .decryptUpdate inp => (processLog B decryptPart a inp.data).1.1.2
  | .encryptFinal _ => (finalizeLog B a).2
  | .decryptFinal _ => (finalizeLog B a).2
  | _ => []

/-- The log is of the update itself. -/
theorem process_eq_log (part : Nat → List Byte → AsconState → AsconState × List Byte)
    (a : AsconAEAD128) (data : List Byte) :
    let r := processLog B part a data
    process B part a data = ({ a with state := r.1.1.1, lastBlkSz := r.1.2 }, .ok r.2) := by
  have hlog := threePhase_logged ASCON_AEAD128_RATE
    (fun s => B.permutation s ASCON_AEAD128_ROUNDS_PB) part ((a.state, []), a.lastBlkSz) data
  simp only at hlog
  simp only [process, hlog]
  rfl

/-- The log is of the associated data themselves. -/
theorem absorbAD_eq_log (s : AsconState) (ad : List Byte) :
    absorbAD B s ad = (absorbADLog B s ad).1 := by
  let body (blk : List Byte) (s : AsconState) : AsconState × List Byte :=
    (B.permutation (s.xorbuf 0 blk) ASCON_AEAD128_ROUNDS_PB, [])
  have hloop : (adBlocksLog B s ad).1.1 = (whileBlocks ASCON_AEAD128_RATE body s ad).1 ∧
      (adBlocksLog B s ad).2 = (whileBlocks ASCON_AEAD128_RATE body s ad).2 :=
    whileBlocks_logged (fun _ _ => ⟨rfl, rfl⟩) (s, []) ad
  obtain ⟨hstate, hrest⟩ := hloop
  simp only [absorbADLog, logged, padLog, loggedByte, keepLog, hstate, hrest]
  rfl

/-- The log is of what both finals do themselves. -/
theorem finalize_eq_log (a : AsconAEAD128) : finalize B a = (finalizeLog B a).1 := rfl

theorem processLog_inside (part : Nat → List Byte → AsconState → AsconState × List Byte)
    {a : AsconAEAD128} (h : a.lastBlkSz < ASCON_AEAD128_RATE) (data : List Byte) :
    AllInside ASCON_AEAD128_RATE (processLog B part a data).1.1.2 ∧
      (processLog B part a data).1.2 < ASCON_AEAD128_RATE := by
  exact threePhase_inside (Nat.zero_lt_succ 15) _ part h (allInside_nil _) data

theorem absorbADLog_inside (s : AsconState) (ad : List Byte) :
    AllInside ASCON_AEAD128_RATE (absorbADLog B s ad).2 := by
  have h16 : ASCON_AEAD128_RATE = 16 := rfl
  have hblocks : AllInside ASCON_AEAD128_RATE (adBlocksLog B s ad).1.2 := by
    refine whileBlocks_invariant
      (fun s : AsconState × List Access => AllInside ASCON_AEAD128_RATE s.2) ?_ ?_ ad
    · intro blk s hlen hs
      exact hs.concat (by simp only [Access.Inside]; omega)
    · exact allInside_nil _
  have hrest : (adBlocksLog B s ad).2.2.length < ASCON_AEAD128_RATE :=
    length_whileBlocks_rest (Nat.zero_lt_succ 15) _ _ _
  have hlast : AllInside ASCON_AEAD128_RATE
      ((adBlocksLog B s ad).1.2 ++ [⟨0, (adBlocksLog B s ad).2.2.length⟩]) := by
    refine hblocks.concat ?_
    simp only [Access.Inside]
    omega
  exact padLog_inside hrest hlast

theorem finalizeLog_inside {a : AsconAEAD128} (h : a.lastBlkSz < ASCON_AEAD128_RATE) :
    AllInside ASCON_AEAD128_RATE (finalizeLog B a).2 :=
  padLog_inside h (allInside_nil _)

/-- **No call touches anything behind the rate.** -/
theorem accesses_inside {a : AsconAEAD128} (h : a.lastBlkSz < ASCON_AEAD128_RATE) (c : Call) :
    AllInside ASCON_AEAD128_RATE (accesses B a c) := by
  have hnil := allInside_nil ASCON_AEAD128_RATE
  cases c with
  | setAD ad =>
      simp only [accesses]
      split
      · exact absorbADLog_inside B _ ad.data
      · exact hnil
  | encryptUpdate inp => exact (processLog_inside B encryptPart h inp.data).1
  | decryptUpdate inp => exact (processLog_inside B decryptPart h inp.data).1
  | encryptFinal tag => exact finalizeLog_inside B h
  | decryptFinal tag => exact finalizeLog_inside B h
  | init => exact hnil
  | setKey key => exact hnil
  | setNonce nonce => exact hnil
  | mask ciphertext mask => exact hnil

end Accesses

/-! ### Steps -/

theorem inv_process (B : Build) (part : Nat → List Byte → AsconState → AsconState × List Byte)
    {a : AsconAEAD128} (h : Inv a) (data : List Byte) : Inv (process B part a data).1 := by
  have hinside := processLog_inside B part h.lastBlkSz data
  rw [process_eq_log]
  exact ⟨hinside.2, h.op, h.adSet⟩

theorem inv_update (B : Build) (dir : Op)
    (part : Nat → List Byte → AsconState → AsconState × List Byte) {a : AsconAEAD128} (h : Inv a)
    (inp : Src) : Inv (update B dir part a inp).1 := by
  unfold update
  by_cases hb : inp.bad = true
  · rw [if_pos hb]
    exact h
  · by_cases hg : (!a.keySet || !a.nonceSet || !a.adSet) = true
    · rw [if_neg hb, if_pos hg]
      exact h
    · have had : a.adSet = true := ((not_guard_iff a).mp (Bool.eq_false_iff.mpr hg)).2.2
      rw [if_neg hb, if_neg hg]
      by_cases h0 : a.op = .notSet
      · rw [if_pos h0]
        have hturned : Inv { a with op := dir } := ⟨h.lastBlkSz, fun _ => had, h.adSet⟩
        exact inv_process B part hturned inp.data
      · rw [if_neg h0]
        by_cases hop : a.op ≠ dir
        · rw [if_pos hop]
          exact h
        · rw [if_neg hop]
          exact inv_process B part h inp.data

/-- **Every call keeps the invariant.** -/
theorem inv_step (B : Build) {a : AsconAEAD128} (h : Inv a) (c : Call) : Inv (step B a c).1 := by
  obtain ⟨hsz, hop, had⟩ := h
  cases c with
  | init => exact inv_init a
  | setKey key =>
      cases key with
      | none => exact ⟨hsz, hop, had⟩
      | some key =>
          simp only [step, setKey]
          split
          · exact ⟨hsz, hop, had⟩
          · exact ⟨hsz, hop, fun hset => ⟨rfl, (had hset).2⟩⟩
  | setNonce nonce =>
      cases nonce with
      | none => exact ⟨hsz, hop, had⟩
      | some nonce =>
          simp only [step, setNonce]
          split
          · exact ⟨hsz, hop, had⟩
          · exact ⟨hsz, hop, fun hset => ⟨(had hset).1, rfl⟩⟩
  | setAD ad =>
      rw [step, setAD]
      by_cases hb : ad.bad = true
      · rw [if_pos hb]
        exact ⟨hsz, hop, had⟩
      · by_cases hg : (!a.keySet || !a.nonceSet) = true
        · rw [if_neg hb, if_pos hg]
          exact ⟨hsz, hop, had⟩
        · rw [if_neg hb, if_neg hg]
          exact ⟨hsz, fun _ => rfl, fun _ => by simpa using hg⟩
  | encryptUpdate inp => exact inv_update B .encrypt encryptPart ⟨hsz, hop, had⟩ inp
  | decryptUpdate inp => exact inv_update B .decrypt decryptPart ⟨hsz, hop, had⟩ inp
  | encryptFinal tag =>
      rw [step, encryptFinal]
      split_ifs <;> exact ⟨hsz, hop, had⟩
  | decryptFinal tag =>
      cases tag with
      | none => exact ⟨hsz, hop, had⟩
      | some tag =>
          simp only [step, decryptFinal]
          split_ifs <;> exact ⟨hsz, hop, had⟩
  | mask ct out =>
      cases ct with
      | none => exact ⟨hsz, hop, had⟩
      | some ct =>
          cases out with
          | null => exact ⟨hsz, hop, had⟩
          | ptr =>
              simp only [step, mask]
              split
              · exact ⟨hsz, hop, had⟩
              · exact ⟨hsz, hop, had⟩

/-- A call with a null argument, `Init` apart. -/
theorem step_badArg (B : Build) (a : AsconAEAD128) {c : Call} (hk : c.kind? = none)
    (hinit : c ≠ .init) : step B a c = (a, .fail .badFuncArg) := by
  have hbad : ∀ {b : Bool} {k : Kind}, (if b then none else some k) = none → b = true := by
    intro b k h
    cases b with
    | true => rfl
    | false => cases h
  cases c with
  | init => exact absurd rfl hinit
  | setKey key =>
      cases key with
      | none => rfl
      | some key => cases hk
  | setNonce nonce =>
      cases nonce with
      | none => rfl
      | some nonce => cases hk
  | setAD ad => exact if_pos (hbad hk)
  | encryptUpdate inp => exact if_pos (hbad hk)
  | decryptUpdate inp => exact if_pos (hbad hk)
  | encryptFinal tag =>
      cases tag with
      | null => rfl
      | ptr => cases hk
  | decryptFinal tag =>
      cases tag with
      | none => rfl
      | some tag => cases hk
  | mask ct out =>
      cases ct with
      | none => rfl
      | some ct =>
          cases out with
          | null => rfl
          | ptr => cases hk

/-- **An error changes nothing and writes nothing.** -/
theorem step_atomic (B : Build) (a : AsconAEAD128) (c : Call) (h : (step B a c).2.Refused) :
    (step B a c).1 = a ∧ (step B a c).2.out = [] := by
  cases hk : c.kind? with
  | none =>
      by_cases hinit : c = .init
      · subst hinit
        rcases h with h | h <;> cases h
      · rw [step_badArg B a hk hinit]
        exact ⟨rfl, rfl⟩
  | some k =>
      by_cases hallow : a.flags.Allows k
      · -- an executed call returned 0 or `ASCON_AUTH_E`
        have hexec := (step_executed B a hk hallow).1
        rcases hexec with hok | hauth
        · rw [Reply.Refused, hok] at h
          rcases h with h | h <;> cases h
        · rw [Reply.Refused, hauth] at h
          rcases h with h | h <;> cases h
      · rw [step_refused B a hk hallow]
        exact ⟨rfl, rfl⟩

end AsconAEAD128

/-! ### The hash -/

namespace AsconHash256

structure Inv (a : AsconHash256) : Prop where
  lastBlkSz : a.lastBlkSz < ASCON_HASH256_RATE

/-- An update with a log. -/
def updateLog (B : Build) (a : AsconHash256) (data : List Byte) :
    ((AsconState × List Access) × Nat) × List Byte :=
  threePhase ASCON_HASH256_RATE (keepLog fun s => B.permutation s ASCON_HASH256_ROUNDS)
    (logged absorbPart) ((a.state, []), a.lastBlkSz) data

/-- The final with a log. -/
def finalLog (B : Build) (a : AsconHash256) : (AsconHash256 × Reply) × List Access :=
  let r := padLog a.lastBlkSz (a.state, [])
  let a := { a with state := r.1 }
  let q := squeeze (fun s => B.permutation s ASCON_HASH256_ROUNDS) ASCON_HASH256_RATE
    (ASCON_HASH256_SZ / ASCON_HASH256_RATE) a.state
  let t := init B { a with state := q.1 }
  ((t.1, { t.2 with out := q.2 }), r.2)

/-- What a call touches in the rate, once past its checks. -/
def accesses (B : Build) (a : AsconHash256) : HashCall → List Access
  | .init => []
  | .update data => (updateLog B a data.data).1.1.2
  | .final _ => (finalLog B a).2

/-- The log is of the update itself. -/
theorem update_eq_log (B : Build) (a : AsconHash256) {data : Src} (hb : data.bad = false)
    (hne : data.data.length ≠ 0) :
    let r := updateLog B a data.data
    update B a data = ({ a with state := r.1.1.1, lastBlkSz := r.1.2 }, .ok []) := by
  have hlog := threePhase_logged ASCON_HASH256_RATE
    (fun s => B.permutation s ASCON_HASH256_ROUNDS) absorbPart ((a.state, []), a.lastBlkSz)
    data.data
  simp only at hlog
  rw [update, if_neg (by simp [hb]), if_neg hne]
  simp only [hlog]
  rfl

/-- The log is of the final itself. -/
theorem final_eq_log (B : Build) (a : AsconHash256) : final B a .ptr = (finalLog B a).1 := rfl

theorem updateLog_inside (B : Build) {a : AsconHash256} (h : Inv a) (data : List Byte) :
    AllInside ASCON_HASH256_RATE (updateLog B a data).1.1.2 ∧
      (updateLog B a data).1.2 < ASCON_HASH256_RATE := by
  exact threePhase_inside (Nat.zero_lt_succ 7) _ absorbPart h.lastBlkSz (allInside_nil _) data

theorem accesses_inside (B : Build) {a : AsconHash256} (h : Inv a) (c : HashCall) :
    AllInside ASCON_HASH256_RATE (accesses B a c) := by
  have hnil := allInside_nil ASCON_HASH256_RATE
  cases c with
  | init => exact hnil
  | update data => exact (updateLog_inside B h data.data).1
  | final hash => exact padLog_inside h.lastBlkSz hnil

theorem inv_init (B : Build) (a : AsconHash256) : Inv (a.init B).1 := ⟨Nat.zero_lt_succ 7⟩

theorem inv_step (B : Build) {a : AsconHash256} (h : Inv a) (c : HashCall) :
    Inv (hashStep B a c).1 := by
  cases c with
  | init => exact inv_init B a
  | update data =>
      have hstep : hashStep B a (.update data) = update B a data := rfl
      rw [hstep]
      by_cases hb : data.bad = true
      · rw [update, if_pos hb]
        exact h
      · by_cases h0 : data.data.length = 0
        · rw [update, if_neg hb, if_pos h0]
          exact h
        · rw [update_eq_log B a (Bool.eq_false_iff.mpr hb) h0]
          exact ⟨(updateLog_inside B h data.data).2⟩
  | final hash =>
      cases hash with
      | null => exact h
      | ptr => exact inv_init B a

/-- **An error changes nothing and writes nothing.** -/
theorem step_atomic (B : Build) (a : AsconHash256) (c : HashCall)
    (h : (hashStep B a c).2.Refused) :
    (hashStep B a c).1 = a ∧ (hashStep B a c).2.out = [] := by
  cases c with
  | init => rcases h with h | h <;> cases h
  | update data =>
      have hstep : hashStep B a (.update data) = update B a data := rfl
      rw [hstep] at h ⊢
      by_cases hb : data.bad = true
      · rw [update, if_pos hb]
        exact ⟨rfl, rfl⟩
      · by_cases h0 : data.data.length = 0
        · rw [update, if_neg hb, if_pos h0]
          exact ⟨rfl, rfl⟩
        · rw [update_eq_log B a (Bool.eq_false_iff.mpr hb) h0] at h
          rcases h with h | h <;> cases h
  | final hash =>
      cases hash with
      | null => exact ⟨rfl, rfl⟩
      | ptr => rcases h with h | h <;> cases h

end AsconHash256

/-! ### Runs -/

/-- **The invariants of both contexts, and errors without effect.**  In every context that a
run from `Init` reaches, whatever the arguments: the flags and the position are in order,
the room left in the block is a proper difference, every call stays inside the rate, and
a call that returns `BAD_FUNC_ARG` or `BAD_STATE_E` leaves the context as it is and
writes nothing. -/
theorem context_invariant (B : Build) :
    (∀ (a : AsconAEAD128) (cs : List Call),
      let b := (run (step B) a.init.1 cs).1
      b.Inv ∧ ASCON_AEAD128_RATE - b.lastBlkSz + b.lastBlkSz = ASCON_AEAD128_RATE ∧
        ∀ c, AllInside ASCON_AEAD128_RATE (b.accesses B c) ∧
          ((step B b c).2.Refused → (step B b c).1 = b ∧ (step B b c).2.out = [])) ∧
    (∀ (a : AsconHash256) (cs : List HashCall),
      let b := (run (hashStep B) (a.init B).1 cs).1
      b.Inv ∧ ASCON_HASH256_RATE - b.lastBlkSz + b.lastBlkSz = ASCON_HASH256_RATE ∧
        ∀ c, AllInside ASCON_HASH256_RATE (b.accesses B c) ∧
          ((hashStep B b c).2.Refused →
            (hashStep B b c).1 = b ∧ (hashStep B b c).2.out = [])) := by
  refine ⟨?_, ?_⟩
  · intro a cs b
    have hinv : b.Inv :=
      Run.run_preserves AsconAEAD128.Inv (fun s c h => AsconAEAD128.inv_step B h c)
        (AsconAEAD128.inv_init a) cs
    refine ⟨hinv, Nat.sub_add_cancel (Nat.le_of_lt hinv.lastBlkSz), ?_⟩
    intro c
    exact ⟨AsconAEAD128.accesses_inside B hinv.lastBlkSz c, AsconAEAD128.step_atomic B b c⟩
  · intro a cs b
    have hinv : b.Inv :=
      Run.run_preserves AsconHash256.Inv (fun s c h => AsconHash256.inv_step B h c)
        (AsconHash256.inv_init B a) cs
    refine ⟨hinv, Nat.sub_add_cancel (Nat.le_of_lt hinv.lastBlkSz), ?_⟩
    intro c
    exact ⟨AsconHash256.accesses_inside B hinv c, AsconHash256.step_atomic B b c⟩

end AsconDtls.Wolf
