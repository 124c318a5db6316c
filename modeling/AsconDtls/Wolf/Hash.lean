import AsconDtls.Verify.Drivers
import AsconDtls.Wolf.Aead

/-!
# `wc_AsconHash256_*`

The hash API of `wolfcrypt/src/ascon.c`, with the calls and replies of
`Wolf.Aead`.  `Final` initialises the context again, so one context hashes
message after message: `hash_session` is about such a run.
-/

namespace AsconDtls.Wolf

open LittleEndian
open Duplex (threePhase)
open Run (run run_append run_cons run_nil)

structure AsconHash256 where
  state : AsconState
  lastBlkSz : Nat
deriving DecidableEq

def ASCON_HASH256_ROUNDS : Rounds := .r12

namespace AsconHash256

def init (B : Build) (_a : AsconHash256) : AsconHash256 × Reply :=
  let a : AsconHash256 := { state := .zero, lastBlkSz := 0 }
  let a := { a with state := a.state.setS64 0 ASCON_HASH256_IV }
  ({ a with state := B.permutation a.state ASCON_HASH256_ROUNDS }, .ok [])

/-- `xorbuf(state.s8 + i, data, n)`; nothing is written. -/
def absorbPart (i : Nat) (bs : List Byte) (s : AsconState) : AsconState × List Byte :=
  (s.xorbuf i bs, [])

def update (B : Build) (a : AsconHash256) (data : Src) : AsconHash256 × Reply :=
  if data.bad then (a, .fail .badFuncArg)
  else if data.data.length = 0 then (a, .ok [])
  else
    let r := threePhase ASCON_HASH256_RATE (fun s => B.permutation s ASCON_HASH256_ROUNDS)
      absorbPart (a.state, a.lastBlkSz) data.data
    ({ a with state := r.1.1, lastBlkSz := r.1.2 }, .ok [])

def final (B : Build) (a : AsconHash256) (hash : Dst) : AsconHash256 × Reply :=
  match hash with
  | .null => (a, .fail .badFuncArg)
  | .ptr =>
    let a := { a with state := a.state.xorS8 a.lastBlkSz 1 }
    let r := squeeze (fun s => B.permutation s ASCON_HASH256_ROUNDS) ASCON_HASH256_RATE
      (ASCON_HASH256_SZ / ASCON_HASH256_RATE) a.state
    let t := init B { a with state := r.1 }
    (t.1, { t.2 with out := r.2 })

end AsconHash256

inductive HashCall
  | init
  | update (data : Src)
  | final (hash : Dst)
deriving DecidableEq

def hashStep (B : Build) (a : AsconHash256) : HashCall → AsconHash256 × Reply
  | .init => a.init B
  | .update data => a.update B data
  | .final hash => a.final B hash

/-! ### Runs -/

/-- One message in chunks. -/
def messageCalls (chunks : List (List Byte)) : List HashCall :=
  chunks.map (fun bs => .update (.ptr bs)) ++ [.final .ptr]

/-- One `Init`, then messages with only `Final` between them. -/
def sessionCalls (msgs : List (List (List Byte))) : List HashCall :=
  .init :: (msgs.map messageCalls).flatten

/-- Every call returns 0; the final writes the digest. -/
def messageReplies (chunks : List (List Byte)) (digest : List Byte) : List Reply :=
  chunks.map (fun _ => .ok []) ++ [.ok digest]

namespace AsconHash256

/-- A context in the middle of a message. -/
def absorbing (c : AsconState × Nat) : AsconHash256 := ⟨c.1, c.2⟩

theorem init_eq (B : Build) (a : AsconHash256) : a.init B = (absorbing (hashStart, 0), .ok []) := by
  have hperm : B.permutation = asconP := B.path.permutation_eq
  simp only [init, hperm]
  rfl

theorem update_absorbing (B : Build) {c : AsconState × Nat} (hc : c.2 < ASCON_HASH256_RATE)
    (bs : List Byte) :
    (absorbing c).update B (.ptr bs) = (absorbing (hashMachine.feed c bs).1, .ok []) := by
  have hperm : B.permutation = asconP := B.path.permutation_eq
  have hpart : ∀ (i : Nat) (bs : List Byte) (s : AsconState),
      i + bs.length ≤ hashMachine.rate →
        (absorbPart i bs s).1 = (hashMachine.absorb i bs s).1 := by
    intro i bs s h
    have h8 : i + bs.length ≤ 8 := h
    rw [hashMachine, xorMachine_absorb _ _ _ (by omega)]
    rfl
  have hfeed := hashMachine.threePhase_state_eq_feed hpart hc bs
  cases bs with
  | nil => rfl
  | cons b bs =>
      rw [← hfeed]
      simp only [update, hperm]
      rfl

theorem final_absorbing (B : Build) (c : AsconState × Nat) :
    (absorbing c).final B .ptr = (absorbing (hashStart, 0), .ok (hashClose c)) := by
  have hperm : B.permutation = asconP := B.path.permutation_eq
  simp only [final, init_eq, hperm]
  rfl

/-- The context after updates with `chunks`. -/
theorem run_updates (B : Build) {c : AsconState × Nat} (hc : c.2 < ASCON_HASH256_RATE)
    (chunks : List (List Byte)) :
    run (hashStep B) (absorbing c) (chunks.map fun bs => .update (.ptr bs)) =
      (absorbing (hashMachine.feed c chunks.flatten).1, chunks.map fun _ => .ok []) := by
  induction chunks generalizing c with
  | nil => rfl
  | cons bs chunks ih =>
      have hstep : hashStep B (absorbing c) (.update (.ptr bs)) =
          (absorbing (hashMachine.feed c bs).1, .ok []) := update_absorbing B hc bs
      rw [List.map_cons, run_cons, hstep, ih (hashMachine.feed_lt hc bs), List.flatten_cons,
        hashMachine.feed_append, List.map_cons]

theorem run_message (B : Build) {c : AsconState × Nat} (hc : c.2 < ASCON_HASH256_RATE)
    (chunks : List (List Byte)) :
    run (hashStep B) (absorbing c) (messageCalls chunks) =
      (absorbing (hashStart, 0),
        messageReplies chunks (hashClose (hashMachine.feed c chunks.flatten).1)) := by
  have hfinal : hashStep B (absorbing (hashMachine.feed c chunks.flatten).1) (.final .ptr) =
      (absorbing (hashStart, 0), .ok (hashClose (hashMachine.feed c chunks.flatten).1)) :=
    final_absorbing B _
  rw [messageCalls, run_append, run_updates B hc, run_cons, run_nil, hfinal, messageReplies]

/-- Messages one after another, each from the initial state. -/
theorem run_messages (B : Build) (msgs : List (List (List Byte))) :
    run (hashStep B) (absorbing (hashStart, 0)) (msgs.map messageCalls).flatten =
      (absorbing (hashStart, 0),
        (msgs.map fun chunks => messageReplies chunks (hash256 chunks.flatten)).flatten) := by
  induction msgs with
  | nil => rfl
  | cons chunks msgs ih =>
      have hone := run_message B (c := (hashStart, 0)) (by decide) chunks
      rw [List.map_cons, List.flatten_cons, run_append, hone, ih, List.map_cons, List.flatten_cons]
      rfl

end AsconHash256

/-- **Back-to-back messages on one context are hashed independently.**  Every
call returns 0 and every digest is the one-shot hash of its message. -/
theorem hash_session (B : Build) (perm : Verify.Perm) (a : AsconHash256)
    (msgs : List (List (List Byte))) :
    (run (hashStep B) a (sessionCalls msgs)).2 =
      .ok [] :: (msgs.map fun chunks =>
        messageReplies chunks (Verify.asconHash perm.run chunks.flatten)).flatten := by
  simp only [Verify.asconHash_eq]
  rw [sessionCalls, run_cons, hashStep, AsconHash256.init_eq, AsconHash256.run_messages]

end AsconDtls.Wolf
