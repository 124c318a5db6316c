import AsconDtls.Lib.LittleEndian
import AsconDtls.Lib.Run

/-!
# The negative-test proxy

`dtls_negative_proxy.ps1` stands between a DTLS client and its server and tampers with
what the client sends.  `iterate` is one turn of its loop: the variables of the script
are the fields of `Proxy`, an `Event` is what `Receive` comes back with, and an `Out` is
a datagram handed to the socket or a line with `action=` for the matrix to count.  An
exception that nothing catches ends the script; the state is `none` then.

A run is any number of turns; the deadline is where the list of events ends.  A send does
not fail here, and the files and the other log lines are left out.

* `run_replay`, `run_observe`: every client datagram goes to the server once.
* `replays_iff`: so the first application record is never sent a second time.
* `runOnePass_replay`: the matrix does not notice.
-/

namespace AsconDtls.Tools

open LittleEndian
open Run (run run_append run_cons run_nil)

/-! ### The script -/

/-- `$Mode`. -/
inductive Mode
  | observe
  | tamper
  | replay
  | truncate
  | sequence
  | epoch
  | flood
  | loss
deriving DecidableEq

/-- The parameters that the loop reads. -/
structure Config where
  mode : Mode
  serverPort : Nat
  corruptIndex : Int

/-- `[System.Net.IPEndPoint]`. -/
structure EndPoint where
  address : List Byte
  port : Nat
deriving DecidableEq

/-- What `$udp.Receive` comes back with: its timeout, or a datagram.  `lossDraw` is the outcome
of `(Get-Random ...) / 10000 -lt $LossRate`. -/
inductive Event
  | timeout
  | received (src : EndPoint) (bytes : List Byte) (lossDraw : Bool)
deriving DecidableEq

inductive Out
  | toServer (bytes : List Byte)
  | toClient (dst : EndPoint) (bytes : List Byte)
  /-- `action=<mode>,idx=<idx>,client_packet=<packet>,length=<length>`. -/
  | action (mode : Mode) (idx packet length : Nat)
deriving DecidableEq

/-- The variables of the script.  `seen` lists the keys of the hash table; an identity is the
bytes whose hex digits the script joins. -/
structure Proxy where
  client : Option EndPoint := none
  clientPackets : Nat := 0
  serverPackets : Nat := 0
  changed : Bool := false
  qualifyingCount : Nat := 0
  seen : List (List Byte) := []
  distinctCount : Nat := 0
  targetId : Option (List Byte) := none
deriving DecidableEq

/-- `$isApp`; an empty datagram has no first byte. -/
def isApp (bytes : List Byte) : Bool := decide (bytes.head? = some 0x2f#8)

/-- `$recId`: the first five bytes, or all if there are fewer. -/
def recId (bytes : List Byte) : List Byte := bytes.take 5

/-- The loop of `Corrupt-Tags`.  A turn moves on by five bytes at least. -/
def corruptTagsFrom (arr : List Byte) (off : Nat) : Nat → List Byte
  | 0 => arr
  | fuel + 1 =>
    if off + 5 ≤ arr.length then
      let len := ((arr.getD (off + 3) 0).toNat <<< 8) + (arr.getD (off + 4) 0).toNat
      let recEnd := off + 5 + len
      if arr.length < recEnd then arr
      else
        let arr := if 16 ≤ len then arr.set (recEnd - 1) (arr.getD (recEnd - 1) 0 ^^^ 1) else arr
        corruptTagsFrom arr recEnd fuel
    else arr

/-- `Corrupt-Tags`. -/
def corruptTags (arr : List Byte) : List Byte := corruptTagsFrom arr 0 arr.length

/-- `switch ($Mode)`: the mutated copy, or none where an index is out of bounds. -/
def mutate (mode : Mode) (bytes : List Byte) : Option (List Byte) :=
  match mode with
  | .tamper => some (corruptTags bytes)
  | .flood => some (corruptTags bytes)
  | .truncate =>
    let n := max 1 (bytes.length - 1)
    if bytes.length < n then none else some (bytes.take n)
  | .sequence => if bytes.length ≤ 2 then none else some (bytes.set 2 (bytes.getD 2 0 ^^^ 1))
  | .epoch => if bytes.length = 0 then none else some (bytes.set 0 (bytes.getD 0 0 ^^^ 1))
  | _ => some bytes

/-- `if ($isApp)`: the counters and the target. -/
def countApp (cfg : Config) (p : Proxy) (bytes : List Byte) : Proxy :=
  if isApp bytes then
    let p :=
      if recId bytes ∈ p.seen then p
      else { p with seen := p.seen ++ [recId bytes], distinctCount := p.distinctCount + 1 }
    if (p.distinctCount : Int) = cfg.corruptIndex then { p with targetId := some (recId bytes) }
    else p
  else p

/-- Where the mode has been dealt with: `$out`, none after an exception, and
`$alreadyForwarded`. -/
structure Treated where
  proxy : Proxy
  out : Option (List Byte)
  alreadyForwarded : Bool := false
  outs : List Out := []

/-- `if ($Mode -ne 'observe' -and ($isApp -or $Mode -eq 'replay'))`. -/
def treat (cfg : Config) (p : Proxy) (bytes : List Byte) : Treated :=
  if cfg.mode ≠ .observe ∧ (isApp bytes = true ∨ cfg.mode = .replay) then
    if cfg.mode = .replay then
      if !p.changed then
        let p := { p with changed := true }
        { proxy := p
          out := some bytes
          alreadyForwarded := true
          outs := [.toServer bytes,
            .action .replay p.distinctCount p.clientPackets bytes.length] }
      else { proxy := p, out := some bytes }
    else
      let p := { p with qualifyingCount := p.qualifyingCount + 1 }
      let isTarget := cfg.mode = .flood ∨ p.targetId = some (recId bytes)
      if isTarget then
        { proxy := p
          out := mutate cfg.mode bytes
          outs := [.action cfg.mode p.qualifyingCount p.clientPackets bytes.length] }
      else { proxy := p, out := some bytes }
  else { proxy := p, out := some bytes }

/-- `$lossDrop` and what follows. -/
def forward (cfg : Config) (lossDraw : Bool) (t : Treated) : Option Proxy × List Out :=
  match t.out with
  | none => (none, t.outs)
  | some out =>
    let lossDrop := cfg.mode = .loss ∧ lossDraw = true
    if lossDrop ∨ t.alreadyForwarded = true then (some t.proxy, t.outs)
    else (some t.proxy, t.outs ++ [.toServer out])

/-- One turn of the loop. -/
def iterate (cfg : Config) (p : Proxy) (e : Event) : Option Proxy × List Out :=
  match e with
  | .timeout => (some p, [])
  | .received src bytes lossDraw =>
    if src.port = cfg.serverPort then
      let p := { p with serverPackets := p.serverPackets + 1 }
      match p.client with
      | some client => (some p, [.toClient client bytes])
      | none => (some p, [])
    else
      let p := { p with client := some src, clientPackets := p.clientPackets + 1 }
      forward cfg lossDraw (treat cfg (countApp cfg p bytes) bytes)

/-- Nothing happens once the script has ended. -/
def step (cfg : Config) : Option Proxy → Event → Option Proxy × List Out
  | none, _ => (none, [])
  | some p, e => iterate cfg p e

/-! ### What goes in and out -/

/-- The datagrams that the proxy takes for the client's. -/
def clientDatagrams (cfg : Config) (evs : List Event) : List (List Byte) :=
  evs.filterMap fun
    | .timeout => none
    | .received src bytes _ => if src.port = cfg.serverPort then none else some bytes

/-- The datagrams that go to the server. -/
def toServer (outs : List (List Out)) : List (List Byte) :=
  outs.flatten.filterMap fun
    | .toServer bytes => some bytes
    | _ => none

/-- The lines that the matrix counts as `act`. -/
def actions (outs : List (List Out)) : List Out :=
  outs.flatten.filter fun
    | .action _ _ _ _ => true
    | _ => false

/-- The outputs of a run of the script. -/
def outputs (cfg : Config) (evs : List Event) : List (List Out) := (run (step cfg) (some {}) evs).2

theorem clientDatagrams_cons (cfg : Config) (e : Event) (es : List Event) :
    clientDatagrams cfg (e :: es) = clientDatagrams cfg [e] ++ clientDatagrams cfg es := by
  rw [← List.singleton_append, clientDatagrams, List.filterMap_append]
  rfl

theorem toServer_cons (o : List Out) (os : List (List Out)) :
    toServer (o :: os) = toServer [o] ++ toServer os := by
  rw [← List.singleton_append, toServer, List.flatten_append, List.filterMap_append]
  rfl

theorem actions_cons (o : List Out) (os : List (List Out)) :
    actions (o :: os) = actions [o] ++ actions os := by
  rw [← List.singleton_append, actions, List.flatten_append, List.filter_append]
  rfl

theorem clientDatagrams_client {cfg : Config} {src : EndPoint} (h : src.port ≠ cfg.serverPort)
    (bytes : List Byte) (lossDraw : Bool) :
    clientDatagrams cfg [.received src bytes lossDraw] = [bytes] := by
  simp [clientDatagrams, h]

theorem clientDatagrams_single (cfg : Config) (e : Event) :
    clientDatagrams cfg [e] = [] ∨
      ∃ src bytes lossDraw, e = .received src bytes lossDraw ∧ src.port ≠ cfg.serverPort ∧
        clientDatagrams cfg [e] = [bytes] := by
  cases e with
  | timeout => exact Or.inl rfl
  | received src bytes lossDraw =>
      by_cases hport : src.port = cfg.serverPort
      · exact Or.inl (by simp [clientDatagrams, hport])
      · exact Or.inr ⟨src, bytes, lossDraw, rfl, hport, clientDatagrams_client hport _ _⟩

/-- A turn without a client datagram: no counter of the client side changes, and nothing goes
to the server. -/
theorem iterate_other {cfg : Config} (p : Proxy) {e : Event} (h : clientDatagrams cfg [e] = []) :
    ∃ n, (iterate cfg p e).1 = some { p with serverPackets := n } ∧
      toServer [(iterate cfg p e).2] = [] ∧ actions [(iterate cfg p e).2] = [] := by
  cases e with
  | timeout => exact ⟨p.serverPackets, rfl, rfl, rfl⟩
  | received src bytes lossDraw =>
      by_cases hport : src.port = cfg.serverPort
      · refine ⟨p.serverPackets + 1, ?_⟩
        simp only [iterate, if_pos hport]
        cases p.client with
        | none => exact ⟨rfl, rfl, rfl⟩
        | some client => exact ⟨rfl, rfl, rfl⟩
      · rw [clientDatagrams_client hport] at h
        cases h

/-- A turn with a client datagram. -/
theorem iterate_client (cfg : Config) (p : Proxy) {src : EndPoint} (h : src.port ≠ cfg.serverPort)
    (bytes : List Byte) (lossDraw : Bool) :
    iterate cfg p (.received src bytes lossDraw) =
      forward cfg lossDraw (treat cfg (countApp cfg
        { p with client := some src, clientPackets := p.clientPackets + 1 } bytes) bytes) := by
  simp only [iterate, if_neg h]

/-! ### Replay and observe -/

/-- Whether the matrix lets a run of mode replay or observe pass: `$act` actions were logged and
`$echo` echoes came back. -/
def runOnePass (mode : Mode) (act echo : Nat) : Bool :=
  match mode with
  | .observe => decide (act = 0 ∧ echo = 10)
  | .replay => decide (1 ≤ act ∧ echo = 10)
  | _ => decide (1 ≤ act ∧ echo < 10)

/-- The first application record comes twice, behind the first time anywhere, and every other
datagram once and in order. -/
def Replays (ds sent : List (List Byte)) : Prop :=
  (∀ d ∈ ds, isApp d = false) ∧ sent = ds ∨
    ∃ pre d post post', ds = pre ++ d :: (post ++ post') ∧ isApp d = true ∧
      (∀ x ∈ pre, isApp x = false) ∧ sent = pre ++ d :: (post ++ d :: post')

theorem countApp_changed (cfg : Config) (p : Proxy) (bytes : List Byte) :
    (countApp cfg p bytes).changed = p.changed := by
  simp only [countApp]
  split_ifs <;> rfl

/-- A client datagram in mode replay: only the first one takes the branch that sends, and it
turns the forwarding step off. -/
theorem treat_replay {cfg : Config} (hmode : cfg.mode = .replay) (p : Proxy) (bytes : List Byte) :
    treat cfg p bytes =
      if p.changed then { proxy := p, out := some bytes }
      else
        { proxy := { p with changed := true }
          out := some bytes
          alreadyForwarded := true
          outs := [.toServer bytes,
            .action .replay p.distinctCount p.clientPackets bytes.length] } := by
  cases hch : p.changed with
  | false => simp [treat, hmode, hch]
  | true => simp [treat, hmode, hch]

/-- `replay` sends every client datagram as it is, and logs an action for the first one. -/
theorem iterate_replay {cfg : Config} (hmode : cfg.mode = .replay) (p : Proxy) (e : Event) :
    ∃ p', (iterate cfg p e).1 = some p' ∧
      p'.changed = (p.changed || !(clientDatagrams cfg [e]).isEmpty) ∧
      toServer [(iterate cfg p e).2] = clientDatagrams cfg [e] ∧
      (actions [(iterate cfg p e).2]).length =
        if p.changed = false ∧ clientDatagrams cfg [e] ≠ [] then 1 else 0 := by
  rcases clientDatagrams_single cfg e with hc | ⟨src, bytes, lossDraw, rfl, hport, hc⟩
  · obtain ⟨n, hstate, hsent, hacts⟩ := iterate_other p hc
    exact ⟨_, hstate, by simp [hc], by rw [hsent, hc], by simp [hacts, hc]⟩
  · rw [iterate_client cfg p hport, hc, treat_replay hmode, countApp_changed]
    let counted := countApp cfg
      { p with client := some src, clientPackets := p.clientPackets + 1 } bytes
    cases hch : p.changed with
    | false =>
        refine ⟨{ counted with changed := true }, ?_, rfl, ?_, ?_⟩
        · simp [forward, hmode, hch, counted]
        · simp [forward, hmode, toServer]
        · simp [forward, hmode, actions]
    | true =>
        refine ⟨counted, ?_, ?_, ?_, ?_⟩
        · simp [forward, hmode, hch, counted]
        · simp [counted, countApp_changed, hch]
        · simp [forward, hmode, toServer]
        · simp [forward, hmode, actions]

/-- `observe` sends every client datagram as it is. -/
theorem iterate_observe {cfg : Config} (hmode : cfg.mode = .observe) (p : Proxy) (e : Event) :
    ∃ p', (iterate cfg p e).1 = some p' ∧
      toServer [(iterate cfg p e).2] = clientDatagrams cfg [e] := by
  rcases clientDatagrams_single cfg e with hc | ⟨src, bytes, lossDraw, rfl, hport, hc⟩
  · obtain ⟨n, hstate, hsent, -⟩ := iterate_other p hc
    exact ⟨_, hstate, by rw [hsent, hc]⟩
  · rw [iterate_client cfg p hport, hc]
    refine ⟨countApp cfg { p with client := some src, clientPackets := p.clientPackets + 1 } bytes,
      ?_, ?_⟩
    · simp [treat, forward, hmode]
    · simp [treat, forward, hmode, toServer]

/-- A step that hands on what it receives: so does a run. -/
theorem toServer_run {cfg : Config} (h : ∀ p e, ∃ p', (iterate cfg p e).1 = some p' ∧
      toServer [(iterate cfg p e).2] = clientDatagrams cfg [e]) (p : Proxy) (evs : List Event) :
    toServer (run (step cfg) (some p) evs).2 = clientDatagrams cfg evs := by
  induction evs generalizing p with
  | nil => rfl
  | cons e evs ih =>
      obtain ⟨p', hstate, hsent⟩ := h p e
      rw [clientDatagrams_cons, run_cons, step, hstate, toServer_cons, hsent, ih]

/-- In mode replay every client datagram goes to the server once, unmodified and in order. -/
theorem run_replay {cfg : Config} (hmode : cfg.mode = .replay) (evs : List Event) :
    toServer (outputs cfg evs) = clientDatagrams cfg evs := by
  refine toServer_run (fun p e => ?_) {} evs
  obtain ⟨p', hstate, -, hsent, -⟩ := iterate_replay hmode p e
  exact ⟨p', hstate, hsent⟩

theorem run_observe {cfg : Config} (hmode : cfg.mode = .observe) (evs : List Event) :
    toServer (outputs cfg evs) = clientDatagrams cfg evs :=
  toServer_run (iterate_observe hmode) {} evs

/-- One action is logged as soon as there is a client datagram, of whatever kind. -/
theorem run_actions {cfg : Config} (hmode : cfg.mode = .replay) (evs : List Event) :
    (actions (outputs cfg evs)).length = if clientDatagrams cfg evs = [] then 0 else 1 := by
  have aux : ∀ (evs : List Event) (p : Proxy),
      (actions (run (step cfg) (some p) evs).2).length =
        if p.changed = false ∧ clientDatagrams cfg evs ≠ [] then 1 else 0 := by
    intro evs
    induction evs with
    | nil =>
        intro p
        simp [clientDatagrams, actions]
    | cons e evs ih =>
        intro p
        obtain ⟨p', hstate, hchanged, -, hacts⟩ := iterate_replay hmode p e
        rw [clientDatagrams_cons, run_cons, step, hstate, actions_cons, List.length_append, hacts,
          ih, hchanged]
        cases p.changed with
        | true => simp
        | false => cases clientDatagrams cfg [e] <;> simp
  rw [outputs, aux evs {}]
  by_cases h : clientDatagrams cfg evs = []
  · simp [h]
  · simp [h]

/-- So the verdict of a replay run rests on the ten echoes alone: that something was sent again
plays no part in it. -/
theorem runOnePass_replay {cfg : Config} (hmode : cfg.mode = .replay) {evs : List Event}
    (hevs : clientDatagrams cfg evs ≠ []) (echo : Nat) :
    runOnePass .replay (actions (outputs cfg evs)).length echo = decide (echo = 10) := by
  rw [run_actions hmode, if_neg hevs]
  simp [runOnePass]

theorem replays_self {ds : List (List Byte)} : Replays ds ds ↔ ∀ d ∈ ds, isApp d = false := by
  refine ⟨?_, fun h => Or.inl ⟨h, rfl⟩⟩
  rintro (⟨h, -⟩ | ⟨pre, d, post, post', hds, -, -, hsent⟩)
  · exact h
  · have hlen := congrArg List.length (hds.symm.trans hsent)
    simp only [List.length_append, List.length_cons] at hlen
    omega

/-- The first application record is sent again in no run of mode replay: the runs that do as
they should are those that receive none. -/
theorem replays_iff (cfg : Config) (evs : List Event) :
    ((cfg.mode = .replay → Replays (clientDatagrams cfg evs) (toServer (outputs cfg evs))) ∧
      (cfg.mode = .observe → toServer (outputs cfg evs) = clientDatagrams cfg evs)) ↔
      (cfg.mode = .replay → ∀ d ∈ clientDatagrams cfg evs, isApp d = false) := by
  constructor
  · rintro ⟨hreplay, -⟩ hmode
    have hsent := hreplay hmode
    rw [run_replay hmode] at hsent
    exact replays_self.mp hsent
  · intro h
    refine ⟨fun hmode => ?_, fun hmode => run_observe hmode evs⟩
    rw [run_replay hmode]
    exact replays_self.mpr (h hmode)

/-- One application record from the client, in mode replay. -/
theorem not_replayed :
    ¬ ∀ (cfg : Config) (evs : List Event),
      (cfg.mode = .replay → Replays (clientDatagrams cfg evs) (toServer (outputs cfg evs))) ∧
        (cfg.mode = .observe → toServer (outputs cfg evs) = clientDatagrams cfg evs) := by
  intro h
  have hrun := (h ⟨.replay, 11111, 1⟩
    [.received ⟨[127, 0, 0, 1], 50000⟩ [0x2f, 0, 1, 0, 0] false]).1 rfl
  have hsent : toServer (outputs ⟨.replay, 11111, 1⟩
      [.received ⟨[127, 0, 0, 1], 50000⟩ [0x2f, 0, 1, 0, 0] false]) = [[0x2f, 0, 1, 0, 0]] := by
    decide
  have hds : clientDatagrams ⟨.replay, 11111, 1⟩
      [.received ⟨[127, 0, 0, 1], 50000⟩ [0x2f, 0, 1, 0, 0] false] = [[0x2f, 0, 1, 0, 0]] := by
    decide
  rw [hsent, hds] at hrun
  have happ := replays_self.mp hrun [0x2f, 0, 1, 0, 0] (List.mem_singleton_self _)
  exact absurd happ (by decide)

end AsconDtls.Tools
