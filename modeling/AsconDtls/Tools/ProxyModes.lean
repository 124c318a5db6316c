import AsconDtls.Tools.CorruptTags

/-!
# The proxy as a link

In the modes that change no datagram, lose some or corrupt all records, the proxy is a link with
a memory for the client's address only.  `link` says what becomes of one datagram of the client and
`backward` where the datagrams of the server go.

`run_link` is this for every run, in both directions: the loss is one of the client's direction
alone, whatever the script's comment says, and every application datagram of a flood is corrupted
and logged.
-/

namespace AsconDtls.Tools

open LittleEndian
open Run (run run_cons run_nil)

/-! ### The link -/

/-- What a client datagram becomes in modes observe, replay, loss and flood. -/
def link (mode : Mode) (d : List Byte × Bool) : Option (List Byte) :=
  match mode with
  | .loss => if d.2 = true then none else some d.1
  | .flood => if isApp d.1 = true then some (corruptTags d.1) else some d.1
  | _ => some d.1

/-- The client's datagrams with the outcome of the draw. -/
def clientEvents (cfg : Config) (evs : List Event) : List (List Byte × Bool) :=
  evs.filterMap fun
    | .timeout => none
    | .received src bytes lossDraw =>
      if src.port = cfg.serverPort then none else some (bytes, lossDraw)

/-- The server's datagrams with the address of the client that sent last; none before there is
one. -/
def backward (cfg : Config) : Option EndPoint → List Event → List (EndPoint × List Byte)
  | _, [] => []
  | client, .timeout :: evs => backward cfg client evs
  | client, .received src bytes _ :: evs =>
    if src.port = cfg.serverPort then
      match client with
      | some dst => (dst, bytes) :: backward cfg client evs
      | none => backward cfg client evs
    else backward cfg (some src) evs

/-- The datagrams that go to clients. -/
def toClients (outs : List (List Out)) : List (EndPoint × List Byte) :=
  outs.flatten.filterMap fun
    | .toClient dst bytes => some (dst, bytes)
    | _ => none

theorem toClients_cons (o : List Out) (os : List (List Out)) :
    toClients (o :: os) = toClients [o] ++ toClients os := by
  rw [← List.singleton_append, toClients, List.flatten_append, List.filterMap_append]
  rfl

/-! ### One turn -/

/-- A mode without targets. -/
def Mode.IsLink (mode : Mode) : Prop :=
  mode = .observe ∨ mode = .replay ∨ mode = .loss ∨ mode = .flood

theorem countApp_client (cfg : Config) (p : Proxy) (bytes : List Byte) :
    (countApp cfg p bytes).client = p.client := by
  simp only [countApp]
  split_ifs <;> rfl

theorem treat_client (cfg : Config) (p : Proxy) (bytes : List Byte) :
    (treat cfg p bytes).proxy.client = p.client := by
  simp only [treat]
  split_ifs <;> rfl

/-- What the mode has made of a datagram, and the line that it logs in a flood. -/
theorem treat_link {cfg : Config} (hmode : cfg.mode.IsLink) (p : Proxy) (bytes : List Byte) :
    let t := treat cfg p bytes
    t.out = link cfg.mode (bytes, false) ∧
      (t.alreadyForwarded = true → cfg.mode = .replay) ∧
      toServer [t.outs] = (if t.alreadyForwarded = true then [bytes] else []) ∧
      toClients [t.outs] = [] ∧
      (cfg.mode = .flood → (actions [t.outs]).length = if isApp bytes = true then 1 else 0) := by
  rcases hmode with hmode | hmode | hmode | hmode
  · simp [treat, hmode, link, toServer, toClients]
  · rw [treat_replay hmode]
    cases hch : p.changed with
    | false => simp [hmode, link, toServer, toClients]
    | true => simp [hmode, link, toServer, toClients]
  · by_cases happ : isApp bytes = true
    · by_cases htarget : p.targetId = some (recId bytes)
      · simp [treat, hmode, link, happ, htarget, mutate, toServer, toClients]
      · simp [treat, hmode, link, happ, htarget, toServer, toClients]
    · simp [treat, hmode, link, happ, toServer, toClients]
  · by_cases happ : isApp bytes = true
    · simp [treat, hmode, link, happ, mutate, toServer, toClients, actions]
    · simp [treat, hmode, link, happ, toServer, toClients, actions]

/-- The draw takes a datagram away in mode loss, and nowhere else. -/
theorem link_draw (mode : Mode) (bytes : List Byte) (lossDraw : Bool) :
    link mode (bytes, lossDraw) =
      if mode = .loss ∧ lossDraw = true then none else link mode (bytes, false) := by
  cases mode with
  | loss => cases lossDraw <;> simp [link]
  | _ => simp [link]

theorem link_isSome (mode : Mode) (bytes : List Byte) : (link mode (bytes, false)).isSome = true := by
  cases mode with
  | flood =>
    simp only [link]
    split <;> rfl
  | _ => rfl

theorem filterMap_singleton {α β : Type} (f : α → Option β) (x : α) :
    [x].filterMap f = (f x).toList := by
  cases hf : f x with
  | none => simp [hf]
  | some y => simp [hf]

/-- A turn with a client datagram. -/
theorem iterate_link {cfg : Config} (hmode : cfg.mode.IsLink) (p : Proxy) {src : EndPoint}
    (hport : src.port ≠ cfg.serverPort) (bytes : List Byte) (lossDraw : Bool) :
    let r := iterate cfg p (.received src bytes lossDraw)
    (∃ p', r.1 = some p' ∧ p'.client = some src) ∧
      toServer [r.2] = (link cfg.mode (bytes, lossDraw)).toList ∧ toClients [r.2] = [] ∧
      (cfg.mode = .flood → (actions [r.2]).length = if isApp bytes = true then 1 else 0) := by
  intro r
  let counted := countApp cfg
    { p with client := some src, clientPackets := p.clientPackets + 1 } bytes
  let t := treat cfg counted bytes
  have hr : r = forward cfg lossDraw t := iterate_client cfg p hport _ _
  have hclient : t.proxy.client = some src := by
    rw [treat_client, countApp_client]
  obtain ⟨hout, hreplay, hsent, hback, hlog⟩ := treat_link hmode counted bytes
  obtain ⟨out, hsome⟩ := Option.isSome_iff_exists.1 (link_isSome cfg.mode bytes)
  rw [hsome] at hout
  have hfwd : r = if (cfg.mode = .loss ∧ lossDraw = true) ∨ t.alreadyForwarded = true then
      (some t.proxy, t.outs) else (some t.proxy, t.outs ++ [.toServer out]) := by
    rw [hr, forward, show t.out = some out from hout]
  rw [link_draw, hsome]
  by_cases halready : t.alreadyForwarded = true
  · have hmode' := hreplay halready
    have hout' : out = bytes := by
      rw [hmode'] at hsome
      exact (Option.some.inj hsome).symm
    rw [if_pos halready] at hsent
    rw [if_pos (.inr halready)] at hfwd
    rw [hfwd, if_neg (by simp [hmode']), hout']
    exact ⟨⟨_, rfl, hclient⟩, hsent, hback, hlog⟩
  · rw [if_neg halready] at hsent
    by_cases hdrop : cfg.mode = .loss ∧ lossDraw = true
    · rw [if_pos (.inl hdrop)] at hfwd
      rw [hfwd, if_pos hdrop]
      exact ⟨⟨_, rfl, hclient⟩, hsent, hback, hlog⟩
    · rw [if_neg (not_or.2 ⟨hdrop, halready⟩)] at hfwd
      have hsplit : ∀ {β : Type} (f : Out → Option β),
          [t.outs ++ [.toServer out]].flatten.filterMap f =
            [t.outs].flatten.filterMap f ++ (f (.toServer out)).toList := by
        intro β f
        rw [List.flatten_singleton, List.filterMap_append, filterMap_singleton,
          List.flatten_singleton]
      rw [hfwd, if_neg hdrop]
      refine ⟨⟨_, rfl, hclient⟩, ?_, ?_, ?_⟩
      · rw [toServer, hsplit]
        exact congrArg (· ++ [out]) hsent
      · rw [toClients, hsplit]
        exact congrArg (· ++ []) hback
      · intro hflood
        have hsame : actions [t.outs ++ [.toServer out]] = actions [t.outs] := by
          simp [actions]
        rw [hsame]
        exact hlog hflood

/-- A turn with a datagram of the server. -/
theorem iterate_server {cfg : Config} (p : Proxy) {src : EndPoint} (hport : src.port = cfg.serverPort)
    (bytes : List Byte) (lossDraw : Bool) :
    ∃ p', (iterate cfg p (.received src bytes lossDraw)).1 = some p' ∧ p'.client = p.client ∧
      toServer [(iterate cfg p (.received src bytes lossDraw)).2] = [] ∧
      toClients [(iterate cfg p (.received src bytes lossDraw)).2] =
        (p.client.map fun dst => (dst, bytes)).toList ∧
      actions [(iterate cfg p (.received src bytes lossDraw)).2] = [] := by
  refine ⟨{ p with serverPackets := p.serverPackets + 1 }, ?_⟩
  cases hc : p.client with
  | none => simp [iterate, hport, hc, toServer, toClients, actions]
  | some dst => simp [iterate, hport, hc, toServer, toClients, actions]

theorem backward_server {cfg : Config} {src : EndPoint} (hport : src.port = cfg.serverPort)
    (client : Option EndPoint) (bytes : List Byte) (lossDraw : Bool) (evs : List Event) :
    backward cfg client (.received src bytes lossDraw :: evs) =
      (client.map fun dst => (dst, bytes)).toList ++ backward cfg client evs := by
  cases client with
  | none => rw [backward, if_pos hport]; rfl
  | some dst => rw [backward, if_pos hport]; rfl

/-! ### Runs -/

theorem clientEvents_cons (cfg : Config) (e : Event) (es : List Event) :
    clientEvents cfg (e :: es) = clientEvents cfg [e] ++ clientEvents cfg es := by
  rw [← List.singleton_append, clientEvents, List.filterMap_append]
  rfl

/-- From any state of the script that is running. -/
theorem run_link_from {cfg : Config} (hmode : cfg.mode.IsLink) (evs : List Event) (p : Proxy) :
    let r := run (step cfg) (some p) evs
    r.1.isSome = true ∧ toServer r.2 = (clientEvents cfg evs).filterMap (link cfg.mode) ∧
      toClients r.2 = backward cfg p.client evs ∧
      (cfg.mode = .flood → (actions r.2).length = (clientDatagrams cfg evs).countP isApp) := by
  induction evs generalizing p with
  | nil => exact ⟨rfl, rfl, rfl, fun _ => rfl⟩
  | cons e evs ih =>
    cases e with
    | timeout => exact ih p
    | received src bytes lossDraw =>
      by_cases hport : src.port = cfg.serverPort
      · have hserver : clientEvents cfg (.received src bytes lossDraw :: evs) =
              clientEvents cfg evs := by
          simp [clientEvents, hport]
        have hds : clientDatagrams cfg (.received src bytes lossDraw :: evs) =
              clientDatagrams cfg evs := by
          simp [clientDatagrams, hport]
        obtain ⟨p', hstate, hclient, hsent, hback, hlog⟩ :=
          iterate_server p hport bytes lossDraw
        obtain ⟨halive', hsent', hback', hlog'⟩ := ih p'
        simp only [run_cons, step, hstate, hserver, hds, backward_server hport]
        refine ⟨halive', ?_, ?_, ?_⟩
        · rw [toServer_cons, hsent, hsent', List.nil_append]
        · rw [toClients_cons, hback, hback', hclient]
        · intro hflood
          rw [actions_cons, hlog, List.nil_append, hlog' hflood]
      · obtain ⟨⟨p', hstate, hclient⟩, hsent, hback, hlog⟩ :=
          iterate_link hmode p hport bytes lossDraw
        obtain ⟨halive', hsent', hback', hlog'⟩ := ih p'
        have hevent : clientEvents cfg [.received src bytes lossDraw] = [(bytes, lossDraw)] := by
          simp [clientEvents, hport]
        rw [clientEvents_cons, hevent, clientDatagrams_cons,
          clientDatagrams_client hport bytes lossDraw]
        simp only [run_cons, step, hstate, backward, if_neg hport]
        refine ⟨halive', ?_, ?_, ?_⟩
        · rw [toServer_cons, hsent, hsent', List.filterMap_append, ← filterMap_singleton]
        · rw [toClients_cons, hback, hback', hclient, List.nil_append]
        · intro hflood
          rw [actions_cons, List.length_append, hlog hflood, hlog' hflood, List.countP_append,
            List.countP_singleton]

/-- **The proxy is a link.**  In modes observe, replay, loss and flood the script never ends, and
over every run the server gets the client's datagrams in order, each as `link` has it; every datagram
of the server goes unchanged to the client that sent last; and a flood logs one action for each
application datagram. -/
theorem run_link {cfg : Config} (hmode : cfg.mode.IsLink) (evs : List Event) :
    (run (step cfg) (some {}) evs).1.isSome = true ∧
      toServer (outputs cfg evs) = (clientEvents cfg evs).filterMap (link cfg.mode) ∧
      toClients (outputs cfg evs) = backward cfg none evs ∧
      (cfg.mode = .flood → (actions (outputs cfg evs)).length =
        (clientDatagrams cfg evs).countP isApp) :=
  run_link_from hmode evs {}

/-- Two datagrams of a client, the second lost, and an answer. -/
theorem run_link_loss :
    let cfg : Config := ⟨.loss, 11111, 1⟩
    let client : EndPoint := ⟨[127, 0, 0, 1], 50000⟩
    let evs : List Event := [.received client [0x16] false, .received client [0x2f] true,
      .received ⟨[127, 0, 0, 1], 11111⟩ [1] true]
    (run (step cfg) (some {}) evs).1.isSome = true ∧ toServer (outputs cfg evs) = [[0x16]] ∧
      toClients (outputs cfg evs) = [(client, [1])] := by
  intro cfg client evs
  obtain ⟨halive, hsent, hback, -⟩ := run_link (Or.inr (Or.inr (Or.inl rfl)) : cfg.mode.IsLink) evs
  exact ⟨halive, hsent, hback⟩

end AsconDtls.Tools
