import AsconDtls.Lib.Symbolic
import Mathlib.Data.Nat.Pairing

/-!
# The symbolic record layer of `dtls13-ascon-record.spthy`

The rules of the theory `DTLS13AsconRecord` over the built-in symmetric
encryption, pairs and XOR.  A run is a list of rule instances and of names that
the attacker draws.

`secrecy` is by two valuations of the names in the natural numbers: every name
that a rule has put into a fact stands for `0` in the one and for `1` in the
other.  The two give every record on the wire the same value.
-/

namespace AsconDtls.Formal.Record

open Symbolic

section Code

inductive Nullary
  | zero
  | pub (n : Nat)

inductive Unary
  | fst
  | snd

inductive Binary
  | pair
  | xor
  | senc
  | sdec
  | hmac
  | maskFn

abbrev sig : Sig := ⟨Nullary, Unary, Binary⟩

abbrev Msg := Term sig

namespace Msg

abbrev name (n : Nat) : Msg := Term.name n
abbrev zero : Msg := Term.const .zero
abbrev fst (a : Msg) : Msg := Term.un .fst a
abbrev snd (a : Msg) : Msg := Term.un .snd a
abbrev pair (a b : Msg) : Msg := Term.bin .pair a b
abbrev xor (a b : Msg) : Msg := Term.bin .xor a b
abbrev senc (m k : Msg) : Msg := Term.bin .senc m k
abbrev sdec (c k : Msg) : Msg := Term.bin .sdec c k
abbrev hmac (a b : Msg) : Msg := Term.bin .hmac a b
abbrev maskFn (a b : Msg) : Msg := Term.bin .maskFn a b

end Msg

open Msg

/-- The equations of the built-ins. -/
inductive Equation : Msg → Msg → Prop
  | fst (a b : Msg) : Equation (fst (pair a b)) a
  | snd (a b : Msg) : Equation (snd (pair a b)) b
  | sdec (m k : Msg) : Equation (sdec (senc m k) k) m
  | xorAssoc (a b c : Msg) : Equation (xor (xor a b) c) (xor a (xor b c))
  | xorComm (a b : Msg) : Equation (xor a b) (xor b a)
  | xorZero (a : Msg) : Equation (xor a zero) a
  | xorSelf (a : Msg) : Equation (xor a a) zero

/-- The keys of one direction. -/
structure Keys where
  ck : Nat
  iv : Nat
  snk : Nat
deriving DecidableEq

def Keys.names (k : Keys) : List Nat := [k.ck, k.iv, k.snk]

/-- The direction of a record, from the client or from the server. -/
inductive Dir
  | c2s
  | s2c
deriving DecidableEq

/-- The facts.  `sendKeys .c2s` is `!SendKeys_C` and `recvKeys .c2s` is `!RecvKeys_S`; `recv .c2s`
is `RecvC`. -/
inductive Fact
  | psk (p : Nat)
  | sendKeys (d : Dir) (p : Nat) (k : Keys)
  | recvKeys (d : Dir) (p : Nat) (k : Keys)
  | sent (d : Dir) (seq data : Nat)
  | recv (d : Dir) (seq data : Msg)

/-- `Setup`. -/
def setup (p : Nat) (kc ks : Keys) : Rule sig Fact where
  fresh := p :: kc.names ++ ks.names
  premises := []
  inputs := []
  conclusions := [.psk p, .sendKeys .c2s p kc, .recvKeys .c2s p kc, .sendKeys .s2c p ks,
    .recvKeys .s2c p ks]
  outputs := []

/-- The record `< mseq, ct, tag >`. -/
def record (k : Keys) (seq data : Nat) : Msg :=
  let ct := senc (name k.ck) (name data)
  let tag := hmac (name k.ck) (name data)
  let mask := maskFn (name k.snk) ct
  let mseq := xor (name seq) mask
  pair mseq (pair ct tag)

/-- A send rule. -/
def send (d : Dir) (p : Nat) (k : Keys) (seq data : Nat) : Rule sig Fact where
  fresh := [seq, data]
  premises := [.sendKeys d p k]
  inputs := []
  conclusions := [.sent d seq data]
  outputs := [record k seq data]

/-- The fact of a received record. -/
def received (d : Dir) (k : Keys) (mseq ct : Msg) : Fact :=
  let mask := maskFn (name k.snk) ct
  let seq := xor mseq mask
  let data := sdec (name k.ck) ct
  .recv d seq data

/-- A receive rule. -/
def receive (d : Dir) (p : Nat) (k : Keys) (mseq ct tag : Msg) : Rule sig Fact where
  fresh := []
  premises := [.recvKeys d p k]
  inputs := [pair mseq (pair ct tag)]
  conclusions := [received d k mseq ct]
  outputs := []

/-- `KeyUpdate`. -/
def keyUpdate (p : Nat) (k k2 : Keys) : Rule sig Fact where
  fresh := k2.names
  premises := [.sendKeys .c2s p k]
  inputs := []
  conclusions := [.sendKeys .c2s p k2, .recvKeys .c2s p k2]
  outputs := []

/-- The attacker draws a name. -/
def nonce (n : Nat) : Rule sig Fact where
  fresh := [n]
  premises := []
  inputs := []
  conclusions := []
  outputs := [name n]

inductive Step
  | setup (p : Nat) (kc ks : Keys)
  | clientSend (p : Nat) (k : Keys) (seq data : Nat)
  | serverSend (p : Nat) (k : Keys) (seq data : Nat)
  | serverRecv (p : Nat) (k : Keys) (mseq ct tag : Msg)
  | clientRecv (p : Nat) (k : Keys) (mseq ct tag : Msg)
  | keyUpdate (p : Nat) (k k2 : Keys)
  | nonce (n : Nat)

def Step.rule : Step → Rule sig Fact
  | setup p kc ks => Record.setup p kc ks
  | clientSend p k seq data => send .c2s p k seq data
  | serverSend p k seq data => send .s2c p k seq data
  | serverRecv p k mseq ct tag => receive .c2s p k mseq ct tag
  | clientRecv p k mseq ct tag => receive .s2c p k mseq ct tag
  | keyUpdate p k k2 => Record.keyUpdate p k k2
  | nonce n => Record.nonce n

abbrev State := Config sig Fact

/-- The state after a run from the start. -/
abbrev after (ls : List Step) : State := exec Step.rule .init ls

abbrev Run (ls : List Step) : Prop := Valid Equation Step.rule .init ls

end Code

open Msg

/-! ### The names in the facts -/

/-- The names that a fact keeps: a PSK, the keys, sent data and sequence numbers. -/
def Fact.names : Fact → List Nat
  | psk p => [p]
  | sendKeys _ p k => p :: k.names
  | recvKeys _ p k => p :: k.names
  | sent _ seq data => [seq, data]
  | recv _ _ _ => []

/-- A name that some rule has put into a fact. -/
def Secret (c : State) (n : Nat) : Prop := ∃ f ∈ c.facts, n ∈ f.names

/-- A record all of whose names are in facts. -/
def OnWire (c : State) (t : Msg) : Prop := ∃ k seq data, t = record k seq data ∧
  Secret c k.ck ∧ Secret c k.snk ∧ Secret c seq ∧ Secret c data

theorem Secret.fire {c : State} {n : Nat} (h : Secret c n) (r : Rule sig Fact) :
    Secret (c.fire r) n := by
  obtain ⟨f, hf, hn⟩ := h
  exact ⟨f, List.mem_append_right _ hf, hn⟩

theorem OnWire.fire {c : State} {t : Msg} (h : OnWire c t) (r : Rule sig Fact) :
    OnWire (c.fire r) t := by
  obtain ⟨k, seq, data, ht, hck, hsnk, hseq, hdata⟩ := h
  exact ⟨k, seq, data, ht, hck.fire r, hsnk.fire r, hseq.fire r, hdata.fire r⟩

theorem names_send {d : Dir} {p : Nat} {k : Keys} {seq data : Nat} {f : Fact} {n : Nat}
    (hf : f ∈ (send d p k seq data).conclusions) (hn : n ∈ f.names) :
    n ∈ (send d p k seq data).fresh := by
  rw [List.mem_singleton.1 hf] at hn
  exact hn

theorem names_receive {d : Dir} {p : Nat} {k : Keys} {mseq ct tag : Msg} {f : Fact} {n : Nat}
    (hf : f ∈ (receive d p k mseq ct tag).conclusions) : n ∉ f.names := by
  rw [List.mem_singleton.1 hf]
  exact List.not_mem_nil

/-- A rule puts fresh names and names of its premises into facts. -/
theorem names_conclusions (l : Step) {f : Fact} (hf : f ∈ l.rule.conclusions) {n : Nat}
    (hn : n ∈ f.names) : n ∈ l.rule.fresh ∨ ∃ g ∈ l.rule.premises, n ∈ g.names := by
  cases l with
  | setup p kc ks =>
    left
    simp only [Step.rule, setup, List.mem_cons, List.not_mem_nil, or_false] at hf
    rcases hf with rfl | rfl | rfl | rfl | rfl
    all_goals
      simp only [Fact.names, List.mem_cons, List.not_mem_nil, or_false] at hn
      simp only [Step.rule, setup, List.mem_cons, List.mem_append, List.cons_append]
      tauto
  | clientSend p k seq data => exact .inl (names_send hf hn)
  | serverSend p k seq data => exact .inl (names_send hf hn)
  | serverRecv p k mseq ct tag => exact absurd hn (names_receive hf)
  | clientRecv p k mseq ct tag => exact absurd hn (names_receive hf)
  | keyUpdate p k k2 =>
    have hn : n ∈ p :: k2.names := by
      simp only [Step.rule, keyUpdate, List.mem_cons, List.not_mem_nil, or_false] at hf
      rcases hf with rfl | rfl
      · exact hn
      · exact hn
    rcases List.mem_cons.1 hn with rfl | hn
    · exact .inr ⟨_, List.mem_singleton_self _, List.mem_cons_self⟩
    · exact .inl hn
  | nonce n => exact absurd hf List.not_mem_nil

/-- The names in facts are drawn, and what is on the wire is records and names of the attacker. -/
structure Guarded (c : State) : Prop where
  used : ∀ n, Secret c n → n ∈ c.used
  known : ∀ t ∈ c.known, (∃ n ∈ c.used, t = name n ∧ ¬ Secret c n) ∨ OnWire c t

theorem guarded_init : Guarded .init where
  used n h := by
    obtain ⟨f, hf, -⟩ := h
    exact absurd hf List.not_mem_nil
  known t ht := absurd ht List.not_mem_nil

variable {c : State} {l : Step}

/-- A name of a fact after a step is drawn in it or was in a fact before. -/
theorem secret_fire {n : Nat} (hl : Enabled Equation c l.rule) (hn : Secret (c.fire l.rule) n) :
    n ∈ l.rule.fresh ∨ Secret c n := by
  obtain ⟨f, hf, hfn⟩ := hn
  rcases List.mem_append.1 hf with hf | hf
  · rcases names_conclusions l hf hfn with hfresh | ⟨g, hg, hgn⟩
    · exact .inl hfresh
    · exact .inr ⟨g, hl.premises g hg, hgn⟩
  · exact .inr ⟨f, hf, hfn⟩

theorem send_onWire {d : Dir} {p : Nat} {k : Keys} {seq data : Nat}
    (hl : Enabled Equation c (send d p k seq data)) :
    OnWire (c.fire (send d p k seq data)) (record k seq data) := by
  have hkeys : Fact.sendKeys d p k ∈ c.facts := hl.premises _ (List.mem_singleton_self _)
  have hck : Secret c k.ck := ⟨_, hkeys, by simp [Fact.names, Keys.names]⟩
  have hsnk : Secret c k.snk := ⟨_, hkeys, by simp [Fact.names, Keys.names]⟩
  have hsent : Fact.sent d seq data ∈ (c.fire (send d p k seq data)).facts := List.mem_cons_self
  exact ⟨k, seq, data, rfl, hck.fire _, hsnk.fire _, ⟨_, hsent, List.mem_cons_self⟩,
    ⟨_, hsent, by simp [Fact.names]⟩⟩

theorem Guarded.fire (hc : Guarded c) (hl : Enabled Equation c l.rule) :
    Guarded (c.fire l.rule) where
  used n hn := by
    rcases secret_fire hl hn with hfresh | hold
    · exact List.mem_append_left _ hfresh
    · exact List.mem_append_right _ (hc.used n hold)
  known t ht := by
    have hold : t ∈ c.known →
        (∃ n ∈ (c.fire l.rule).used, t = name n ∧ ¬ Secret (c.fire l.rule) n) ∨
          OnWire (c.fire l.rule) t := by
      intro ht
      rcases hc.known t ht with ⟨n, hn, rfl, hsecret⟩ | hwire
      · refine .inl ⟨n, List.mem_append_right _ hn, rfl, ?_⟩
        intro hnew
        rcases secret_fire hl hnew with hfresh | h
        · exact hl.new n hfresh hn
        · exact hsecret h
      · exact .inr (hwire.fire _)
    rcases List.mem_append.1 ht with hout | hknown
    · cases l with
      | setup p kc ks => exact absurd hout List.not_mem_nil
      | clientSend p k seq data =>
        rw [List.mem_singleton.1 hout]
        exact .inr (send_onWire hl)
      | serverSend p k seq data =>
        rw [List.mem_singleton.1 hout]
        exact .inr (send_onWire hl)
      | serverRecv p k mseq ct tag => exact absurd hout List.not_mem_nil
      | clientRecv p k mseq ct tag => exact absurd hout List.not_mem_nil
      | keyUpdate p k k2 => exact absurd hout List.not_mem_nil
      | nonce n =>
        refine .inl ⟨n, List.mem_cons_self, List.mem_singleton.1 hout, ?_⟩
        -- the name is new, so it is in no fact, and the attacker's step adds none
        exact fun h => hl.new n (List.mem_singleton_self n) (hc.used n h)
    · exact hold hknown

theorem guarded_after {ls : List Step} (h : Run ls) : Guarded (after ls) :=
  h.invariant (fun _ _ hc hl => hc.fire hl) guarded_init

/-! ### Secrecy -/

/-- Terms as numbers: `op` encrypts and decrypts, of a mask the key is left. -/
def numbers (op : Nat → Nat → Nat) : Interp sig Nat where
  const
    | .zero => 0
    | .pub n => n
  un
    | .fst, a => a.unpair.1
    | .snd, a => a.unpair.2
  bin
    | .pair, a, b => Nat.pair a b
    | .xor, a, b => a ^^^ b
    | .senc, m, k => op m k
    | .sdec, c, k => op c k
    | .hmac, _, _ => 0
    | .maskFn, a, _ => a

theorem numbers_models {op : Nat → Nat → Nat} (hop : ∀ m k, op (op m k) k = m) :
    (numbers op).Models Equation := by
  intro ρ s t h
  cases h with
  | fst a b => simp [Interp.eval, numbers]
  | snd a b => simp [Interp.eval, numbers]
  | sdec m k => simp [Interp.eval, numbers, hop]
  | xorAssoc a b c => simp [Interp.eval, numbers, Nat.xor_assoc]
  | xorComm a b => simp [Interp.eval, numbers, Nat.xor_comm]
  | xorZero a => simp [Interp.eval, numbers]
  | xorSelf a => simp [Interp.eval, numbers]

/-- Encryption as XOR with the key. -/
def xorNumbers : Interp sig Nat := numbers (· ^^^ ·)

theorem xorNumbers_models : xorNumbers.Models Equation :=
  numbers_models fun m k => by rw [Nat.xor_assoc, Nat.xor_self, Nat.xor_zero]

/-- A record of equal names shows nothing of them. -/
theorem eval_record {ρ : Nat → Nat} {k : Keys} {seq data v : Nat} (hck : ρ k.ck = v)
    (hsnk : ρ k.snk = v) (hseq : ρ seq = v) (hdata : ρ data = v) :
    xorNumbers.eval ρ (record k seq data) = Nat.pair 0 (Nat.pair 0 0) := by
  simp [record, Interp.eval, xorNumbers, numbers, hck, hsnk, hseq, hdata]

open Classical in
/-- The names in facts as one, the other names as zero. -/
noncomputable def marked (c : State) (n : Nat) : Nat := if Secret c n then 1 else 0

theorem Guarded.not_derives {c : State} (hc : Guarded c) {n : Nat} (hn : Secret c n) :
    ¬ Derives Equation c.known (name n) := by
  have hone : ∀ m, Secret c m → marked c m = 1 := fun m hm => if_pos hm
  have hknown : ∀ t ∈ c.known, xorNumbers.eval (fun _ => 0) t = xorNumbers.eval (marked c) t := by
    intro t ht
    rcases hc.known t ht with ⟨m, -, rfl, hm⟩ | ⟨k, seq, data, rfl, hck, hsnk, hseq, hdata⟩
    · simp [Interp.eval, marked, hm]
    · rw [eval_record (v := 0) rfl rfl rfl rfl,
        eval_record (hone _ hck) (hone _ hsnk) (hone _ hseq) (hone _ hdata)]
  refine xorNumbers_models.not_derives hknown ?_
  simp [Interp.eval, hone n hn]

/-- **Symbolic secrecy.**  A PSK, a key, a sequence number or data that is in a fact at some point
of a run is derived at none. -/
theorem secrecy {ls : List Step} (h : Run ls) {i j : List Step} (hi : i <+: ls) (hj : j <+: ls)
    {n : Nat} (hn : Secret (after i) n) : ¬ Derives Equation (after j).known (name n) := by
  obtain ⟨i', rfl⟩ := hi
  obtain ⟨j', hj'⟩ := hj
  have hsecret : Secret (after (i ++ i')) n := by
    obtain ⟨f, hf, hfn⟩ := hn
    refine ⟨f, ?_, hfn⟩
    rw [after, exec_append]
    exact facts_subset_exec _ i' hf
  intro hderives
  refine (guarded_after h).not_derives hsecret (hderives.mono ?_)
  rw [← hj', after, after, exec_append]
  exact known_subset_exec _ j'

/-- A handshake, a record, and the data in it. -/
theorem secrecy_example :
    let k : Keys := ⟨1, 2, 3⟩
    let ls : List Step := [.setup 0 k ⟨4, 5, 6⟩, .nonce 9, .clientSend 0 k 7 8]
    Run ls ∧ Secret (after ls) 8 ∧ ¬ Derives Equation (after ls).known (name 8) := by
  intro k ls
  have hrun : Run ls := by
    refine ⟨⟨?_, ?_, ?_, ?_⟩, ⟨?_, ?_, ?_, ?_⟩, ⟨?_, ?_, ?_, ?_⟩, trivial⟩
    all_goals simp [k, Step.rule, setup, nonce, send, Keys.names, Config.fire, Config.init]
  have hsecret : Secret (after ls) 8 := ⟨.sent .c2s 7 8, by
    simp [ls, after, exec, Config.fire, Step.rule, send], by simp [Fact.names]⟩
  exact ⟨hrun, hsecret, secrecy hrun List.prefix_rfl List.prefix_rfl hsecret⟩

end AsconDtls.Formal.Record
