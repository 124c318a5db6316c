import AsconDtls.Formal.RecordModel

/-!
# What a receiver makes of an honest record

`seq` comes out as it was sent: the mask of the receiver cancels the mask of the
sender.  `data` never does.  The rules write the key as the first argument of
`senc` and of `sdec`, and the equation of the built-in takes the key as the
second: `sdec(ck, senc(ck, data))` does not reduce to `data`.
-/

namespace AsconDtls.Formal.Record

open Symbolic Msg

/-- `ClientSend` or `ServerSend`. -/
def sendStep : Dir → Nat → Keys → Nat → Nat → Step
  | .c2s => .clientSend
  | .s2c => .serverSend

/-- The step that receives in the same direction: `ServerRecv` or `ClientRecv`. -/
def recvStep : Dir → Nat → Keys → Msg → Msg → Msg → Step
  | .c2s => .serverRecv
  | .s2c => .clientRecv

/-- The run `ls` receives, unmodified and under the same keys, a triple that it has sent, and the
fact that comes of it holds `seq'` and `data'`. -/
def Delivery (ls : List Step) (seq data : Nat) (seq' data' : Msg) : Prop :=
  ∃ (d : Dir) (p : Nat) (k : Keys) (mseq ct tag : Msg) (ls₁ ls₂ ls₃ : List Step),
    ls = ls₁ ++ sendStep d p k seq data :: (ls₂ ++ recvStep d p k mseq ct tag :: ls₃) ∧
    Eqv Equation (pair mseq (pair ct tag)) (record k seq data) ∧
    received d k mseq ct = .recv d seq' data'

theorem rule_sendStep (d : Dir) (p : Nat) (k : Keys) (seq data : Nat) :
    (sendStep d p k seq data).rule = send d p k seq data := by
  cases d with
  | c2s => rfl
  | s2c => rfl

theorem pair_inj {a b a' b' : Msg} (h : Eqv Equation (pair a b) (pair a' b')) :
    Eqv Equation a a' ∧ Eqv Equation b b' := by
  refine ⟨?_, ?_⟩
  · exact (Eqv.ax (.fst a b)).symm.trans ((h.un Unary.fst).trans (.ax (.fst a' b')))
  · exact (Eqv.ax (.snd a b)).symm.trans ((h.un Unary.snd).trans (.ax (.snd a' b')))

/-- A mask cancels itself. -/
theorem xor_cancel (a m : Msg) : Eqv Equation (xor (xor a m) m) a :=
  (Eqv.ax (.xorAssoc a m m)).trans
    (((Eqv.refl a).bin Binary.xor (.ax (.xorSelf m))).trans (.ax (.xorZero a)))

/-- The receiver computes the mask of the sender. -/
theorem seq_received {k : Keys} {seq data : Nat} {mseq ct tag : Msg}
    (h : Eqv Equation (pair mseq (pair ct tag)) (record k seq data)) :
    Eqv Equation (xor mseq (maskFn (name k.snk) ct)) (name seq) := by
  obtain ⟨hmseq, hrest⟩ := pair_inj h
  obtain ⟨hct, -⟩ := pair_inj hrest
  exact (hmseq.bin Binary.xor ((Eqv.refl (name k.snk)).bin Binary.maskFn hct)).trans (xor_cancel _ _)

/-- Encryption as the message itself. -/
def plainNumbers : Interp sig Nat := numbers fun m _ => m

theorem plainNumbers_models : plainNumbers.Models Equation := numbers_models fun _ _ => rfl

/-- With the key in the place of the message, decryption gives the key. -/
theorem data_received (k : Keys) {data : Nat} (hne : k.ck ≠ data) (ct : Msg) :
    ¬ Eqv Equation (sdec (name k.ck) ct) (name data) := by
  refine plainNumbers_models.not_eqv (ρ := fun n => if n = data then 1 else 0) ?_
  simp [Interp.eval, plainNumbers, numbers, hne]

/-- The data of a record is drawn after its keys. -/
theorem ck_ne_data {c : State} (hc : Guarded c) {d : Dir} {p : Nat} {k : Keys} {seq data : Nat}
    (h : Enabled Equation c (send d p k seq data)) : k.ck ≠ data := by
  intro heq
  have hkeys : Fact.sendKeys d p k ∈ c.facts := h.premises _ (List.mem_singleton_self _)
  have hused : k.ck ∈ c.used := hc.used _ ⟨_, hkeys, by simp [Fact.names, Keys.names]⟩
  exact h.new data (by simp [send]) (heq ▸ hused)

/-- **In every run each honest delivery keeps `seq` and loses `data`.** -/
theorem delivery_loses_data {ls : List Step} (h : Run ls) {seq data : Nat} {seq' data' : Msg}
    (hd : Delivery ls seq data seq' data') :
    Eqv Equation seq' (name seq) ∧ ¬ Eqv Equation data' (name data) := by
  obtain ⟨d, p, k, mseq, ct, tag, ls₁, ls₂, ls₃, rfl, htriple, hfact⟩ := hd
  obtain ⟨-, hseq, hdata⟩ := Fact.recv.inj hfact
  obtain ⟨hbefore, hsend⟩ := (valid_append _ _ _ _ _).1 h
  have henabled := hsend.1
  rw [rule_sendStep] at henabled
  rw [← hseq, ← hdata]
  exact ⟨seq_received htriple, data_received k (ck_ne_data (guarded_after hbefore) henabled) ct⟩

/-- A handshake, a record, and its delivery. -/
def deliveryRun : List Step :=
  let k : Keys := ⟨1, 2, 3⟩
  let ct := senc (name 1) (name 8)
  [.setup 0 k ⟨4, 5, 6⟩, .clientSend 0 k 7 8,
    .serverRecv 0 k (xor (name 7) (maskFn (name 3) ct)) ct (hmac (name 1) (name 8))]

theorem deliveryRun_run : Run deliveryRun := by
  have hinput : ∀ t ∈ [record ⟨1, 2, 3⟩ 7 8], Derives Equation [record ⟨1, 2, 3⟩ 7 8] t :=
    fun _ => .known
  refine ⟨⟨?_, ?_, ?_, ?_⟩, ⟨?_, ?_, ?_, ?_⟩, ⟨?_, ?_, ?_, hinput⟩, trivial⟩
  all_goals simp [Step.rule, setup, send, receive, Keys.names, Config.fire, Config.init]

theorem deliveryRun_delivers : Delivery deliveryRun 7 8
    (xor (xor (name 7) (maskFn (name 3) (senc (name 1) (name 8))))
      (maskFn (name 3) (senc (name 1) (name 8))))
    (sdec (name 1) (senc (name 1) (name 8))) :=
  ⟨.c2s, 0, ⟨1, 2, 3⟩, _, _, _, [.setup 0 ⟨1, 2, 3⟩ ⟨4, 5, 6⟩], [], [], rfl, .refl _, rfl⟩

theorem delivery_loses_data_example :
    ¬ Eqv Equation (sdec (name 1) (senc (name 1) (name 8))) (name 8) :=
  (delivery_loses_data deliveryRun_run deliveryRun_delivers).2

/-- The run in which the server receives what the client has sent. -/
theorem delivery_fails : ¬ ∀ (ls : List Step) (seq data : Nat) (seq' data' : Msg), Run ls →
    Delivery ls seq data seq' data' →
      Eqv Equation seq' (name seq) ∧ Eqv Equation data' (name data) := by
  intro hall
  exact data_received ⟨1, 2, 3⟩ (by decide) _
    (hall deliveryRun 7 8 _ _ deliveryRun_run deliveryRun_delivers).2

end AsconDtls.Formal.Record
