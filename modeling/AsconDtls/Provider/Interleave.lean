import AsconDtls.Provider.Chunking

/-!
# Associated data among the data

An encryption whose updates come in any order.  Nothing but `adDone` tells
`absorbAad` that the data have begun, and it does not look: an update with
associated data always returns 1, and once there are data the bytes go into the
buffer, or into the state, behind the domain separation.

`aad_authenticated` says which orders keep what they should: the run with all
associated data first, in one update.  They are the orders without late
associated data whose calls leave nothing behind the data in the buffer
(`Provider.Chunking`).
-/

namespace AsconDtls.Provider

open LittleEndian
open Duplex (Machine)
open Run (run run_append run_cons run_nil)

/-! ### The updates of a record -/

/-- An update of a record: `inl > 0` with a null output, or data with a large
enough output. -/
inductive Piece
  | aad (ad : List Byte) (inl : ad ≠ [])
  | data (inp : List Byte) (outsize : Nat) (room : inp.length ≤ outsize)

def Piece.call : Piece → Call
  | .aad ad _ => .update none ad
  | .data inp outsize _ => .update (some outsize) inp

/-- The associated data, update by update. -/
def aadOf : List Piece → List (List Byte)
  | [] => []
  | .aad ad _ :: ps => ad :: aadOf ps
  | .data _ _ _ :: ps => aadOf ps

/-- All the data. -/
def dataOf : List Piece → List Byte
  | [] => []
  | .aad _ _ :: ps => dataOf ps
  | .data inp _ _ :: ps => inp ++ dataOf ps

def afterPieces (a : Ctx) (ps : List Piece) : Ctx := (run step a (ps.map Piece.call)).1

/-- What the updates write. -/
def ciphertext (a : Ctx) (ps : List Piece) : List Byte :=
  ((run step a (ps.map Piece.call)).2.map Reply.out).flatten

/-- The context after `final`. -/
def closed (a : Ctx) (ps : List Piece) : Ctx := (step (afterPieces a ps) .final).1

/-- All associated data in one update, then all data in one. -/
def canonical (ps : List Piece) : List Piece :=
  (if h : (aadOf ps).flatten = [] then [] else [.aad (aadOf ps).flatten h]) ++
    [.data (dataOf ps) (dataOf ps).length (Nat.le_refl _)]

/-- Associated data after data. -/
def LateAad (pre : List Piece) : Prop := dataOf pre ≠ []

/-- Some update with associated data comes after data. -/
def HasLateAad (ps : List Piece) : Prop :=
  ∃ pre ad inl post, ps = pre ++ .aad ad inl :: post ∧ LateAad pre

/-- No associated data are lost: a late update is refused and leaves the context
alone, and the record is the one with all associated data first. -/
structure Authenticated (a : Ctx) (ps : List Piece) : Prop where
  late : ∀ pre ad inl post, ps = pre ++ .aad ad inl :: post → LateAad pre →
    (step (afterPieces a pre) (.update none ad)).2.ret = 0 ∧
      (step (afterPieces a pre) (.update none ad)).1 = afterPieces a pre
  ciphertext : ciphertext a ps = Provider.ciphertext a (canonical ps)
  tag : (closed a ps).tag = (closed a (canonical ps)).tag
  /-- The whole of the sponge that the tag is read from. -/
  sponge : (closed a ps).s = (closed a (canonical ps)).s

/-! ### The run without late associated data -/

variable {a x : Ctx} {key tag : BitVec 128} {c : AsconState × Nat}

theorem update_room {inp : List Byte} {outsize : Nat} (h : inp.length ≤ outsize) (x : Ctx) :
    step x (.update (some outsize) inp) = step x (.update (some inp.length) inp) := by
  simp only [step, update]
  rw [if_neg (by omega : ¬ outsize < inp.length), if_neg (Nat.lt_irrefl _)]

theorem step_aad {ad : List Byte} (h : ad ≠ []) (x : Ctx) :
    step x (.update none ad) = (absorbAad .ascon x ad, .wrote [] 0) :=
  if_neg fun h0 => h (List.eq_nil_of_length_eq_zero h0)

theorem afterPieces_cons (x : Ctx) (p : Piece) (ps : List Piece) :
    afterPieces x (p :: ps) = afterPieces (step x p.call).1 ps := rfl

theorem ciphertext_cons (x : Ctx) (p : Piece) (ps : List Piece) :
    ciphertext x (p :: ps) = (step x p.call).2.out ++ ciphertext (step x p.call).1 ps := rfl

/-- Data only. -/
theorem began_of_ready (h : Ready x key true tag c) (hc : c.2 < 16) {ps : List Piece}
    (hps : aadOf ps = []) :
    Ready (afterPieces x ps) key true tag (encryptMachine.feed c (dataOf ps)).1 ∧
      ciphertext x ps = (encryptMachine.feed c (dataOf ps)).2 := by
  induction ps generalizing x c with
  | nil => exact ⟨h, rfl⟩
  | cons p ps ih =>
      cases p with
      | aad ad inl => cases hps
      | data inp outsize room =>
          obtain ⟨hready, hreply⟩ := update_ready h hc inp
          have hlt : (encryptMachine.feed c inp).1.2 < 16 := encryptMachine.feed_lt hc inp
          obtain ⟨hready', hout⟩ := ih hready hlt hps
          have hstep : step x (Piece.data inp outsize room).call =
              step x (.update (some inp.length) inp) := update_room room x
          rw [afterPieces_cons, ciphertext_cons, hstep, dataOf, encryptMachine.feed_append]
          refine ⟨hready', ?_⟩
          rw [hout, hreply]
          rfl

theorem aadFinalize_adDone {σ : Type} (ops : StateOps σ) (a : AsconAead128Ctx σ) :
    (aadFinalize ops a).adDone = true := by
  by_cases h : a.adDone
  · rw [aadFinalize_done ops h, h]
  · rw [aadFinalize_open ops (Bool.eq_false_iff.mpr h)]

/-- A context that an encryption starts from. -/
structure Opened (a : Ctx) : Prop where
  cleared : Cleared a
  lastBlkSz : a.lastBlkSz = 0
  enc : a.enc = true

/-- The sponge that the data meet after the associated data `ads`. -/
def dataStart (a : Ctx) (ads : List (List Byte)) : AsconState :=
  closedState .ascon (keyed .ascon a).s ads.flatten (staleBlock ads)

/-- After associated data the data can start. -/
theorem ready_foldl (h : Opened a) (ads : List (List Byte)) :
    Ready (ads.foldl (absorbAad .ascon) a) a.key true a.tag (dataStart a ads, 0) := by
  have hfields : (ads.foldl (absorbAad .ascon) a).lastBlkSz = a.lastBlkSz ∧
      (ads.foldl (absorbAad .ascon) a).key = a.key ∧
      (ads.foldl (absorbAad .ascon) a).enc = a.enc ∧
      (ads.foldl (absorbAad .ascon) a).tag = a.tag := by
    by_cases hne : ads = []
    · subst hne
      exact ⟨rfl, rfl, rfl, rfl⟩
    · rw [foldl_absorbAad .ascon h.cleared hne]
      exact ⟨rfl, rfl, rfl, rfl⟩
  obtain ⟨hsz, hkey, henc, htag⟩ := hfields
  refine ⟨aadFinalize_foldl .ascon h.cleared ads, ?_, ?_, ?_, ?_, aadFinalize_adDone _ _⟩
  · rw [aadFinalize_lastBlkSz, hsz, h.lastBlkSz]
  · rw [aadFinalize_key, hkey]
  · rw [aadFinalize_enc, henc, h.enc]
  · rw [aadFinalize_tag, htag]

/-! ### Late associated data in a list of updates -/

theorem HasLateAad.cons {p : Piece} {ps : List Piece} (h : HasLateAad ps) :
    HasLateAad (p :: ps) := by
  obtain ⟨pre, ad, inl, post, rfl, hlate⟩ := h
  refine ⟨p :: pre, ad, inl, post, rfl, ?_⟩
  cases p with
  | aad ad inl => exact hlate
  | data inp outsize room =>
      intro hnil
      exact hlate (List.append_eq_nil_iff.mp hnil).2

theorem exists_aad {ps : List Piece} (h : aadOf ps ≠ []) :
    ∃ pre ad inl post, ps = pre ++ .aad ad inl :: post := by
  induction ps with
  | nil => exact absurd rfl h
  | cons p ps ih =>
      cases p with
      | aad ad inl => exact ⟨[], ad, inl, ps, rfl⟩
      | data inp outsize room =>
          obtain ⟨pre, ad, inl, post, rfl⟩ := ih h
          exact ⟨.data inp outsize room :: pre, ad, inl, post, rfl⟩

/-- Behind the first data there are data only. -/
theorem aadOf_eq_nil {inp : List Byte} {outsize : Nat} {room : inp.length ≤ outsize}
    {ps : List Piece} (hps : ¬ HasLateAad (.data inp outsize room :: ps)) (hinp : inp ≠ []) :
    aadOf ps = [] := by
  by_contra hne
  obtain ⟨pre, ad, inl, post, rfl⟩ := exists_aad hne
  refine hps ⟨.data inp outsize room :: pre, ad, inl, post, rfl, ?_⟩
  intro hnil
  exact hinp (List.append_eq_nil_iff.mp hnil).1

theorem aadOf_append (ps qs : List Piece) : aadOf (ps ++ qs) = aadOf ps ++ aadOf qs := by
  induction ps with
  | nil => rfl
  | cons p ps ih =>
      cases p with
      | aad ad inl => rw [List.cons_append, aadOf, ih, aadOf, List.cons_append]
      | data inp outsize room => rw [List.cons_append, aadOf, ih, aadOf]

theorem dataOf_append (ps qs : List Piece) : dataOf (ps ++ qs) = dataOf ps ++ dataOf qs := by
  induction ps with
  | nil => rfl
  | cons p ps ih =>
      cases p with
      | aad ad inl => rw [List.cons_append, dataOf, ih, dataOf]
      | data inp outsize room => rw [List.cons_append, dataOf, ih, dataOf, List.append_assoc]

/-- Associated data first. -/
theorem not_hasLateAad_append {ps qs : List Piece} (hps : dataOf ps = []) (hqs : aadOf qs = []) :
    ¬ HasLateAad (ps ++ qs) := by
  rintro ⟨pre, ad, inl, post, hsplit, hlate⟩
  rcases List.append_eq_append_iff.mp hsplit with ⟨t, -, ht⟩ | ⟨t, ht, -⟩
  · rw [ht, aadOf_append, List.append_eq_nil_iff] at hqs
    exact List.cons_ne_nil _ _ hqs.2
  · rw [ht, dataOf_append, List.append_eq_nil_iff] at hps
    exact hlate hps.1

/-- **The run of an order without late associated data.** -/
theorem run_pieces (h : Opened a) (ads : List (List Byte)) {ps : List Piece}
    (hps : ¬ HasLateAad ps) :
    let x := ads.foldl (absorbAad .ascon) a
    let c := (dataStart a (ads ++ aadOf ps), 0)
    Ready (afterPieces x ps) a.key true a.tag (encryptMachine.feed c (dataOf ps)).1 ∧
      ciphertext x ps = (encryptMachine.feed c (dataOf ps)).2 := by
  induction ps generalizing ads with
  | nil =>
      intro x c
      have hc : c = (dataStart a ads, 0) := by
        simp only [c, aadOf, List.append_nil]
      rw [hc]
      exact ⟨ready_foldl h ads, rfl⟩
  | cons p ps ih =>
      cases p with
      | aad ad inl =>
          have hrest := ih (ads ++ [ad]) (fun hlate => hps hlate.cons)
          rw [List.foldl_append, List.append_assoc] at hrest
          simp only [afterPieces_cons, ciphertext_cons, Piece.call, step_aad inl]
          exact hrest
      | data inp outsize room =>
          by_cases hinp : inp = []
          · subst hinp
            exact ih ads (fun hlate => hps hlate.cons)
          · have haad : aadOf ps = [] := aadOf_eq_nil hps hinp
            have hall : aadOf (.data inp outsize room :: ps) = [] := haad
            intro x c
            have hc : c = (dataStart a ads, 0) := by
              simp only [c, hall, List.append_nil]
            rw [hc]
            exact began_of_ready (ready_foldl h ads) (Nat.zero_lt_succ 15) hall

/-! ### The canonical run -/

theorem aadOf_canonical (ps : List Piece) :
    (aadOf (canonical ps)).flatten = (aadOf ps).flatten ∧
      staleBlock (aadOf (canonical ps)) = List.replicate 16 0 := by
  by_cases h : (aadOf ps).flatten = []
  · simp only [canonical, dif_pos h, List.nil_append, aadOf]
    exact ⟨h.symm, rfl⟩
  · simp only [canonical, dif_neg h, List.singleton_append, aadOf]
    have hstale := staleBlock_concat [] (aadOf ps).flatten
    exact ⟨List.flatten_singleton, hstale.trans (if_neg fun h0 => h0.1 rfl)⟩

theorem dataOf_canonical (ps : List Piece) : dataOf (canonical ps) = dataOf ps := by
  by_cases h : (aadOf ps).flatten = []
  · simp only [canonical, dif_pos h, List.nil_append, dataOf, List.append_nil]
  · simp only [canonical, dif_neg h, List.singleton_append, dataOf, List.append_nil]

theorem not_hasLateAad_canonical (ps : List Piece) : ¬ HasLateAad (canonical ps) := by
  refine not_hasLateAad_append ?_ rfl
  split
  · rfl
  · rfl

/-! ### The final -/

/-- The context after the final of an encryption. -/
theorem final_ready (h : Ready x key true tag c) :
    (step x .final).1.tag = tagValue key c ∧ (step x .final).1.s = aeadClose key c ∧
      (step x .final).2.ret = 1 := by
  have hc : ((aadFinalize .ascon x).s, (aadFinalize .ascon x).lastBlkSz) = c :=
    Prod.ext h.s h.lastBlkSz
  have hfinal : final x =
      ({ aadFinalize .ascon x with s := aeadClose key c, tag := tagValue key c }, true) := by
    simp only [final_eq, h.enc, h.key, hc, if_true]
  simp only [step, finalFn, hfinal]
  exact ⟨rfl, rfl, rfl⟩

theorem xorBlock_state_injective (p : Nat) (v : BitVec 128) :
    Function.Injective (AsconState.xorBlock · p v) := by
  intro s s' h
  exact AsconState.ext_mem ((BitVec.xor_left_inj _).mp (congrArg AsconState.mem h))

theorem xorS8_injective (i : Nat) (b : Byte) : Function.Injective (AsconState.xorS8 · i b) := by
  intro s s' h
  exact AsconState.ext_mem ((BitVec.xor_left_inj _).mp (congrArg AsconState.mem h))

/-- The closed sponge determines the sponge before the data. -/
theorem aeadClose_feed_injective {s s' : AsconState} {data : List Byte}
    (h : aeadClose key (encryptMachine.feed (s, 0) data).1 =
      aeadClose key (encryptMachine.feed (s', 0) data).1) : s = s' := by
  have hpos : (encryptMachine.feed (s, 0) data).1.2 = (encryptMachine.feed (s', 0) data).1.2 := by
    rw [feed_position, feed_position]
  have hpad := xorBlock_state_injective 16 key
    (asconP_injective .r12 (xorBlock_state_injective 24 key h))
  simp only [pad, hpos] at hpad
  exact encryptMachine.feed_injective (fun i b => xorS8_injective i b) (asconP_injective .r8)
    (xorS8_injective _ _ hpad)

/-! ### Which orders are authenticated -/

/-- An init with a key and a nonce opens an encryption. -/
theorem einit_opened {p : Ctx} {key iv : List Byte} {params : Params}
    (h : (step p (.einit (some key) (some iv) params)).2.ret = 1) :
    Opened (step p (.einit (some key) (some iv) params)).1 := by
  have hstep : step p (.einit (some key) (some iv) params) =
      init p (some key) (some iv) params true := rfl
  rw [hstep] at h ⊢
  obtain ⟨T, K, heq, -, -⟩ := init_cases h
  rw [heq] at h ⊢
  obtain ⟨-, hreset⟩ := initIv_cases h
  rw [hreset]
  exact ⟨⟨rfl, rfl, rfl, rfl⟩, rfl, rfl⟩

theorem dataStart_eq_iff (a : Ctx) (ps : List Piece) :
    dataStart a (aadOf ps) = dataStart a (aadOf (canonical ps)) ↔
      (aadOf ps).flatten.length % 16 = 0 ∨ staleTail (aadOf ps) =
        List.replicate (16 - (aadOf ps).flatten.length % 16) 0 := by
  obtain ⟨hflat, hstale⟩ := aadOf_canonical ps
  rw [dataStart, dataStart, hflat, hstale, closedState_eq_iff _ (length_staleBlock _)
    List.length_replicate, List.drop_replicate, staleTail]

theorem authenticated_iff (h : Opened a) (ps : List Piece) :
    Authenticated a ps ↔
      ¬ HasLateAad ps ∧ ((aadOf ps).flatten.length % 16 = 0 ∨
        staleTail (aadOf ps) = List.replicate (16 - (aadOf ps).flatten.length % 16) 0) := by
  rw [← dataStart_eq_iff a]
  obtain ⟨hready', hout'⟩ := run_pieces h [] (not_hasLateAad_canonical ps)
  obtain ⟨htag', hs', -⟩ := final_ready hready'
  rw [dataOf_canonical, List.nil_append, List.foldl_nil] at hout' htag' hs'
  refine ⟨?_, ?_⟩
  · intro hauth
    have hlate : ¬ HasLateAad ps := by
      rintro ⟨pre, ad, inl, post, hsplit, hlate⟩
      obtain ⟨hret, -⟩ := hauth.late pre ad inl post hsplit hlate
      rw [step_aad inl] at hret
      cases hret
    obtain ⟨hready, -⟩ := run_pieces h [] hlate
    obtain ⟨-, hs, -⟩ := final_ready hready
    rw [List.nil_append, List.foldl_nil] at hs
    have hsponge := hauth.sponge
    rw [closed, closed, hs, hs'] at hsponge
    exact ⟨hlate, aeadClose_feed_injective hsponge⟩
  · rintro ⟨hlate, hstart⟩
    obtain ⟨hready, hout⟩ := run_pieces h [] hlate
    obtain ⟨htag, hs, -⟩ := final_ready hready
    rw [List.nil_append, List.foldl_nil, hstart] at hout htag hs
    refine ⟨?_, ?_, ?_, ?_⟩
    · intro pre ad inl post hsplit hpre
      exact absurd ⟨pre, ad, inl, post, hsplit, hpre⟩ hlate
    · rw [hout, hout']
    · rw [closed, closed, htag, htag']
    · rw [closed, closed, hs, hs']

theorem ret_pieces (x : Ctx) (ps : List Piece) :
    ∀ r ∈ (run step x (ps.map Piece.call)).2, r.ret = 1 := by
  induction ps generalizing x with
  | nil => exact fun r hr => absurd hr List.not_mem_nil
  | cons p ps ih =>
      rw [List.map_cons, run_cons]
      intro r hr
      rcases List.mem_cons.mp hr with rfl | hr
      · cases p with
        | aad ad inl => rw [Piece.call, step_aad inl]; rfl
        | data inp outsize room =>
            by_cases hinp : inp = []
            · subst hinp
              rfl
            · refine (update_ret x (some outsize) hinp).mpr ?_
              rintro n ⟨⟩
              exact room
      · exact ih _ r hr

/-- **Which orders of updates are authenticated.**  After an init with a key and a
nonce every update returns 1.  No associated data are lost exactly when none come
after data, and they are whole blocks or the calls leave zeros behind them in the
buffer. -/
theorem aad_authenticated {p : Ctx} {key iv : List Byte} {params : Params}
    (h : (step p (.einit (some key) (some iv) params)).2.ret = 1) (ps : List Piece) :
    let a := (step p (.einit (some key) (some iv) params)).1
    (∀ r ∈ (run step a (ps.map Piece.call)).2, r.ret = 1) ∧
      (Authenticated a ps ↔
        ¬ HasLateAad ps ∧ ((aadOf ps).flatten.length % 16 = 0 ∨
          staleTail (aadOf ps) = List.replicate (16 - (aadOf ps).flatten.length % 16) 0)) :=
  ⟨ret_pieces _ ps, authenticated_iff (einit_opened h) ps⟩

/-- Two updates with associated data and then data. -/
theorem aad_authenticated_example :
    let key : List Byte := List.replicate 16 0
    let a := (step newctx (.einit (some key) (some key) {})).1
    Authenticated a
      [.aad [1, 2] (by decide), .aad [3] (by decide), .data [4] 1 (Nat.le_refl 1)] := by
  intro key a
  have hinit : (step newctx (.einit (some key) (some key) {})).2.ret = 1 := rfl
  have hlate : ¬ HasLateAad ([.aad [1, 2] (by decide), .aad [3] (by decide)] ++
      [.data [4] 1 (Nat.le_refl 1)]) := not_hasLateAad_append rfl rfl
  exact (aad_authenticated hinit _).2.mpr ⟨hlate, by decide⟩

/-- **Late associated data are accepted.** -/
theorem late_aad_accepted :
    ¬ ∀ (p : Ctx) (key iv : List Byte) (params : Params) (ps : List Piece),
      (step p (.einit (some key) (some iv) params)).2.ret = 1 →
        Authenticated (step p (.einit (some key) (some iv) params)).1 ps := by
  intro h
  have hauth := h newctx (List.replicate 16 0) (List.replicate 16 0) {}
    [.data [1] 1 (Nat.le_refl 1), .aad [2] (by decide)] rfl
  obtain ⟨hret, -⟩ := hauth.late [.data [1] 1 (Nat.le_refl 1)] [2] (by decide) [] rfl
    (List.cons_ne_nil 1 [])
  rw [step_aad (by decide)] at hret
  cases hret

end AsconDtls.Provider
