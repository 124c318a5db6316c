import AsconDtls.Provider.Record

/-!
# Sessions of records through the provider

A sender and a receiver context process record after record.  Each record starts
with an init that carries only a nonce, so the contexts bring along whatever the
calls before left in them.  `session_roundtrip`: with one key in both contexts
every record goes through, and a wrong tag spoils only its own record.
-/

namespace AsconDtls.Provider

open LittleEndian
open Run (run)

/-- A way to cut any byte string into chunks. -/
structure Chunking where
  split : List Byte → List (List Byte)
  flatten_split : ∀ xs, (split xs).flatten = xs

/-- A record: the plaintext in chunks, how the receiver cuts the ciphertext, and
the tag that it is given in place of the sender's, if any. -/
structure Record where
  iv : Vector Byte 16
  aad : List Byte
  chunks : List (List Byte)
  recv : Chunking
  tag : Option (Vector Byte 16)

/-- All that the calls wrote to their output buffers. -/
def outBytes (rs : List Reply) : List Byte := (rs.map Reply.out).flatten

/-- The tag that the last call read. -/
def readTag (rs : List Reply) : List Byte := (rs.getLast?.bind fun r => r.got.tag).getD []

/-- The tag that the receiver is given. -/
def Record.given (r : Record) (sent : List Byte) : List Byte := (r.tag.map Vector.toList).getD sent

/-- The replies to the sender and to the receiver, record by record. -/
def session (s v : Ctx) : List Record → List (List Reply × List Reply)
  | [] => []
  | r :: rs =>
    let snd := run step s (encryptCalls none r.iv r.aad r.chunks)
    let rcv := run step v (decryptCalls none r.iv r.aad (r.given (readTag snd.2))
      (r.recv.split (outBytes snd.2)))
    (snd.2, rcv.2) :: session snd.1 rcv.1 rs

/-- A zero-allocated context that was given the key. -/
def keyedCtx (key : Vector Byte 16) : Ctx := (step newctx (.einit (some key.toList) none {})).1

/-- How a record goes through a session under `key`. -/
structure RecordOk (key : Vector Byte 16) (r : Record) (o : List Reply × List Reply) : Prop where
  sent : ∀ x ∈ o.1, x.ret = 1
  /-- The sender answers as a fresh context would. -/
  fresh : o.1 = (run step (keyedCtx key) (encryptCalls none r.iv r.aad r.chunks)).2
  received : ∀ x ∈ o.2.dropLast, x.ret = 1
  plaintext : outBytes o.2 = r.chunks.flatten
  verdict : o.2.getLast?.map Reply.ret = some (if r.given (readTag o.1) = readTag o.1 then 1 else 0)

/-! ### The replies of a record -/

theorem outBytes_dataReplies (outs : List (List Byte)) :
    outBytes (dataReplies outs) = outs.flatten := by
  have hout : (Reply.out ∘ fun o : List Byte => Reply.wrote o o.length) = id := rfl
  rw [outBytes, dataReplies, List.map_map, hout, List.map_id]

theorem outBytes_append (xs ys : List Reply) : outBytes (xs ++ ys) = outBytes xs ++ outBytes ys := by
  rw [outBytes, List.map_append, List.flatten_append]
  rfl

theorem outBytes_aadReplies (ad : List Byte) : outBytes (aadReplies ad) = [] := by
  rw [aadReplies]
  split <;> rfl

theorem ret_aadReplies (ad : List Byte) : ∀ x ∈ aadReplies ad, x.ret = 1 := by
  intro x hx
  rw [aadReplies] at hx
  split at hx
  · cases hx
  · rw [List.mem_singleton.mp hx]
    rfl

theorem ret_dataReplies (outs : List (List Byte)) : ∀ x ∈ dataReplies outs, x.ret = 1 := by
  intro x hx
  obtain ⟨o, -, rfl⟩ := List.mem_map.mp hx
  rfl

theorem outBytes_encryptReplies (ad : List Byte) (outs : List (List Byte)) (tag : List Byte) :
    outBytes (encryptReplies ad outs tag) = outs.flatten := by
  simp only [encryptReplies, outBytes_append, outBytes_aadReplies, outBytes_dataReplies]
  simp [outBytes, Reply.done, Reply.wrote]

theorem readTag_encryptReplies (ad : List Byte) (outs : List (List Byte)) (tag : List Byte) :
    readTag (encryptReplies ad outs tag) = tag := by
  simp [readTag, encryptReplies, List.getLast?_cons, List.getLast?_append]

theorem ret_encryptReplies (ad : List Byte) (outs : List (List Byte)) (tag : List Byte) :
    ∀ x ∈ encryptReplies ad outs tag, x.ret = 1 := by
  intro x hx
  simp only [encryptReplies, List.mem_append, List.mem_cons, List.not_mem_nil, or_false] at hx
  rcases hx with ((rfl | haad) | hdata) | rfl | rfl
  · rfl
  · exact ret_aadReplies ad x haad
  · exact ret_dataReplies outs x hdata
  · rfl
  · rfl

theorem outBytes_decryptReplies (ad : List Byte) (outs : List (List Byte)) (b : Bool) :
    outBytes (decryptReplies ad outs b) = outs.flatten := by
  simp only [decryptReplies, outBytes_append, outBytes_aadReplies, outBytes_dataReplies]
  cases b with
  | true => simp [outBytes, Reply.done, Reply.wrote]
  | false => simp [outBytes, Reply.done]

theorem ret_decryptReplies (ad : List Byte) (outs : List (List Byte)) (b : Bool) :
    ∀ x ∈ (decryptReplies ad outs b).dropLast, x.ret = 1 := by
  intro x hx
  simp only [decryptReplies, List.dropLast_concat, List.mem_append, List.mem_cons, List.not_mem_nil,
    or_false] at hx
  rcases hx with ((rfl | haad) | rfl) | hdata
  · rfl
  · exact ret_aadReplies ad x haad
  · rfl
  · exact ret_dataReplies outs x hdata

theorem last_decryptReplies (ad : List Byte) (outs : List (List Byte)) (b : Bool) :
    (decryptReplies ad outs b).getLast?.map Reply.ret = some (if b then 1 else 0) := by
  rw [decryptReplies, List.getLast?_concat]
  cases b with
  | true => rfl
  | false => rfl

/-! ### Keys -/

/-- An init that carries the key. -/
def GivesKey (key : Vector Byte 16) (c : Call) : Prop :=
  ∃ iv params, c = .einit (some key.toList) iv params ∨ c = .dinit (some key.toList) iv params

theorem init_key {a : Ctx} {key : List Byte} {iv : Option (List Byte)} {params : Params}
    {enc : Bool} (h : (init a (some key) iv params enc).2.ret = 1) :
    (init a (some key) iv params enc).1.key = loadLE 128 key := by
  obtain ⟨T, K, heq, -, hsome⟩ := init_cases h
  rw [heq, initIv_key]
  exact hsome key rfl

theorem GivesKey.key {key : Vector Byte 16} {c : Call} (hc : GivesKey key c) {a : Ctx}
    (h : (step a c).2.ret = 1) : (step a c).1.key = loadLE 128 key.toList := by
  obtain ⟨iv, params, rfl | rfl⟩ := hc
  · exact init_key h
  · exact init_key h

theorem keyedCtx_key (key : Vector Byte 16) : (keyedCtx key).key = loadLE 128 key.toList := by
  have hgives : GivesKey key (.einit (some key.toList) none {}) := ⟨none, {}, .inl rfl⟩
  refine hgives.key (a := newctx) ?_
  have hlen : ¬ key.toList.length ≠ ASCON128_KEYLEN := by simp [ASCON128_KEYLEN]
  simp only [step, einit, init, initKey]
  rw [if_neg (by decide), if_neg hlen]
  rfl


/-! ### Sessions -/

theorem given_length (r : Record) {sent : List Byte} (h : sent.length = 16) :
    (r.given sent).length = 16 := by
  rw [Record.given]
  cases r.tag with
  | none => exact h
  | some T => simp

/-- One record between contexts with the same key. -/
theorem record_ok (key : Vector Byte 16) (r : Record) {s v : Ctx}
    (hs : s.key = loadLE 128 key.toList) (hv : v.key = loadLE 128 key.toList) :
    let snd := run step s (encryptCalls none r.iv r.aad r.chunks)
    let rcv := run step v (decryptCalls none r.iv r.aad (r.given (readTag snd.2))
      (r.recv.split (outBytes snd.2)))
    RecordOk key r (snd.2, rcv.2) ∧ snd.1.key = loadLE 128 key.toList ∧
      rcv.1.key = loadLE 128 key.toList := by
  intro snd rcv
  have hnone : ∀ k ∈ (none : Option (List Byte)), k.length = 16 := by simp
  let start := lazyStart (loadLE 128 key.toList) (loadLE 128 r.iv.toList) r.aad
  let sealed := sealFrom (loadLE 128 key.toList) start r.chunks.flatten
  obtain ⟨outs, hsend, hct, hlen, hskey⟩ := run_encryptCalls s hnone r.iv r.aad r.chunks
  obtain ⟨outs', hsend', hct', hlen', -⟩ :=
    run_encryptCalls (keyedCtx key) hnone r.iv r.aad r.chunks
  simp only [keyAfter, hs, keyedCtx_key] at hsend hct hskey hsend' hct'
  -- both runs write the same bytes in pieces of the same lengths
  have houts : outs = outs' := List.eq_iff_flatten_eq.mpr
    ⟨hct.trans hct'.symm, hlen.trans hlen'.symm⟩
  subst houts
  have hsnd : snd.2 = encryptReplies r.aad outs sealed.2 := hsend
  have htag : readTag snd.2 = sealed.2 := by rw [hsnd, readTag_encryptReplies]
  have hbytes : outBytes snd.2 = sealed.1 := by rw [hsnd, outBytes_encryptReplies, hct]
  have hT : (r.given sealed.2).length = 16 := given_length r (length_aeadTag ..)
  have hrcv : rcv = run step v (decryptCalls none r.iv r.aad (r.given sealed.2)
      (r.recv.split sealed.1)) := by
    simp only [rcv, htag, hbytes]
  obtain ⟨pts, hrecv, hpt, -, hvkey⟩ :=
    run_decryptCalls v hnone r.iv r.aad hT (r.recv.split sealed.1)
  have hopen := openFrom_sealFrom (loadLE 128 key.toList) start r.chunks.flatten
  simp only [keyAfter, hv, r.recv.flatten_split] at hrecv hpt hvkey
  rw [← hrcv, hopen] at hrecv
  rw [← hrcv] at hvkey
  rw [hopen] at hpt
  refine ⟨⟨?_, hsend.trans hsend'.symm, ?_, ?_, ?_⟩, hskey, hvkey⟩
  · rw [hsnd]
    exact ret_encryptReplies _ _ _
  · rw [hrecv]
    exact ret_decryptReplies _ _ _
  · rw [hrecv, outBytes_decryptReplies, hpt]
  · simp only [hrecv, htag, last_decryptReplies, decide_eq_true_eq]
    rfl

/-- Contexts with the same key carry any list of records. -/
theorem session_ok (key : Vector Byte 16) (records : List Record) {s v : Ctx}
    (hs : s.key = loadLE 128 key.toList) (hv : v.key = loadLE 128 key.toList) :
    List.Forall₂ (RecordOk key) records (session s v records) := by
  induction records generalizing s v with
  | nil => exact .nil
  | cons r records ih =>
      obtain ⟨hok, hskey, hvkey⟩ := record_ok key r hs hv
      exact .cons hok (ih hskey hvkey)

/-- **Records round-trip whatever ran before.**  The contexts are arbitrary when
they are given the key. -/
theorem session_roundtrip (key : Vector Byte 16) (s v : Ctx) (cs cv : Call)
    (hs : GivesKey key cs) (hv : GivesKey key cv) (hs1 : (step s cs).2.ret = 1)
    (hv1 : (step v cv).2.ret = 1) (records : List Record) :
    List.Forall₂ (RecordOk key) records (session (step s cs).1 (step v cv).1 records) :=
  session_ok key records (hs.key hs1) (hv.key hv1)

/-- Two records, the first with a wrong tag. -/
theorem session_roundtrip_example :
    let key : Vector Byte 16 := Vector.replicate 16 1#8
    let whole : Chunking := ⟨fun xs => [xs], fun xs => by simp⟩
    let records : List Record := [⟨key, [7#8], [[1#8], [2#8, 3#8]], whole, some key⟩,
      ⟨key, [], [[4#8]], whole, none⟩]
    List.Forall₂ (RecordOk key) records
      (session (step newctx (.einit (some key.toList) none {})).1
        (step newctx (.dinit (some key.toList) none {})).1 records) :=
  session_roundtrip _ newctx newctx _ _ ⟨none, {}, .inl rfl⟩ ⟨none, {}, .inr rfl⟩ (by decide)
    (by decide) _

end AsconDtls.Provider
