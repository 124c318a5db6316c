import AsconDtls.Tools.CorruptTarget

/-!
# The bytes that Corrupt-Tags flips

`Corrupt-Tags` reads the length fields of the array that it writes to.  A header stands in front
of every tag that is flipped later and behind every tag that was flipped before, so the walk meets
the lengths of the array that it was given.

* `Walk`: a run of the `while` loop that ends.
* `Header`: where the records begin, read off one array.
* `walk_flips`: what a run does to each byte.
* `corruptTags_involutive`: a second run meets the same records.
-/

namespace AsconDtls.Tools

open LittleEndian

/-- The length field of a record at `off`. -/
def bodyLen (arr : List Byte) (off : Nat) : Nat :=
  ((arr.getD (off + 3) 0).toNat <<< 8) + (arr.getD (off + 4) 0).toNat

/-- `$recEnd`. -/
def recEnd (arr : List Byte) (off : Nat) : Nat := off + 5 + bodyLen arr off

/-- The body of the loop, where the record is complete. -/
def flipTag (arr : List Byte) (off : Nat) : List Byte :=
  if 16 ≤ bodyLen arr off then
    arr.set (recEnd arr off - 1) (arr.getD (recEnd arr off - 1) 0 ^^^ 1)
  else arr

/-- The loop from `off` ends, and leaves `out`. -/
inductive Walk : List Byte → Nat → List Byte → Prop
  | done {arr off} (hend : arr.length < off + 5) : Walk arr off arr
  | cut {arr off} (hoff : off + 5 ≤ arr.length) (hcut : arr.length < recEnd arr off) :
      Walk arr off arr
  | turn {arr off out} (hoff : off + 5 ≤ arr.length) (hfit : recEnd arr off ≤ arr.length)
      (hrest : Walk (flipTag arr off) (recEnd arr off) out) : Walk arr off out

theorem flipTag_length (arr : List Byte) (off : Nat) : (flipTag arr off).length = arr.length := by
  rw [flipTag]
  split
  · exact List.length_set
  · rfl

/-- Only the byte in front of `recEnd` can change. -/
theorem flipTag_getD_ne (arr : List Byte) (off : Nat) {i : Nat} (hi : i ≠ recEnd arr off - 1) :
    (flipTag arr off).getD i 0 = arr.getD i 0 := by
  rw [flipTag]
  split
  · simp only [List.getD_eq_getElem?_getD]
    rw [List.getElem?_set_ne (Ne.symm hi)]
  · rfl

theorem flipTag_getD_self {arr : List Byte} {off : Nat} (hfit : recEnd arr off ≤ arr.length)
    (htag : 16 ≤ bodyLen arr off) :
    (flipTag arr off).getD (recEnd arr off - 1) 0 = arr.getD (recEnd arr off - 1) 0 ^^^ 1 := by
  rw [recEnd] at hfit
  rw [flipTag, if_pos htag, List.getD_eq_getElem?_getD, List.getElem?_set_self, Option.getD_some]
  rw [recEnd]
  omega

/-- The loop ends before the fuel does. -/
theorem walk_corruptTagsFrom (arr : List Byte) (off fuel : Nat) (h : arr.length ≤ off + fuel) :
    Walk arr off (corruptTagsFrom arr off fuel) := by
  induction fuel generalizing arr off with
  | zero => exact Walk.done (by omega)
  | succ fuel ih =>
      by_cases hoff : off + 5 ≤ arr.length
      · by_cases hfit : recEnd arr off ≤ arr.length
        · have hturn : corruptTagsFrom arr off (fuel + 1) =
              corruptTagsFrom (flipTag arr off) (recEnd arr off) fuel := by
            rw [corruptTagsFrom, if_pos hoff]
            exact if_neg (Nat.not_lt.mpr hfit)
          rw [hturn]
          refine Walk.turn hoff hfit (ih _ _ ?_)
          rw [flipTag_length, recEnd]
          omega
        · have hcut : corruptTagsFrom arr off (fuel + 1) = arr := by
            rw [corruptTagsFrom, if_pos hoff]
            exact if_pos (Nat.lt_of_not_le hfit)
          rw [hcut]
          exact Walk.cut hoff (Nat.lt_of_not_le hfit)
      · rw [corruptTagsFrom, if_neg hoff]
        exact Walk.done (Nat.lt_of_not_le hoff)

/-! ### Records -/

/-- The chain of records from `s` comes to a header at `off`. -/
inductive Header (arr : List Byte) (s : Nat) : Nat → Prop
  | start : Header arr s s
  | next {off} (h : Header arr s off) (hfit : recEnd arr off ≤ arr.length) :
      Header arr s (recEnd arr off)

/-- `i` is the last byte of a complete record of the chain that is long enough for a tag. -/
def TagAt (arr : List Byte) (s i : Nat) : Prop :=
  ∃ off, Header arr s off ∧ recEnd arr off ≤ arr.length ∧ 16 ≤ bodyLen arr off ∧
    i = recEnd arr off - 1

theorem Header.trans {arr : List Byte} {s t off : Nat} (hst : Header arr s t)
    (h : Header arr t off) : Header arr s off := by
  induction h with
  | start => exact hst
  | next _ hfit ih => exact ih.next hfit

theorem Header.ge {arr : List Byte} {s off : Nat} (h : Header arr s off) : s ≤ off := by
  induction h with
  | start => exact le_rfl
  | next _ _ ih =>
      rw [recEnd]
      omega

/-- The chain from `s` is the record at `s` and the chain behind it. -/
theorem header_iff {arr : List Byte} {s off : Nat} :
    Header arr s off ↔
      off = s ∨ recEnd arr s ≤ arr.length ∧ Header arr (recEnd arr s) off := by
  constructor
  · intro h
    induction h with
    | start => exact Or.inl rfl
    | next _ hfit ih =>
        rcases ih with rfl | ⟨hs, ih⟩
        · exact Or.inr ⟨hfit, Header.start⟩
        · exact Or.inr ⟨hs, ih.next hfit⟩
  · rintro (rfl | ⟨hs, h⟩)
    · exact Header.start
    · exact (Header.start.next hs).trans h

/-- Of two headers of a chain, one is on the chain of the other. -/
theorem Header.linear {arr : List Byte} {s a b : Nat} (ha : Header arr s a)
    (hb : Header arr s b) : Header arr a b ∨ Header arr b a := by
  induction ha with
  | start => exact Or.inl hb
  | next _ hfit ih =>
      rcases ih with h | h
      · rcases header_iff.mp h with rfl | ⟨-, hrest⟩
        · exact Or.inr (Header.start.next hfit)
        · exact Or.inl hrest
      · exact Or.inr (h.next hfit)

/-- No byte of a header is the last one of a record with a tag. -/
theorem Header.not_tagAt {arr : List Byte} {s off j : Nat} (h : Header arr s off) (hj : j < 5) :
    ¬ TagAt arr s (off + j) := by
  rintro ⟨t, ht, -, htag, hi⟩
  rw [recEnd] at hi
  rcases h.linear ht with hle | hge
  · have := hle.ge
    omega
  · rcases header_iff.mp hge with rfl | ⟨-, hrest⟩
    · omega
    · have := hrest.ge
      rw [recEnd] at this
      omega

theorem TagAt.ge {arr : List Byte} {s i : Nat} (h : TagAt arr s i) : s ≤ i := by
  obtain ⟨off, hoff, -, htag, rfl⟩ := h
  have := hoff.ge
  rw [recEnd]
  omega

theorem tagAt_iff {arr : List Byte} {s i : Nat} (hfit : recEnd arr s ≤ arr.length) :
    TagAt arr s i ↔
      16 ≤ bodyLen arr s ∧ i = recEnd arr s - 1 ∨ TagAt arr (recEnd arr s) i := by
  constructor
  · rintro ⟨off, hoff, hlen, htag, hi⟩
    rcases header_iff.mp hoff with rfl | ⟨-, hrest⟩
    · exact Or.inl ⟨htag, hi⟩
    · exact Or.inr ⟨off, hrest, hlen, htag, hi⟩
  · rintro (⟨htag, hi⟩ | ⟨off, hoff, hlen, htag, hi⟩)
    · exact ⟨s, Header.start, hfit, htag, hi⟩
    · exact ⟨off, (Header.start.next hfit).trans hoff, hlen, htag, hi⟩

/-- Without a complete record there is no tag. -/
theorem not_tagAt {arr : List Byte} {s i : Nat} (h : arr.length < recEnd arr s) :
    ¬ TagAt arr s i := by
  rintro ⟨off, hoff, hlen, -, -⟩
  rcases header_iff.mp hoff with rfl | ⟨hs, -⟩ <;> omega

theorem bodyLen_congr {arr arr' : List Byte} {off : Nat}
    (h : ∀ j, j < 5 → arr'.getD (off + j) 0 = arr.getD (off + j) 0) :
    bodyLen arr' off = bodyLen arr off := by
  rw [bodyLen, bodyLen, h 3 (by decide), h 4 (by decide)]

/-- Two arrays with the same bytes in the headers of the one have the same headers. -/
theorem header_congr {arr arr' : List Byte} {s : Nat} (hlen : arr'.length = arr.length)
    (h : ∀ off, Header arr s off → ∀ j, j < 5 →
      arr'.getD (off + j) 0 = arr.getD (off + j) 0) (off : Nat) :
    Header arr' s off ↔ Header arr s off := by
  have hrec : ∀ off, Header arr s off → recEnd arr' off = recEnd arr off := by
    intro off hoff
    rw [recEnd, recEnd, bodyLen_congr (h off hoff)]
  constructor
  · intro hoff
    induction hoff with
    | start => exact Header.start
    | next _ hfit ih =>
        rw [hlen, hrec _ ih] at hfit
        rw [hrec _ ih]
        exact ih.next hfit
  · intro hoff
    induction hoff with
    | start => exact Header.start
    | next hoff hfit ih =>
        rw [← hrec _ hoff] at hfit ⊢
        exact ih.next (hlen ▸ hfit)

theorem tagAt_congr {arr arr' : List Byte} {s : Nat} (hlen : arr'.length = arr.length)
    (h : ∀ off, Header arr s off → ∀ j, j < 5 →
      arr'.getD (off + j) 0 = arr.getD (off + j) 0) (i : Nat) :
    TagAt arr' s i ↔ TagAt arr s i := by
  refine exists_congr fun off => ?_
  rw [header_congr hlen h off]
  refine and_congr_right fun hoff => ?_
  rw [recEnd, recEnd, bodyLen_congr (h off hoff), hlen]

/-! ### What a run changes -/

/-- `out` is `arr` with the last byte of each complete record flipped that can hold a tag. -/
structure FlipsTags (arr : List Byte) (s : Nat) (out : List Byte) : Prop where
  length : out.length = arr.length
  tag : ∀ i, TagAt arr s i → out.getD i 0 = arr.getD i 0 ^^^ 1
  other : ∀ i, ¬ TagAt arr s i → out.getD i 0 = arr.getD i 0

theorem FlipsTags.header {arr out : List Byte} {s : Nat} (h : FlipsTags arr s out) (off : Nat)
    (hoff : Header arr s off) (j : Nat) (hj : j < 5) :
    out.getD (off + j) 0 = arr.getD (off + j) 0 := h.other _ (hoff.not_tagAt hj)

/-- By induction on the turns: the first one flips the tag of the record at `off`, and what
follows reads and writes behind that record only. -/
theorem walk_flips {arr out : List Byte} {off : Nat} (h : Walk arr off out) :
    FlipsTags arr off out := by
  induction h with
  | @done arr off hend =>
      have hcut : arr.length < recEnd arr off := by
        rw [recEnd]
        omega
      exact ⟨rfl, fun i hi => absurd hi (not_tagAt hcut), fun _ _ => rfl⟩
  | cut _ hcut => exact ⟨rfl, fun i hi => absurd hi (not_tagAt hcut), fun _ _ => rfl⟩
  | @turn arr off out hoff hfit _ ih =>
      have hlen := flipTag_length arr off
      have hpos : 0 < recEnd arr off := by
        rw [recEnd]
        omega
      have hbehind : ∀ i, TagAt (flipTag arr off) (recEnd arr off) i ↔
          TagAt arr (recEnd arr off) i := by
        refine tagAt_congr hlen fun t ht j _ => flipTag_getD_ne arr off ?_
        have := ht.ge
        omega
      refine ⟨ih.length.trans hlen, fun i hi => ?_, fun i hi => ?_⟩
      · rcases (tagAt_iff hfit).mp hi with ⟨htag, rfl⟩ | hrest
        · rw [ih.other _ fun hlate => ?_, flipTag_getD_self hfit htag]
          have := hlate.ge
          omega
        · have := hrest.ge
          rw [ih.tag i ((hbehind i).mpr hrest), flipTag_getD_ne arr off (by omega)]
      · rw [tagAt_iff hfit, not_or] at hi
        rw [ih.other i (fun hlate => hi.2 ((hbehind i).mp hlate))]
        by_cases htag : 16 ≤ bodyLen arr off
        · exact flipTag_getD_ne arr off fun heq => hi.1 ⟨htag, heq⟩
        · rw [flipTag, if_neg htag]

theorem corruptTags_walk (arr : List Byte) : Walk arr 0 (corruptTags arr) :=
  walk_corruptTagsFrom arr 0 arr.length (by omega)

theorem corruptTags_flips (arr : List Byte) : FlipsTags arr 0 (corruptTags arr) :=
  walk_flips (corruptTags_walk arr)

/-- Two arrays are the same when they flip the same tags of one array. -/
theorem FlipsTags.undo {arr mid out : List Byte} {s : Nat} (h : FlipsTags arr s mid)
    (h' : FlipsTags mid s out) : out = arr := by
  have hlen : out.length = arr.length := h'.length.trans h.length
  have hget : ∀ i, out.getD i 0 = arr.getD i 0 := by
    intro i
    have hsame := tagAt_congr h.length h.header i
    by_cases htag : TagAt arr s i
    · rw [h'.tag i (hsame.mpr htag), h.tag i htag, BitVec.xor_assoc, BitVec.xor_self,
        BitVec.xor_zero]
    · rw [h'.other i (fun hc => htag (hsame.mp hc)), h.other i htag]
  refine List.ext_getElem hlen fun i h1 h2 => ?_
  simpa [List.getD_eq_getElem?_getD, h1, h2] using hget i

/-- The loop of `Corrupt-Tags` ends on every array.  It changes the last bytes of the complete
records with a tag, each by `-bxor 1`, and no other byte, none of a header among them; a second
run meets the same records, and restores the array. -/
theorem corruptTags_involutive (arr : List Byte) :
    Walk arr 0 (corruptTags arr) ∧
      (corruptTags arr).length = arr.length ∧
      (∀ i, (corruptTags arr).getD i 0 ≠ arr.getD i 0 ↔ TagAt arr 0 i) ∧
      (∀ i, TagAt arr 0 i → (corruptTags arr).getD i 0 = arr.getD i 0 ^^^ 1) ∧
      (∀ off, Header arr 0 off → ∀ j, j < 5 →
        (corruptTags arr).getD (off + j) 0 = arr.getD (off + j) 0) ∧
      (∀ off, Header (corruptTags arr) 0 off ↔ Header arr 0 off) ∧
      (∀ i, TagAt (corruptTags arr) 0 i ↔ TagAt arr 0 i) ∧
      corruptTags (corruptTags arr) = arr := by
  have h := corruptTags_flips arr
  have hchanged : ∀ i, (corruptTags arr).getD i 0 ≠ arr.getD i 0 ↔ TagAt arr 0 i := by
    intro i
    constructor
    · intro hne
      by_contra htag
      exact hne (h.other i htag)
    · intro htag
      rw [h.tag i htag]
      exact xor_one_ne _
  exact ⟨corruptTags_walk arr, h.length, hchanged, h.tag, h.header,
    header_congr h.length h.header, tagAt_congr h.length h.header,
    h.undo (corruptTags_flips _)⟩

end AsconDtls.Tools
