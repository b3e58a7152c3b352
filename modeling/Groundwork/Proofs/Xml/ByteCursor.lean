import Groundwork.Proofs.Text.ByteScan
import Groundwork.Xml.Attribute
import Groundwork.Xml.ByteCursor

/-!
# `Proofs.Xml.ByteCursor` — searches that leap from mark to mark

The end of a tag is the first `>` outside quotes. A search for it can leap: to the next byte that is
a `>` or a quote, and from a quote to the next one of its kind. Every leap starts behind a byte that
has been seen, so it starts inside the bytes or at their end, and it finds what a look at every byte
in turn would find.

## Contents

* `remaining?`, `search?`, `tagEndFrom?` — searches that ask for bytes by their places.
* `tagEndFrom?_eq` — **the leaps are right**, from any place on.
* `search?_of_standsAt`, `tagEndFrom?_of_standsAt` — the searches in the bytes of a text.
-/

namespace Groundwork.Xml

open Text

namespace ByteCursor

/-! ## What lies at a cursor -/

/-- The bytes from the cursor on, or from the end on, if the cursor lies past it. -/
def remaining? (cursor : ByteCursor) : Option (List UInt8) :=
  bytesFrom? cursor.bytes (min cursor.position cursor.bytes.length)

theorem remaining?_eq (cursor : ByteCursor) : cursor.remaining? = some cursor.remaining := by
  rw [remaining?, bytesFrom?, if_pos (Nat.min_le_right _ _), remaining]
  congr 1
  rcases Nat.le_total cursor.position cursor.bytes.length with hle | hle
  · rw [Nat.min_eq_left hle]
  · rw [Nat.min_eq_right hle, List.drop_length, List.drop_eq_nil_of_le hle]

/-- The place of the first occurrence of `mark` from the cursor on. -/
def search? (cursor : ByteCursor) (mark : List UInt8) : Option (Option Nat) := do
  let rest ← cursor.remaining?
  return (splitOnce? mark rest).map fun found => cursor.position + found.1.length

theorem search?_eq (cursor : ByteCursor) (mark : List UInt8) :
    cursor.search? mark = some (cursor.find? mark) := by
  rw [search?, remaining?_eq]
  rfl

/-- What is found does not lie in front of the cursor. -/
theorem le_of_search? {cursor : ByteCursor} {mark : List UInt8} {found : Nat}
    (h : cursor.search? mark = some (some found)) : cursor.position ≤ found := by
  rw [search?_eq, Option.some.injEq, find?] at h
  obtain ⟨pieces, -, rfl⟩ := Option.map_eq_some_iff.1 h
  exact Nat.le_add_right _ _

/-- What is found lies behind the cursor, unless the mark starts right there. -/
theorem lt_of_search? {cursor : ByteCursor} {first : UInt8} {mark : List UInt8} {found : Nat}
    (h : cursor.search? (first :: mark) = some (some found)) (hpeek : cursor.peek? ≠ some first) :
    cursor.position < found := by
  rw [search?_eq, Option.some.injEq, find?] at h
  obtain ⟨⟨before, after⟩, hsplit, rfl⟩ := Option.map_eq_some_iff.1 h
  cases before with
  | nil =>
    refine absurd ?_ hpeek
    rw [peek?, ← List.head?_drop]
    exact congrArg List.head? (eq_of_splitOnce? hsplit)
  | cons b before =>
    simp only [List.length_cons]
    omega

/-! ## The end of a tag, by leaps -/

/-- The two bytes that open and close a quoted run. -/
def quoteBytes : List UInt8 := [0x22, 0x27]

/-- The byte that ends a tag. -/
def tagEndByte : UInt8 := 0x3E

/-- The offset of the first `>` outside quotes, from a place on, by leaps. -/
def tagEndFrom? (bytes : List UInt8) (position : Nat) : Option (Option Nat) :=
  match (ByteCursor.mk bytes position).remaining? with
  | none => none
  | some rest =>
    match rest.findIdx? (· ∈ tagEndByte :: quoteBytes) with
    | none => some none
    | some i =>
      match hbyte : bytes[position + i]? with
      | none => none
      | some b =>
        if b = tagEndByte then some (some (position + i))
        else
          match hclose : findFrom? bytes (position + i + 1) [b] with
          | none => none
          | some none => some none
          | some (some close) =>
            have : bytes.length - (close + 1) < bytes.length - position := by
              have hlt := (List.getElem?_eq_some_iff.1 hbyte).1
              have hle := le_of_findFrom? hclose
              omega
            tagEndFrom? bytes (close + 1)
termination_by bytes.length - position

/-- The byte is one of those that the search stops at. -/
def isTagMark (b : UInt8) : Bool := b ∈ tagEndByte :: quoteBytes

theorem findIdx?_append {p : UInt8 → Bool} {plain : List UInt8} {b : UInt8}
    (hplain : ∀ d ∈ plain, p d = false) (hb : p b = true) (rest : List UInt8) :
    (plain ++ b :: rest).findIdx? p = some plain.length := by
  induction plain with
  | nil => rw [List.nil_append, List.findIdx?_cons, if_pos hb, List.length_nil]
  | cons d plain ih =>
    rw [List.forall_mem_cons] at hplain
    rw [List.cons_append, List.findIdx?_cons, hplain.1, ih hplain.2]
    rfl

theorem drop_add_length {bytes front back : List UInt8} {place : Nat}
    (h : bytes.drop place = front ++ back) : bytes.drop (place + front.length) = back := by
  rw [← List.drop_drop, h, List.drop_left]

theorem findFrom?_eq {bytes rest : List UInt8} {place : Nat} (h : place ≤ bytes.length)
    (hrest : bytes.drop place = rest) (mark : List UInt8) :
    findFrom? bytes place mark =
      some ((splitOnce? mark rest).map fun found => place + found.1.length) := by
  rw [findFrom?, bytesFrom?, if_pos h, hrest]
  rfl

section Leap

variable {bytes plain rest : List UInt8} {position : Nat} {b : UInt8}

/-- No leap, where there is nothing to leap to. -/
theorem tagEndFrom?_plain (h : ∀ d ∈ bytes.drop position, isTagMark d = false) :
    tagEndFrom? bytes position = some none := by
  have hnone : (bytes.drop position).findIdx? (· ∈ tagEndByte :: quoteBytes) = none :=
    List.findIdx?_eq_none_iff.2 h
  rw [tagEndFrom?, remaining?_eq]
  simp only [remaining, hnone]

/-- One leap: to the end of the tag, or to a quote and over what it quotes. -/
theorem tagEndFrom?_leap (hbytes : bytes.drop position = plain ++ b :: rest)
    (hplain : ∀ d ∈ plain, isTagMark d = false) (hb : isTagMark b = true) :
    tagEndFrom? bytes position =
      if b = tagEndByte then some (some (position + plain.length))
      else
        match splitOnce? [b] rest with
        | none => some none
        | some run => tagEndFrom? bytes (position + (plain.length + 1 + run.1.length + 1)) := by
  have hfound : (bytes.drop position).findIdx? (· ∈ tagEndByte :: quoteBytes) =
      some plain.length := by
    rw [hbytes]
    exact findIdx?_append hplain hb rest
  have hbyte : bytes[position + plain.length]? = some b := by
    rw [← List.getElem?_drop, hbytes, List.getElem?_append_right (Nat.le_refl _)]
    simp
  have hlt := (List.getElem?_eq_some_iff.1 hbyte).1
  have hrest : bytes.drop (position + plain.length + 1) = rest := by
    have hnext : bytes.drop (position + (plain ++ [b]).length) = rest :=
      drop_add_length (by simpa using hbytes)
    simpa [Nat.add_assoc] using hnext
  have hclose := findFrom?_eq (by omega) hrest [b]
  rw [tagEndFrom?, remaining?_eq]
  simp only [remaining, hfound]
  split
  · next hnone => simp [hbyte] at hnone
  · next b' hbyte' =>
    obtain rfl : b = b' := Option.some.inj (hbyte.symm.trans hbyte')
    split
    · rfl
    split
    · next hnone => simp [hclose] at hnone
    · next hnone =>
      rw [hclose, Option.some.injEq, Option.map_eq_none_iff] at hnone
      rw [hnone]
    · next close hsome =>
      rw [hclose, Option.some.injEq] at hsome
      obtain ⟨run, hrun, rfl⟩ := Option.map_eq_some_iff.1 hsome
      simp only [hrun, Nat.add_assoc]

end Leap

/-- The first `>` outside quotes in some bytes, by its index. -/
def unquotedIndex? (bytes : List UInt8) : Option Nat :=
  (splitUnquoted? quoteBytes tagEndByte bytes).map (·.1.length)

theorem unquotedIndex?_plain {plain : List UInt8} (h : ∀ b ∈ plain, isTagMark b = false)
    (rest : List UInt8) :
    unquotedIndex? (plain ++ rest) = (unquotedIndex? rest).map (plain.length + ·) := by
  have hplain : ∀ b ∈ plain, b ≠ tagEndByte ∧ b ∉ quoteBytes := by
    intro b hb
    have hmem := of_decide_eq_false (h b hb)
    rwa [List.mem_cons, not_or] at hmem
  rw [unquotedIndex?, splitUnquoted?_plain hplain, unquotedIndex?, Option.map_map,
    Option.map_map]
  congr 1
  funext found
  exact List.length_append

theorem unquotedIndex?_quote {b : UInt8} (hmark : b ≠ tagEndByte) (hquote : b ∈ quoteBytes)
    (rest : List UInt8) :
    unquotedIndex? (b :: rest) =
      (splitOnce? [b] rest).bind fun run =>
        (unquotedIndex? run.2).map (1 + run.1.length + 1 + ·) := by
  rw [unquotedIndex?, splitUnquoted?_quote hmark hquote, Option.map_bind]
  congr 1
  funext run
  rw [Function.comp_apply, unquotedIndex?, Option.map_map, Option.map_map]
  congr 1
  funext found
  simp only [Function.comp_apply, List.length_append, List.length_cons]
  omega

/-- The next byte that the search stops at, if there is one. -/
theorem exists_tagMark (bytes : List UInt8) :
    (∀ d ∈ bytes, isTagMark d = false) ∨
      ∃ plain b rest, bytes = plain ++ b :: rest ∧ (∀ d ∈ plain, isTagMark d = false) ∧
        isTagMark b = true := by
  induction bytes with
  | nil => exact .inl (by simp)
  | cons d bytes ih =>
    cases hd : isTagMark d with
    | true => exact .inr ⟨[], d, bytes, rfl, by simp, hd⟩
    | false =>
      rcases ih with hnone | ⟨plain, b, rest, rfl, hplain, hb⟩
      · exact .inl (List.forall_mem_cons.2 ⟨hd, hnone⟩)
      · exact .inr ⟨d :: plain, b, rest, rfl, List.forall_mem_cons.2 ⟨hd, hplain⟩, hb⟩

/-- **The leaps are right**: from any place on, they ask for no byte that is not there, and find the
first `>` outside quotes. -/
theorem tagEndFrom?_eq (bytes : List UInt8) (position : Nat) :
    tagEndFrom? bytes position =
      some ((unquotedIndex? (bytes.drop position)).map (position + ·)) := by
  -- every leap goes forward, so the induction is on the bytes that are left
  induction hn : bytes.length - position using Nat.strongRecOn generalizing position with
  | ind n ih =>
    rcases exists_tagMark (bytes.drop position) with hplain | ⟨plain, b, rest, hbytes, hplain, hb⟩
    · have hindex := unquotedIndex?_plain hplain []
      rw [List.append_nil] at hindex
      rw [tagEndFrom?_plain hplain, hindex]
      simp [unquotedIndex?, splitUnquoted?, splitUnquotedFrom]
    · rw [tagEndFrom?_leap hbytes hplain hb, hbytes, unquotedIndex?_plain hplain]
      by_cases hmark : b = tagEndByte
      · rw [if_pos hmark, hmark, unquotedIndex?, splitUnquoted?_mark]
        rfl
      · have hquote : b ∈ quoteBytes :=
          (List.mem_cons.1 (of_decide_eq_true hb)).resolve_left hmark
        rw [if_neg hmark, unquotedIndex?_quote hmark hquote]
        cases hrun : splitOnce? [b] rest with
        | none => rfl
        | some run =>
          have hlater : bytes.drop (position + (plain.length + 1 + run.1.length + 1)) = run.2 := by
            have hrest := eq_of_splitOnce? hrun
            have hnext :
                bytes.drop (position + (plain ++ b :: run.1 ++ [b]).length) = run.2 :=
              drop_add_length (by rw [hbytes, hrest]; simp)
            simpa [Nat.add_assoc, Nat.add_comm 1] using hnext
          have hlength := congrArg List.length hbytes
          rw [List.length_drop, List.length_append, List.length_cons] at hlength
          simp only
          rw [ih _ (by omega) _ rfl, hlater, Option.bind_some, Option.map_map, Option.map_map]
          congr 2
          funext found
          simp only [Function.comp_apply]
          omega

/-- The end of a tag does not lie in front of the place where it is looked for. -/
theorem le_of_tagEndFrom? {bytes : List UInt8} {position close : Nat}
    (h : tagEndFrom? bytes position = some (some close)) : position ≤ close := by
  rw [tagEndFrom?_eq, Option.some.injEq] at h
  obtain ⟨index, -, rfl⟩ := Option.map_eq_some_iff.1 h
  exact Nat.le_add_right _ _

/-- The same of a cursor. -/
theorem findTagEnd?_eq (cursor : ByteCursor) :
    tagEndFrom? cursor.bytes cursor.position = some cursor.findTagEnd? := by
  rw [tagEndFrom?_eq, unquotedIndex?, Option.map_map]
  rfl

end ByteCursor

/-! ## Searches in the bytes of a text -/

theorem isAscii_of_mem_quotes {q : Char} (h : q ∈ Attribute.quotes) : IsAscii q := by
  simp only [Attribute.quotes, List.mem_cons, List.not_mem_nil, or_false] at h
  rcases h with rfl | rfl <;> decide

/-- A character that is neither a quote nor the mark has no byte that is. -/
theorem plain_of_mem_utf8EncodeChar {quotes : List Char} {mark c : Char}
    (hquotes : ∀ q ∈ quotes, IsAscii q) (hmark : IsAscii mark) (hc : c ≠ mark ∧ c ∉ quotes) :
    ∀ b ∈ String.utf8EncodeChar c, b ≠ asciiByte mark ∧ b ∉ quotes.map asciiByte := by
  intro b hb
  refine ⟨?_, fun hmem => ?_⟩
  · rintro rfl
    exact hc.1 (eq_of_asciiByte_mem hmark hb)
  · obtain ⟨q, hq, rfl⟩ := List.mem_map.1 hmem
    exact hc.2 (eq_of_asciiByte_mem (hquotes q hq) hb ▸ hq)

/-- **Quotes and marks of ASCII play the same part in the bytes of a text.** -/
theorem splitUnquoted?_encode {quotes : List Char} {mark : Char}
    (hquotes : ∀ q ∈ quotes, IsAscii q) (hmark : IsAscii mark) (cs : List Char) :
    splitUnquoted? (quotes.map asciiByte) (asciiByte mark) (Utf8.encode cs) =
      (splitUnquoted? quotes mark cs).map fun found =>
        (Utf8.encode found.1, Utf8.encode found.2) := by
  induction hn : cs.length using Nat.strongRecOn generalizing cs with
  | ind n ih =>
    cases cs with
    | nil => simp [splitUnquoted?, splitUnquotedFrom]
    | cons c cs =>
      have hlt : cs.length < n := by rw [← hn]; exact Nat.lt_succ_self _
      rw [Utf8.encode_cons]
      by_cases heq : c = mark
      · rw [heq, utf8EncodeChar_of_isAscii hmark, List.singleton_append, splitUnquoted?_mark,
          splitUnquoted?_mark]
        rfl
      by_cases hquote : c ∈ quotes
      · have hc := hquotes c hquote
        have hsplit := splitOnce?_encode hc [] cs
        rw [Utf8.encode_cons, utf8EncodeChar_of_isAscii hc, Utf8.encode_nil, List.append_nil]
          at hsplit
        rw [utf8EncodeChar_of_isAscii hc, List.singleton_append,
          splitUnquoted?_quote (fun h => heq ((asciiByte_inj hc hmark).1 h))
            (List.mem_map_of_mem hquote),
          hsplit, splitUnquoted?_quote heq hquote]
        cases hrun : splitOnce? [c] cs with
        | none => rfl
        | some run =>
          have hlength := congrArg List.length (eq_of_splitOnce? hrun)
          simp only [List.length_append] at hlength
          simp only [Option.map_some, Option.bind_some]
          rw [ih _ (by omega) run.2 rfl]
          cases splitUnquoted? quotes mark run.2 with
          | none => rfl
          | some found =>
            simp [Utf8.encode_append, utf8EncodeChar_of_isAscii hc]
      · have hbytes := plain_of_mem_utf8EncodeChar hquotes hmark ⟨heq, hquote⟩
        have hplain : ∀ d ∈ [c], d ≠ mark ∧ d ∉ quotes := List.forall_mem_singleton.2 ⟨heq, hquote⟩
        rw [splitUnquoted?_plain hbytes, ih _ hlt cs rfl, ← List.singleton_append,
          splitUnquoted?_plain hplain, Option.map_map, Option.map_map]
        congr 1

/-- What lies at a cursor in a text. -/
theorem remaining?_of_standsAt {cs rest : List Char} {place : Nat} (h : StandsAt cs place rest) :
    (ByteCursor.mk (Utf8.encode cs) place).remaining? = some (Utf8.encode rest) := by
  rw [ByteCursor.remaining?_eq, ByteCursor.remaining, h.drop_encode]

/-- **A mark lies between two characters.** -/
theorem search?_of_standsAt {cs rest : List Char} {place : Nat} (h : StandsAt cs place rest)
    {first : Char} (hfirst : IsAscii first) (mark : List Char) :
    (ByteCursor.mk (Utf8.encode cs) place).search? (Utf8.encode (first :: mark)) =
      some ((splitOnce? (first :: mark) rest).map fun found => place + Utf8.size found.1) := by
  rw [ByteCursor.search?, remaining?_of_standsAt h, Option.bind_eq_bind, Option.bind_some,
    splitOnce?_encode hfirst, Option.map_map]
  congr 2
  funext found
  exact congrArg (place + ·) (Utf8.length_encode found.1)

/-- **The end of a tag lies between two characters.** -/
theorem tagEndFrom?_of_standsAt {cs rest : List Char} {place : Nat} (h : StandsAt cs place rest) :
    ByteCursor.tagEndFrom? (Utf8.encode cs) place =
      some ((splitUnquoted? Attribute.quotes '>' rest).map fun found =>
        place + Utf8.size found.1) := by
  have hmark : IsAscii '>' := by decide
  have hencode :
      splitUnquoted? ByteCursor.quoteBytes ByteCursor.tagEndByte (Utf8.encode rest) = _ :=
    splitUnquoted?_encode (fun _ => isAscii_of_mem_quotes) hmark rest
  rw [ByteCursor.tagEndFrom?_eq, h.drop_encode, ByteCursor.unquotedIndex?, hencode,
    Option.map_map, Option.map_map]
  congr 2
  funext found
  exact congrArg (place + ·) (Utf8.length_encode found.1)

end Groundwork.Xml
