import Groundwork.Encoding
import Groundwork.Proofs.Text.Search
import Groundwork.Proofs.Text.Utf16
import Groundwork.Proofs.Text.Utf8

/-!
# `Proofs.Encoding.RoundTrip` — writing a text and reading it again

In each layout a text is read back from its bytes. What can go wrong is that the bytes are taken for
another layout. UTF-16 is written behind its mark, which no reader overlooks. UTF-8 and ASCII are
written without one, so a text that starts with the character of the mark, or with `<` and a zero
beside it, passes for something else. It is then never read back: either its first character is
taken for a mark and lost, or its bytes would have to be those of the same text in UTF-16, which is
longer.

## Contents

* `Layout.bytes`, `Layout.decode_bytes` — a text in a layout.
* `Layout.detect_encode` — **what the bytes of a UTF-8 text are taken for.**
* `Misleading`, `Encoding.decode_of_encode` — **when a text is read back.**
* `Encoding.decode_ne_of_misleading` — **a misleading text is not.**
* `Encoding.decode_encode_iff` — both, with the texts that have no bytes.
-/

namespace Groundwork

open Text

namespace Layout

/-! ## Texts in a layout -/

/-- The bytes of a text in this layout, without a mark. -/
def bytes : Layout → List Char → List UInt8
  | .utf8, cs | .ascii, cs => Utf8.encode cs
  | .utf16 order, cs => Utf16.toBytes order (Utf16.encode cs)

/-- The text has a place in this layout: ASCII has room for 128 characters only. -/
def Holds : Layout → List Char → Prop
  | .utf8, _ | .utf16 _, _ => True
  | .ascii, cs => ∀ c ∈ cs, c.toNat < 0x80

theorem encode_of_ascii {cs : List Char} (h : ∀ c ∈ cs, c.toNat < 0x80) :
    Utf8.encode cs = cs.map fun c => UInt8.ofNat c.toNat := by
  induction cs with
  | nil => rfl
  | cons c cs ih =>
    rw [List.forall_mem_cons] at h
    have hc : String.utf8EncodeChar c = [UInt8.ofNat c.toNat] :=
      if_pos (show c.toNat ≤ 127 by omega)
    rw [Utf8.encode_cons, hc, ih h.2]
    rfl

theorem decodeAscii_encode {cs : List Char} (h : ∀ c ∈ cs, c.toNat < 0x80) :
    decodeAscii (Utf8.encode cs) = .ok (String.ofList cs) := by
  have hbyte : ∀ c ∈ cs, (UInt8.ofNat c.toNat).toNat = c.toNat := by
    intro c hc
    have hlt := h c hc
    exact Utf8.toNat_ofNat (by omega)
  have hnone : ((Utf8.encode cs).zipIdx.find? fun p => 0x80 ≤ p.1) = none := by
    rw [List.find?_eq_none]
    rintro ⟨b, index⟩ hb hhigh
    have hmem : b ∈ Utf8.encode cs := List.fst_mem_of_mem_zipIdx hb
    rw [encode_of_ascii h, List.mem_map] at hmem
    obtain ⟨c, hc, rfl⟩ := hmem
    rw [decide_eq_true_eq, UInt8.le_iff_toNat_le, hbyte c hc] at hhigh
    exact Nat.not_le.2 (h c hc) hhigh
  have hchars : (Utf8.encode cs).map (fun b => Char.ofNat b.toNat) = cs := by
    have hchar : ∀ c ∈ cs, Char.ofNat (UInt8.ofNat c.toNat).toNat = id c := by
      intro c hc
      rw [hbyte c hc, Char.ofNat_toNat]
      rfl
    rw [encode_of_ascii h, List.map_map]
    exact (List.map_congr_left hchar).trans (List.map_id cs)
  unfold decodeAscii
  rw [hnone]
  show Except.ok (String.ofList _) = _
  rw [hchars]

/-- **In its layout, a text is read back.** -/
theorem decode_bytes (layout : Layout) {text : String} (h : layout.Holds text.toList) :
    layout.decode (layout.bytes text.toList) = .ok text := by
  cases layout with
  | utf8 =>
    show decodeUtf8 (Utf8.encode text.toList) = _
    unfold decodeUtf8
    rw [Utf8.decode_encode]
    simp
  | utf16 order =>
    show decodeUtf16 order (Utf16.toBytes order (Utf16.encode text.toList)) = _
    unfold decodeUtf16
    rw [Utf16.ofBytes?_toBytes]
    simp [Utf16.decode_encode]
  | ascii =>
    show decodeAscii (Utf8.encode text.toList) = _
    rw [decodeAscii_encode h, String.ofList_toList]

/-- **Bytes read as UTF-16 are those of the text that is read.** -/
theorem bytes_of_decode {order : Utf16.ByteOrder} {input : List UInt8} {text : String}
    (h : (Layout.utf16 order).decode input = .ok text) :
    (Layout.utf16 order).bytes text.toList = input := by
  have hdecode : decodeUtf16 order input = .ok text := h
  unfold decodeUtf16 at hdecode
  split at hdecode
  · cases hdecode
  · next units hunits =>
    split at hdecode
    · cases hdecode
    · next cs hcs =>
      obtain rfl := Except.ok.inj hdecode
      show Utf16.toBytes order (Utf16.encode (String.ofList cs).toList) = _
      rw [String.toList_ofList, Utf16.encode_of_decode hcs, Utf16.toBytes_of_ofBytes? hunits]

/-! ## What bytes are taken for -/

theorem isPrefixOf_encode {front : List Char} {bytes : List UInt8} (h : Utf8.encode front = bytes)
    (cs : List Char) : bytes.isPrefixOf (Utf8.encode cs) = decide (front <+: cs) := by
  rw [Bool.eq_iff_iff, List.isPrefixOf_iff_prefix, decide_eq_true_eq, ← h, Utf8.encode_prefix_iff]

/-- No character starts with a byte of a UTF-16 mark. -/
theorem isPrefixOf_encode_eq_false {b : UInt8} (hb : Utf8.lead? b = none) (more : List UInt8)
    (cs : List Char) : (b :: more).isPrefixOf (Utf8.encode cs) = false := by
  rw [Bool.eq_false_iff, Ne, List.isPrefixOf_iff_prefix]
  rintro ⟨bytes, hbytes⟩
  obtain ⟨c, back, -, hread⟩ := Utf8.exists_of_encode hbytes.symm
  unfold Utf8.readChar at hread
  rw [hb] at hread
  cases hread

/-- **What the bytes of a UTF-8 text are taken for.** -/
theorem detect_encode (configured : Encoding) (cs : List Char) :
    detect configured (Utf8.encode cs) =
      if ['\uFEFF'] <+: cs then .utf8
      else if ['\x00', '<'] <+: cs then .utf16 .big
      else if ['<', '\x00'] <+: cs then .utf16 .little
      else ofEncoding configured := by
  have hmark : (mark .utf8).isPrefixOf (Utf8.encode cs) = decide (['\uFEFF'] <+: cs) :=
    isPrefixOf_encode (by decide) cs
  have hlittle : (mark (.utf16 .little)).isPrefixOf (Utf8.encode cs) = false :=
    isPrefixOf_encode_eq_false (by decide) _ cs
  have hbig : (mark (.utf16 .big)).isPrefixOf (Utf8.encode cs) = false :=
    isPrefixOf_encode_eq_false (by decide) _ cs
  have hbefore : [0x00, 0x3C].isPrefixOf (Utf8.encode cs) = decide (['\x00', '<'] <+: cs) :=
    isPrefixOf_encode (by decide) cs
  have hbehind : [0x3C, 0x00].isPrefixOf (Utf8.encode cs) = decide (['<', '\x00'] <+: cs) :=
    isPrefixOf_encode (by decide) cs
  unfold detect
  rw [hmark, hlittle, hbig, hbefore, hbehind]
  simp only [decide_eq_true_eq, Bool.false_eq_true, if_false]

/-- A mark that is not there is not taken off. -/
theorem body_of_not_prefix {layout : Layout} {input : List UInt8} (h : ¬ layout.mark <+: input) :
    layout.body input = input := by
  unfold body
  rw [stripFront?_eq_none_iff.2 h]
  rfl

theorem body_append (layout : Layout) (input : List UInt8) :
    layout.body (layout.mark ++ input) = input := by
  unfold body
  rw [stripFront?_append]
  rfl

end Layout

/-! ## Which texts have bytes -/

namespace Encoding

theorem encode_utf16 (text : String) :
    utf16.encode text =
      .ok ((Layout.utf16 .little).mark ++ (Layout.utf16 .little).bytes text.toList) := rfl

theorem encode_of_holds {encoding : Encoding} (hne : encoding ≠ .utf16) {text : String}
    (h : (Layout.ofEncoding encoding).Holds text.toList) :
    encoding.encode text = .ok (Utf8.encode text.toList) := by
  cases encoding with
  | utf16 => exact absurd rfl hne
  | utf8 => rfl
  | ascii =>
    have hnone : (text.toList.zipIdx.find? fun p => 0x80 ≤ p.1.toNat) = none := by
      rw [List.find?_eq_none]
      rintro ⟨c, index⟩ hc hhigh
      rw [decide_eq_true_eq] at hhigh
      exact Nat.not_le.2 (h c (List.fst_mem_of_mem_zipIdx hc)) hhigh
    unfold encode
    simp only [hnone]

/-- **Only ASCII has no bytes for some texts.** -/
theorem encode_eq_error_iff (encoding : Encoding) (text : String) :
    (∃ e, encoding.encode text = .error e) ↔
      encoding = .ascii ∧ ∃ c ∈ text.toList, 0x80 ≤ c.toNat := by
  constructor
  · rintro ⟨e, he⟩
    cases encoding with
    | utf16 => cases he
    | utf8 => cases he
    | ascii =>
      unfold encode at he
      simp only at he
      split at he
      · next c offset hfound =>
        have hmem := List.fst_mem_of_mem_zipIdx (List.mem_of_find?_eq_some hfound)
        exact ⟨rfl, c, hmem, by simpa using List.find?_some hfound⟩
      · cases he
  · rintro ⟨rfl, c, hc, hhigh⟩
    cases hfound : text.toList.zipIdx.find? fun p => 0x80 ≤ p.1.toNat with
    | none =>
      obtain ⟨index, hindex⟩ := List.getElem?_of_mem hc
      rw [List.find?_eq_none] at hfound
      have hlow := hfound (c, index) (List.mem_zipIdx_iff_getElem?.2 hindex)
      exact absurd (by simpa using hhigh) hlow
    | some found =>
      unfold encode
      simp only [hfound]
      exact ⟨_, rfl⟩

theorem encode_eq_of_ok {encoding : Encoding} (hne : encoding ≠ .utf16) {text : String}
    {bytes : List UInt8} (h : encoding.encode text = .ok bytes) :
    bytes = Utf8.encode text.toList ∧ (Layout.ofEncoding encoding).Holds text.toList := by
  have hholds : (Layout.ofEncoding encoding).Holds text.toList := by
    cases encoding with
    | utf16 => trivial
    | utf8 => trivial
    | ascii =>
      intro c hc
      apply Nat.lt_of_not_le
      intro hhigh
      obtain ⟨e, he⟩ := (encode_eq_error_iff .ascii text).2 ⟨rfl, c, hc, hhigh⟩
      rw [h] at he
      cases he
  rw [encode_of_holds hne hholds] at h
  exact ⟨(Except.ok.inj h).symm, hholds⟩

end Encoding

/-! ## Texts that pass for another layout -/

/-- The text starts with the character of the byte order mark, or with `<` and a zero beside it. -/
def Misleading (cs : List Char) : Prop :=
  ['\uFEFF'] <+: cs ∨ ['<', '\x00'] <+: cs ∨ ['\x00', '<'] <+: cs

instance (cs : List Char) : Decidable (Misleading cs) :=
  inferInstanceAs (Decidable (_ ∨ _ ∨ _))

/-- A text whose bytes in UTF-8 were zeros and then its bytes in UTF-16 would have to start with
zeros, and with even more of them behind each. -/
theorem encode_ne_replicate_append (cs : List Char) {zeros : Nat} (h : 0 < zeros) :
    Utf8.encode cs ≠ List.replicate zeros 0 ++ (Layout.utf16 .little).bytes cs := by
  induction cs generalizing zeros with
  | nil =>
    intro hbytes
    have hlength := congrArg List.length hbytes
    simp at hlength
    omega
  | cons c cs ih =>
    intro hbytes
    obtain ⟨less, rfl⟩ := Nat.exists_eq_add_one.2 h
    rw [List.replicate_succ, List.cons_append] at hbytes
    obtain ⟨d, more, hcs, hread⟩ := Utf8.exists_of_encode hbytes
    obtain ⟨rfl, rfl⟩ := List.cons.inj hcs
    have hzero : Utf8.readChar 0 (List.replicate less 0 ++ (Layout.utf16 .little).bytes (c :: cs)) =
        .ok ('\x00', List.replicate less 0 ++ (Layout.utf16 .little).bytes (c :: cs)) := rfl
    rw [hzero, Except.ok.injEq, Prod.mk.injEq] at hread
    obtain ⟨rfl, hback⟩ := hread
    -- a zero takes one byte in UTF-8 and two in UTF-16
    have hbytes' : (Layout.utf16 .little).bytes ('\x00' :: cs) =
        List.replicate 2 0 ++ (Layout.utf16 .little).bytes cs := rfl
    have hmore : 0 < less + 2 := by omega
    refine ih hmore ?_
    rw [← hback, hbytes', ← List.append_assoc, List.replicate_append_replicate]

namespace Encoding

theorem decode_eq (configured : Encoding) (input : List UInt8) :
    configured.decode input =
      (Layout.detect configured input).decode
        ((Layout.detect configured input).body input) := rfl

/-- What is taken for the layout that it is in is read back. -/
theorem decode_of_detect {configured : Encoding} {input : List UInt8} {layout : Layout}
    {text : String} (hdetect : Layout.detect configured input = layout)
    (hbody : layout.body input = layout.bytes text.toList) (hholds : layout.Holds text.toList) :
    configured.decode input = .ok text := by
  rw [decode_eq, hdetect, hbody]
  exact Layout.decode_bytes layout hholds

/-- What is taken for UTF-16 without a mark is read as a text with just these bytes. -/
theorem bytes_of_detect {configured : Encoding} {order : Utf16.ByteOrder} {text : String}
    (hdetect : Layout.detect configured (Utf8.encode text.toList) = .utf16 order)
    (h : configured.decode (Utf8.encode text.toList) = .ok text) :
    (Layout.utf16 order).bytes text.toList = Utf8.encode text.toList := by
  have hmark : ¬ (Layout.utf16 order).mark <+: Utf8.encode text.toList := by
    rw [← List.isPrefixOf_iff_prefix, Bool.not_eq_true]
    cases order with
    | little => exact Layout.isPrefixOf_encode_eq_false (by decide) _ _
    | big => exact Layout.isPrefixOf_encode_eq_false (by decide) _ _
  rw [decode_eq, hdetect, Layout.body_of_not_prefix hmark] at h
  exact Layout.bytes_of_decode h

/-- **A misleading text is not read back**, whatever the reader expects. -/
theorem decode_ne_of_misleading {text : String} (h : Misleading text.toList)
    (configured : Encoding) : configured.decode (Utf8.encode text.toList) ≠ .ok text := by
  intro hdecode
  have hdetect := Layout.detect_encode configured text.toList
  rcases h with hmark | hbehind | hbefore
  · -- the first character is lost
    obtain ⟨back, hback⟩ := hmark
    rw [if_pos ⟨back, hback⟩] at hdetect
    have hbody : Layout.body .utf8 (Utf8.encode text.toList) =
        Layout.bytes .utf8 (String.ofList back).toList := by
      rw [← hback, Utf8.encode_append, String.toList_ofList]
      exact Layout.body_append .utf8 (Utf8.encode back)
    rw [decode_of_detect hdetect hbody trivial] at hdecode
    rw [← Except.ok.inj hdecode, String.toList_ofList] at hback
    simpa using congrArg List.length hback
  · obtain ⟨back, hback⟩ := hbehind
    have hlittle : Layout.detect configured (Utf8.encode text.toList) = .utf16 .little := by
      rw [hdetect, ← hback]
      simp
    have hbytes := bytes_of_detect hlittle hdecode
    rw [← hback] at hbytes
    -- both start with `<` and a zero
    have htwo : 0 < 2 := by omega
    refine encode_ne_replicate_append back htwo ?_
    have hutf8 : Utf8.encode ('<' :: '\x00' :: back) = 0x3C :: 0x00 :: Utf8.encode back := rfl
    have hutf16 : (Layout.utf16 .little).bytes ('<' :: '\x00' :: back) =
        0x3C :: 0x00 :: (List.replicate 2 0 ++ (Layout.utf16 .little).bytes back) := rfl
    rw [List.cons_append, List.cons_append, List.nil_append, hutf8, hutf16] at hbytes
    simpa using hbytes.symm
  · obtain ⟨back, hback⟩ := hbefore
    have hbig : Layout.detect configured (Utf8.encode text.toList) = .utf16 .big := by
      rw [hdetect, ← hback]
      simp
    have hbytes := bytes_of_detect hbig hdecode
    rw [← hback] at hbytes
    -- the second byte is that of `<` in UTF-8 and a zero in UTF-16
    have hutf8 : Utf8.encode ('\x00' :: '<' :: back) = 0x00 :: 0x3C :: Utf8.encode back := rfl
    have hutf16 : (Layout.utf16 .big).bytes ('\x00' :: '<' :: back) =
        0x00 :: 0x00 :: (0x00 :: 0x3C :: (Layout.utf16 .big).bytes back) := rfl
    rw [List.cons_append, List.cons_append, List.nil_append, hutf8, hutf16] at hbytes
    simp at hbytes

/-- **When a text is read back.** Behind the mark of UTF-16 every text is, and without a mark every
text that does not mislead the reader. -/
theorem decode_of_encode {encoding configured : Encoding} {text : String} {bytes : List UInt8}
    (h : encoding.encode text = .ok bytes)
    (hread : encoding = .utf16 ∨ configured = encoding ∧ ¬ Misleading text.toList) :
    configured.decode bytes = .ok text := by
  by_cases hutf16 : encoding = .utf16
  · subst hutf16
    rw [encode_utf16] at h
    obtain rfl := Except.ok.inj h
    have hdetect : Layout.detect configured
        ((Layout.utf16 .little).mark ++ (Layout.utf16 .little).bytes text.toList) =
          .utf16 .little := rfl
    exact decode_of_detect hdetect (Layout.body_append _ _) trivial
  · obtain ⟨rfl, hholds⟩ := encode_eq_of_ok hutf16 h
    obtain ⟨rfl, hplain⟩ := hread.resolve_left hutf16
    unfold Misleading at hplain
    rw [not_or, not_or] at hplain
    obtain ⟨hmark, hbehind, hbefore⟩ := hplain
    have hdetect := Layout.detect_encode configured text.toList
    rw [if_neg hmark, if_neg hbefore, if_neg hbehind] at hdetect
    have hbody : (Layout.ofEncoding configured).body (Utf8.encode text.toList) =
        (Layout.ofEncoding configured).bytes text.toList := by
      cases configured with
      | utf16 => exact absurd rfl hutf16
      | utf8 =>
        have hencode : Utf8.encode ['\uFEFF'] = Layout.mark .utf8 := by decide
        refine Layout.body_of_not_prefix ?_
        show ¬ Layout.mark .utf8 <+: _
        rw [← hencode, Utf8.encode_prefix_iff]
        exact hmark
      | ascii => rfl
    exact decode_of_detect hdetect hbody hholds

/-- **Reading undoes writing**, whatever the reader expects if the text was written in UTF-16, and
otherwise just if the text misleads nobody; and only ASCII has texts that cannot be written. -/
theorem decode_encode_iff (encoding : Encoding) (text : String) :
    ((∃ e, encoding.encode text = .error e) ↔
      encoding = .ascii ∧ ∃ c ∈ text.toList, 0x80 ≤ c.toNat) ∧
    ∀ bytes, encoding.encode text = .ok bytes →
      (encoding = .utf16 → ∀ configured : Encoding, configured.decode bytes = .ok text) ∧
      (encoding = .utf8 ∨ encoding = .ascii →
        (encoding.decode bytes = .ok text ↔
          ¬ (['\uFEFF'] <+: text.toList ∨ ['<', '\x00'] <+: text.toList ∨
            ['\x00', '<'] <+: text.toList))) := by
  refine ⟨encode_eq_error_iff encoding text, fun bytes hbytes => ⟨?_, ?_⟩⟩
  · intro hutf16 configured
    exact decode_of_encode hbytes (.inl hutf16)
  · intro hplain
    have hne : encoding ≠ .utf16 := by
      rintro rfl
      simp at hplain
    constructor
    · intro hdecode hmisleading
      obtain ⟨rfl, -⟩ := encode_eq_of_ok hne hbytes
      exact decode_ne_of_misleading hmisleading encoding hdecode
    · intro hread
      exact decode_of_encode hbytes (.inr ⟨rfl, hread⟩)

/-- A surrogate pair for a reader that expects ASCII, and a `<` with a zero behind it. -/
theorem decode_encode_iff_pair_zero :
    (∃ bytes, utf16.encode "\uFEFF😀" = .ok bytes ∧ ascii.decode bytes = .ok "\uFEFF😀") ∧
    (∃ bytes, utf8.encode "<\x00\x00" = .ok bytes ∧ ['<', '\x00'] <+: "<\x00\x00".toList ∧
      utf8.decode bytes ≠ .ok "<\x00\x00") ∧
    (∃ bytes, ascii.encode "<a/>" = .ok bytes ∧ ascii.decode bytes = .ok "<a/>") := by
  refine ⟨⟨_, rfl, ?_⟩, ⟨_, rfl, by decide, ?_⟩, ⟨_, rfl, ?_⟩⟩
  · exact ((decode_encode_iff utf16 "\uFEFF😀").2 _ rfl).1 rfl ascii
  · intro hdecode
    exact (((decode_encode_iff utf8 "<\x00\x00").2 _ rfl).2 (.inl rfl)).1 hdecode
      (.inr (.inl (by decide)))
  · exact (((decode_encode_iff ascii "<a/>").2 _ rfl).2 (.inr rfl)).2 (by decide)

end Encoding

end Groundwork
