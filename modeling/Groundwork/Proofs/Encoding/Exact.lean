import Groundwork.Proofs.Encoding.RoundTrip

/-!
# `Proofs.Encoding.Exact` — just the bytes of texts are read

Reading takes a mark off and reads the rest in the layout that the bytes show. In each layout what
is read as a text are its bytes, so the rest can be had back from the text, and with the mark the
whole. Where no text is read there is none to be read, and each layout has its own reasons for it.

## Contents

* `Layout.decode_eq_ok_iff` — **in its layout, just the bytes of a text are read as that text.**
* `Layout.Refuses`, `refuses_of_decode`, `bytes_ne_of_refuses` — why bytes are no text.
* `Layout.input_eq`, `Layout.body_inj` — the mark and what is behind it.
* `Encoding.Exact`, `Encoding.decode_exact` — **what decoding keeps of any bytes.**
-/

namespace Groundwork

open Text

namespace Layout

/-! ## Bytes in a layout -/

/-- The characters of seven-bit bytes have these bytes. -/
theorem encode_ofNat_toNat {input : List UInt8} (h : ∀ b ∈ input, b.toNat < 0x80) :
    (∀ c ∈ input.map fun b => Char.ofNat b.toNat, c.toNat < 0x80) ∧
      Utf8.encode (input.map fun b => Char.ofNat b.toNat) = input := by
  have hchar : ∀ b ∈ input, (Char.ofNat b.toNat).toNat = b.toNat := by
    intro b hb
    have hlt := h b hb
    exact Utf16.toNat_ofNat (by omega)
  have hholds : ∀ c ∈ input.map fun b => Char.ofNat b.toNat, c.toNat < 0x80 := by
    rw [List.forall_mem_map]
    intro b hb
    rw [hchar b hb]
    exact h b hb
  refine ⟨hholds, ?_⟩
  rw [encode_of_ascii hholds, List.map_map]
  have hbyte : ∀ b ∈ input, UInt8.ofNat (Char.ofNat b.toNat).toNat = id b := by
    intro b hb
    rw [hchar b hb, UInt8.ofNat_toNat]
    rfl
  exact (List.map_congr_left hbyte).trans (List.map_id input)

theorem bytes_of_decodeAscii {input : List UInt8} {text : String}
    (h : decodeAscii input = .ok text) :
    Holds .ascii text.toList ∧ bytes .ascii text.toList = input := by
  unfold decodeAscii at h
  split at h
  · cases h
  · next hnone =>
    obtain rfl := Except.ok.inj h
    rw [List.find?_eq_none] at hnone
    rw [String.toList_ofList]
    refine encode_ofNat_toNat fun b hb => ?_
    obtain ⟨index, hindex⟩ := List.getElem?_of_mem hb
    have hlow := hnone (b, index) (List.mem_zipIdx_iff_getElem?.2 hindex)
    rw [decide_eq_true_eq, UInt8.le_iff_toNat_le] at hlow
    exact Nat.lt_of_not_le hlow

theorem bytes_of_decodeUtf8 {input : List UInt8} {text : String}
    (h : decodeUtf8 input = .ok text) : bytes .utf8 text.toList = input := by
  unfold decodeUtf8 at h
  split at h
  · next cs hcs =>
    obtain rfl := Except.ok.inj h
    rw [String.toList_ofList]
    exact Utf8.encode_of_decode hcs
  · cases h

/-- **In its layout, just the bytes of a text are read as that text.** -/
theorem decode_eq_ok_iff (layout : Layout) {input : List UInt8} {text : String} :
    layout.decode input = .ok text ↔
      layout.Holds text.toList ∧ layout.bytes text.toList = input := by
  constructor
  · intro h
    cases layout with
    | utf8 => exact ⟨trivial, bytes_of_decodeUtf8 h⟩
    | utf16 order => exact ⟨trivial, bytes_of_decode h⟩
    | ascii => exact bytes_of_decodeAscii h
  · rintro ⟨hholds, rfl⟩
    exact decode_bytes layout hholds

theorem exists_decode_eq_error_iff (layout : Layout) {input : List UInt8} :
    (∃ e, layout.decode input = .error e) ↔
      ¬ ∃ text : String, layout.Holds text.toList ∧ layout.bytes text.toList = input := by
  simp only [← layout.decode_eq_ok_iff]
  cases layout.decode input with
  | error e => simp
  | ok text => simp

/-! ## Bytes that are no text -/

/-- Why bytes are no text in this layout, by the error that tells of it. -/
inductive Refuses : Layout → List UInt8 → EncodingError → Prop where
  /-- Behind a text there are bytes with which no character starts. -/
  | illFormed {front : List Char} {back : List UInt8} {defect : Utf8.Defect} (hne : back ≠ [])
      (hback : ∀ c, ¬ String.utf8EncodeChar c <+: back) :
      Refuses .utf8 (Utf8.encode front ++ back)
        (.invalidUtf8 ⟨(Utf8.encode front).length, defect⟩)
  /-- There is no half of a unit. -/
  | odd {order : Utf16.ByteOrder} {input : List UInt8} (h : input.length % 2 = 1) :
      Refuses (.utf16 order) input (.oddLength order)
  /-- Half a pair stands alone. -/
  | lone {order : Utf16.ByteOrder} {units : List UInt16} (h : Utf16.HasLone units) :
      Refuses (.utf16 order) (Utf16.toBytes order units) (.loneSurrogate order)
  /-- Behind seven-bit bytes there is another. -/
  | high {front back : List UInt8} {byte : UInt8} (hfront : ∀ b ∈ front, b.toNat < 0x80)
      (h : 0x80 ≤ byte.toNat) :
      Refuses .ascii (front ++ byte :: back) (.invalidAscii byte front.length)

theorem refuses_of_decodeAscii {input : List UInt8} {e : EncodingError}
    (h : decodeAscii input = .error e) : Refuses .ascii input e := by
  unfold decodeAscii at h
  split at h
  · next byte index hfound =>
    obtain rfl := Except.error.inj h
    obtain ⟨hbyte, passed, others, hzip, hpassed⟩ := List.find?_eq_some_iff_append.1 hfound
    rw [decide_eq_true_eq, UInt8.le_iff_toNat_le] at hbyte
    -- the bytes that have been passed are numbered up to the one that is found
    obtain ⟨front, rest, rfl, rfl, hrest⟩ := List.zipIdx_eq_append_iff.1 hzip
    obtain ⟨first, back, rfl, hfirst, -⟩ := List.zipIdx_eq_cons_iff.1 hrest.symm
    obtain ⟨rfl, rfl⟩ := Prod.mk.inj hfirst
    rw [Nat.zero_add]
    refine .high (fun b hb => ?_) hbyte
    obtain ⟨index, hindex⟩ := List.getElem?_of_mem hb
    have hlow := hpassed (b, index) (List.mem_zipIdx_iff_getElem?.2 hindex)
    rw [Bool.not_eq_true', decide_eq_false_iff_not, UInt8.le_iff_toNat_le] at hlow
    exact Nat.lt_of_not_le hlow
  · cases h

theorem refuses_of_decodeUtf16 {order : Utf16.ByteOrder} {input : List UInt8} {e : EncodingError}
    (h : decodeUtf16 order input = .error e) : Refuses (.utf16 order) input e := by
  unfold decodeUtf16 at h
  split at h
  · next hodd =>
    obtain rfl := Except.error.inj h
    exact .odd (Utf16.ofBytes?_eq_none_iff.1 hodd)
  · next units hunits =>
    split at h
    · next hlone =>
      obtain rfl := Except.error.inj h
      rw [← Utf16.toBytes_of_ofBytes? hunits]
      exact .lone (Utf16.decode_eq_none_iff.1 hlone)
    · cases h

theorem refuses_of_decodeUtf8 {input : List UInt8} {e : EncodingError}
    (h : decodeUtf8 input = .error e) : Refuses .utf8 input e := by
  unfold decodeUtf8 at h
  split at h
  · cases h
  · next place hplace =>
    obtain rfl := Except.error.inj h
    obtain ⟨index, defect⟩ := place
    obtain ⟨front, back, rfl, rfl, hne, hback⟩ := Utf8.exists_of_decode_error hplace
    exact .illFormed hne hback

/-- An error tells the truth about the bytes. -/
theorem refuses_of_decode {layout : Layout} {input : List UInt8} {e : EncodingError}
    (h : layout.decode input = .error e) : layout.Refuses input e := by
  cases layout with
  | utf8 => exact refuses_of_decodeUtf8 h
  | utf16 order => exact refuses_of_decodeUtf16 h
  | ascii => exact refuses_of_decodeAscii h

/-- What an error tells of bytes holds of those of no text. -/
theorem bytes_ne_of_refuses {layout : Layout} {input : List UInt8} {e : EncodingError}
    (h : layout.Refuses input e) {cs : List Char} (hholds : layout.Holds cs) :
    layout.bytes cs ≠ input := by
  intro hbytes
  cases h with
  | illFormed hne hback =>
    -- what is left behind the text in front would be a text as well
    obtain ⟨more, -, rfl⟩ := Utf8.eq_append_of_encode hbytes
    cases more with
    | nil => exact hne rfl
    | cons c more => exact hback c (List.prefix_append _ _)
  | @odd order _ hodd =>
    rw [← hbytes] at hodd
    have hnone : Utf16.ofBytes? order (Utf16.toBytes order (Utf16.encode cs)) = none :=
      Utf16.ofBytes?_eq_none_iff.2 hodd
    rw [Utf16.ofBytes?_toBytes] at hnone
    cases hnone
  | @lone order units hlone =>
    have hunits := congrArg (Utf16.ofBytes? order) hbytes
    rw [bytes, Utf16.ofBytes?_toBytes, Utf16.ofBytes?_toBytes] at hunits
    have hnone := Utf16.decode_eq_none_iff.2 hlone
    rw [← Option.some.inj hunits, Utf16.decode_encode] at hnone
    cases hnone
  | @high front back byte hfront hbyte =>
    have hmem : byte ∈ bytes .ascii cs := hbytes ▸ List.mem_append_cons_self
    rw [bytes, encode_of_ascii hholds, List.mem_map] at hmem
    obtain ⟨c, hc, rfl⟩ := hmem
    have hlow := hholds c hc
    rw [Utf8.toNat_ofNat (by omega)] at hbyte
    omega

/-! ## The mark and what is behind it -/

/-- Nothing but a mark is taken off. -/
theorem input_eq (layout : Layout) (input : List UInt8) :
    layout.mark <+: input ∧ input = layout.mark ++ layout.body input ∨
      ¬ layout.mark <+: input ∧ input = layout.body input := by
  by_cases h : layout.mark <+: input
  · obtain ⟨rest, rfl⟩ := h
    rw [body_append]
    exact .inl ⟨List.prefix_append _ _, rfl⟩
  · have hbody := body_of_not_prefix h
    exact .inr ⟨h, hbody.symm⟩

/-- What is behind the mark fixes the whole, if it is known whether there is a mark. -/
theorem body_inj {layout : Layout} {input other : List UInt8}
    (hmark : layout.mark <+: other ↔ layout.mark <+: input)
    (hbody : layout.body other = layout.body input) : other = input := by
  rcases layout.input_eq input with ⟨hin, heq⟩ | ⟨hin, heq⟩
  · have hother := (layout.input_eq other).resolve_right fun h => h.1 (hmark.2 hin)
    rw [hother.2, hbody, ← heq]
  · have hother := (layout.input_eq other).resolve_left fun h => hin (hmark.1 h.1)
    rw [hother.2, hbody, ← heq]

end Layout

namespace Encoding

/-! ## Bytes for a reader -/

/-- A text is written as its bytes, in UTF-16 behind the mark. -/
theorem encode_of_bytes {encoding : Encoding} {text : String} {input : List UInt8}
    (hholds : (Layout.ofEncoding encoding).Holds text.toList)
    (hbytes : (Layout.ofEncoding encoding).bytes text.toList = input) :
    encoding.encode text =
      .ok ((if encoding = .utf16 then (Layout.ofEncoding encoding).mark else []) ++ input) := by
  subst hbytes
  cases encoding with
  | utf16 => exact encode_utf16 text
  | utf8 => rfl
  | ascii => exact encode_of_holds (by decide) hholds

/-- What reading some bytes in a layout has to do with texts in it. -/
structure Exact (configured : Encoding) (input : List UInt8) (layout : Layout) : Prop where
  /-- The mark is taken off where there is one, and nothing else is. -/
  input_eq : layout.mark <+: input ∧ input = layout.mark ++ layout.body input ∨
    ¬ layout.mark <+: input ∧ input = layout.body input
  /-- What is left are the bytes of the text, and the bytes of no text are left unread. -/
  decode_eq_ok_iff : ∀ text : String, configured.decode input = .ok text ↔
    layout.Holds text.toList ∧ layout.bytes text.toList = layout.body input
  /-- Writing the text puts back what is left. -/
  encode_of_decode : ∀ (text : String) (encoding : Encoding),
    configured.decode input = .ok text → Layout.ofEncoding encoding = layout →
      encoding.encode text =
        .ok ((if encoding = .utf16 then layout.mark else []) ++ layout.body input)
  /-- No other bytes in the layout, with a mark or without as these, are read as the text. -/
  eq_of_decode : ∀ (expected : Encoding) (other : List UInt8) (text : String),
    Layout.detect expected other = layout → (layout.mark <+: other ↔ layout.mark <+: input) →
      configured.decode input = .ok text → expected.decode other = .ok text → other = input
  /-- There is an error just if no text has these bytes, -/
  exists_decode_eq_error_iff : (∃ e, configured.decode input = .error e) ↔
    ¬ ∃ text : String, layout.Holds text.toList ∧ layout.bytes text.toList = layout.body input
  /-- and just if there is a reason for one. -/
  exists_refuses_iff : (∃ e, configured.decode input = .error e) ↔
    ∃ e, layout.Refuses (layout.body input) e
  refuses_of_decode : ∀ e, configured.decode input = .error e →
    layout.Refuses (layout.body input) e

/-- **What decoding keeps of any bytes**, for every reader: all but the mark of the layout that they
are taken for. -/
theorem decode_exact (configured : Encoding) (input : List UInt8) :
    configured.Exact input (Layout.detect configured input) where
  input_eq := Layout.input_eq _ input
  decode_eq_ok_iff text := by
    rw [decode_eq]
    exact Layout.decode_eq_ok_iff _
  encode_of_decode := by
    rintro text encoding hdecode hlayout
    rw [decode_eq, Layout.decode_eq_ok_iff, ← hlayout] at hdecode
    rw [← hlayout]
    exact encode_of_bytes hdecode.1 hdecode.2
  eq_of_decode := by
    intro expected other text hdetect hmark hdecode hother
    rw [decode_eq, Layout.decode_eq_ok_iff] at hdecode hother
    rw [hdetect] at hother
    -- both bodies are the bytes of the one text
    exact Layout.body_inj hmark (hother.2.symm.trans hdecode.2)
  exists_decode_eq_error_iff := by
    rw [decode_eq]
    exact Layout.exists_decode_eq_error_iff _
  exists_refuses_iff := by
    rw [decode_eq]
    constructor
    · rintro ⟨e, herror⟩
      exact ⟨e, Layout.refuses_of_decode herror⟩
    · rintro ⟨e, hrefuses⟩
      rw [Layout.exists_decode_eq_error_iff]
      rintro ⟨text, hholds, hbytes⟩
      exact Layout.bytes_ne_of_refuses hrefuses hholds hbytes
  refuses_of_decode := by
    intro e herror
    rw [decode_eq] at herror
    exact Layout.refuses_of_decode herror

/-- A surrogate pair behind the mark of the other byte order than the one that is written, read for
ASCII; and half a pair, which is the end of no text. -/
theorem decode_exact_pair :
    let pair : List UInt8 := [0xFE, 0xFF, 0xD8, 0x3D, 0xDE, 0x00]
    let half : List UInt8 := [0x61, 0x00, 0x3D, 0xD8]
    ascii.decode pair = .ok "😀" ∧
    (Layout.utf16 .big).bytes "😀".toList = [0xD8, 0x3D, 0xDE, 0x00] ∧
    (∀ other : List UInt8, Layout.detect utf8 other = .utf16 .big → [0xFE, 0xFF] <+: other →
      utf8.decode other = .ok "😀" → other = pair) ∧
    utf16.decode half = .error (.loneSurrogate .little) ∧
    ¬ ∃ text : String, (Layout.utf16 .little).bytes text.toList = half := by
  intro pair half
  have hpair : ascii.decode pair = .ok "😀" := rfl
  have hhalf : utf16.decode half = .error (.loneSurrogate .little) := rfl
  have hexact : ascii.Exact pair (.utf16 .big) := decode_exact ascii pair
  have hlone : utf16.Exact half (.utf16 .little) := decode_exact utf16 half
  refine ⟨hpair, ((hexact.decode_eq_ok_iff "😀").1 hpair).2, ?_, hhalf, ?_⟩
  · intro other hdetect hmark hother
    have hboth : (Layout.utf16 .big).mark <+: other ↔ (Layout.utf16 .big).mark <+: pair :=
      iff_of_true hmark ⟨_, rfl⟩
    exact hexact.eq_of_decode utf8 other "😀" hdetect hboth hpair hother
  · rintro ⟨text, htext⟩
    exact hlone.exists_decode_eq_error_iff.1 ⟨_, hhalf⟩ ⟨text, trivial, htext⟩

end Encoding

end Groundwork
