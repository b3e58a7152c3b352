import Groundwork.Proofs.Text.Utf16
import Groundwork.Text.Utf8

/-!
# `Proofs.Text.Utf8` — a text and its UTF-8 bytes fix each other

The first byte of a character fixes how many follow it and carries the highest bits of its number;
each of those that follow carries six more. The range that decoding asks of the second byte is
narrowed where a wider one would let in overlong forms, surrogates or numbers past the last code
point, so the bytes of a character lie in it. What is read at the front of some bytes depends on
those bytes alone; hence two texts with the same bytes are the same, from the first character on.
The ranges are just wide enough: what is read as a character are always its bytes. So a text has no
bytes but its own, and reading stops only where no character starts.

## Contents

* `readFollowing_cons`, `lead?_two`, `lead?_three`, `lead?_four` — one byte of a character.
* `readChar_utf8EncodeChar`, `decode_encode` — **characters and texts are read back.**
* `Leads`, `utf8EncodeChar_of_readChar`, `encode_of_decode` — **from no other bytes.**
* `eq_append_of_encode`, `encode_prefix_iff` — **what a text starts with shows in its bytes.**
* `exists_of_decode_error` — **where reading stops.**
-/

namespace Groundwork.Text.Utf8

/-! ## One byte of a character -/

theorem toNat_ofNat {n : Nat} (h : n < 0x100) : (UInt8.ofNat n).toNat = n := by
  rw [UInt8.toNat_ofNat']
  exact Nat.mod_eq_of_lt h

/-- A character of one byte. -/
theorem lead?_one {n : Nat} (h : n < 0x80) :
    lead? (UInt8.ofNat n) = some ⟨0, 0x80, 0xBF, n⟩ := by
  unfold lead?
  rw [toNat_ofNat (by omega)]
  exact if_pos h

/-- The first byte of a character of two bytes. -/
theorem lead?_two {n : Nat} (hlow : 2 ≤ n) (hhigh : n < 0x20) :
    lead? (UInt8.ofNat (n + 0xC0)) = some ⟨1, 0x80, 0xBF, n⟩ := by
  unfold lead?
  rw [toNat_ofNat (by omega)]
  simp only
  rw [if_neg (by omega), if_neg (by omega), if_pos (by omega), Nat.add_sub_cancel]

/-- The first byte of a character of three bytes; the range of the second depends on it. -/
theorem lead?_three : ∀ n < 0x10, lead? (UInt8.ofNat (n + 0xE0)) =
    some ⟨2, if n = 0 then 0xA0 else 0x80, if n = 0xD then 0x9F else 0xBF, n⟩ := by
  decide

/-- The first byte of a character of four bytes; the range of the second depends on it. -/
theorem lead?_four : ∀ n < 5, lead? (UInt8.ofNat (n + 0xF0)) =
    some ⟨3, if n = 0 then 0x90 else 0x80, if n = 4 then 0x8F else 0xBF, n⟩ := by
  decide

/-- A byte that carries six bits of a character is read, if it lies in the range asked for. -/
theorem readFollowing_cons {low high : UInt8} {n : Nat} (hn : n < 0x40)
    (hlow : low.toNat ≤ n + 0x80) (hhigh : n + 0x80 ≤ high.toNat) (seen value following : Nat)
    (bytes : List UInt8) :
    readFollowing low high seen value (following + 1) (UInt8.ofNat (n + 0x80) :: bytes) =
      readFollowing 0x80 0xBF (seen + 1) (value * 0x40 + n) following bytes := by
  have hbyte : (UInt8.ofNat (n + 0x80)).toNat = n + 0x80 := toNat_ofNat (by omega)
  have hin : (low ≤ UInt8.ofNat (n + 0x80) && UInt8.ofNat (n + 0x80) ≤ high) = true := by
    rw [Bool.and_eq_true, decide_eq_true_eq, decide_eq_true_eq, UInt8.le_iff_toNat_le,
      UInt8.le_iff_toNat_le, hbyte]
    exact ⟨hlow, hhigh⟩
  rw [readFollowing, if_pos hin, hbyte, Nat.add_sub_cancel]

/-- A byte in the range of all but the second. -/
theorem readFollowing_cons_plain {n : Nat} (hn : n < 0x40) (seen value following : Nat)
    (bytes : List UInt8) :
    readFollowing 0x80 0xBF seen value (following + 1) (UInt8.ofNat (n + 0x80) :: bytes) =
      readFollowing 0x80 0xBF (seen + 1) (value * 0x40 + n) following bytes :=
  readFollowing_cons hn (Nat.le_add_left _ _) (by show n + 0x80 ≤ 0xBF; omega) seen value
    following bytes

/-! ## Characters by the number of their bytes -/

/-- A character is read if its first byte and those behind it are. -/
theorem readChar_of_lead {b : UInt8} {bytes rest : List UInt8} {lead : Lead} {value : Nat}
    (hlead : lead? b = some lead)
    (hread : readFollowing lead.low lead.high 1 lead.bits lead.following bytes =
      .ok (value, rest)) : readChar b bytes = .ok (Char.ofNat value, rest) := by
  unfold readChar
  simp only [hlead, hread]

theorem readChar_one {n : Nat} (h : n < 0x80) (bytes : List UInt8) :
    readChar (UInt8.ofNat n) bytes = .ok (Char.ofNat n, bytes) :=
  readChar_of_lead (lead?_one h) rfl

theorem readChar_two {n : Nat} (hlow : 0x80 ≤ n) (hhigh : n < 0x800) (bytes : List UInt8) :
    readChar (UInt8.ofNat (n / 64 % 32 + 192)) (UInt8.ofNat (n % 64 + 128) :: bytes) =
      .ok (Char.ofNat n, bytes) := by
  have hvalue : n / 64 % 32 * 64 + n % 64 = n := by omega
  refine readChar_of_lead (lead?_two (by omega) (by omega)) ?_
  rw [readFollowing_cons_plain (by omega), readFollowing, hvalue]

/-- What three bytes can carry, apart from the surrogates. -/
theorem readChar_three {n : Nat} (hlow : 0x800 ≤ n) (hhigh : n < 0x10000)
    (hsurrogate : n < 0xD800 ∨ 0xDFFF < n) (bytes : List UInt8) :
    readChar (UInt8.ofNat (n / 4096 % 16 + 224))
        (UInt8.ofNat (n / 64 % 64 + 128) :: UInt8.ofNat (n % 64 + 128) :: bytes) =
      .ok (Char.ofNat n, bytes) := by
  have hvalue : (n / 4096 % 16 * 64 + n / 64 % 64) * 64 + n % 64 = n := by omega
  -- the narrowed ranges are those of overlong forms and of surrogates
  have hleast : (if n / 4096 % 16 = 0 then (0xA0 : UInt8) else 0x80).toNat ≤ n / 64 % 64 + 128 := by
    split
    · show 0xA0 ≤ _
      omega
    · exact Nat.le_add_left 0x80 _
  have hgreatest : n / 64 % 64 + 128 ≤
      (if n / 4096 % 16 = 13 then (0x9F : UInt8) else 0xBF).toNat := by
    split
    · show _ ≤ 0x9F
      omega
    · show _ ≤ 0xBF
      omega
  refine readChar_of_lead (lead?_three _ (by omega)) ?_
  rw [readFollowing_cons (by omega) hleast hgreatest, readFollowing_cons_plain (by omega),
    readFollowing, hvalue]

theorem readChar_four {n : Nat} (hlow : 0x10000 ≤ n) (hhigh : n < 0x110000) (bytes : List UInt8) :
    readChar (UInt8.ofNat (n / 262144 % 8 + 240))
        (UInt8.ofNat (n / 4096 % 64 + 128) :: UInt8.ofNat (n / 64 % 64 + 128) ::
          UInt8.ofNat (n % 64 + 128) :: bytes) =
      .ok (Char.ofNat n, bytes) := by
  have hvalue : ((n / 262144 % 8 * 64 + n / 4096 % 64) * 64 + n / 64 % 64) * 64 + n % 64 = n := by
    omega
  -- the narrowed ranges are those of overlong forms and of numbers past the last code point
  have hleast : (if n / 262144 % 8 = 0 then (0x90 : UInt8) else 0x80).toNat ≤
      n / 4096 % 64 + 128 := by
    split
    · show 0x90 ≤ _
      omega
    · exact Nat.le_add_left 0x80 _
  have hgreatest : n / 4096 % 64 + 128 ≤
      (if n / 262144 % 8 = 4 then (0x8F : UInt8) else 0xBF).toNat := by
    split
    · show _ ≤ 0x8F
      omega
    · show _ ≤ 0xBF
      omega
  refine readChar_of_lead (lead?_four _ (by omega)) ?_
  rw [readFollowing_cons (by omega) hleast hgreatest, readFollowing_cons_plain (by omega),
    readFollowing_cons_plain (by omega), readFollowing, hvalue]

/-- **A character is read back from its bytes**, whatever follows them. -/
theorem readChar_utf8EncodeChar (c : Char) (bytes : List UInt8) :
    ∃ b more, String.utf8EncodeChar c = b :: more ∧
      readChar b (more ++ bytes) = .ok (c, bytes) := by
  have hval : c.val.toNat = c.toNat := rfl
  have hvalid : c.toNat < 0xD800 ∨ 0xDFFF < c.toNat ∧ c.toNat < 0x110000 := c.valid
  unfold String.utf8EncodeChar
  simp only [hval]
  have hread {b : UInt8} {more : List UInt8}
      (h : readChar b (more ++ bytes) = .ok (Char.ofNat c.toNat, bytes)) :
      ∃ b' more', b :: more = b' :: more' ∧ readChar b' (more' ++ bytes) = .ok (c, bytes) := by
    rw [Char.ofNat_toNat] at h
    exact ⟨b, more, rfl, h⟩
  split
  · exact hread (readChar_one (by omega) bytes)
  split
  · exact hread (readChar_two (by omega) (by omega) bytes)
  split
  · exact hread (readChar_three (by omega) (by omega) (by omega) bytes)
  · exact hread (readChar_four (by omega) (by omega) bytes)

/-! ## What is read as a character -/

/-- The first bytes that a character can have, by the number of those that follow. -/
inductive Leads : UInt8 → Lead → Prop where
  | one {n : Nat} (h : n < 0x80) : Leads (UInt8.ofNat n) ⟨0, 0x80, 0xBF, n⟩
  | two {n : Nat} (hlow : 2 ≤ n) (hhigh : n < 0x20) :
      Leads (UInt8.ofNat (n + 0xC0)) ⟨1, 0x80, 0xBF, n⟩
  | three {n : Nat} (h : n < 0x10) :
      Leads (UInt8.ofNat (n + 0xE0))
        ⟨2, if n = 0 then 0xA0 else 0x80, if n = 0xD then 0x9F else 0xBF, n⟩
  | four {n : Nat} (h : n < 5) :
      Leads (UInt8.ofNat (n + 0xF0))
        ⟨3, if n = 0 then 0x90 else 0x80, if n = 4 then 0x8F else 0xBF, n⟩

theorem Leads.lead?_eq {b : UInt8} {lead : Lead} (h : Leads b lead) : lead? b = some lead := by
  cases h with
  | one h => exact lead?_one h
  | two hlow hhigh => exact lead?_two hlow hhigh
  | three h => exact lead?_three _ h
  | four h => exact lead?_four _ h

theorem ofNat_sub_add {b : UInt8} {base : Nat} (h : base ≤ b.toNat) :
    UInt8.ofNat (b.toNat - base + base) = b := by
  rw [Nat.sub_add_cancel h, UInt8.ofNat_toNat]

/-- Between the bytes of one-byte characters and the other first bytes lie those that follow one,
and two that could only start overlong forms. -/
theorem bounds_of_lead? {b : UInt8} {lead : Lead} (h : lead? b = some lead) :
    b.toNat < 0x80 ∨ 0xC2 ≤ b.toNat ∧ b.toNat < 0xF5 := by
  unfold lead? at h
  grind

/-- All bytes within these bounds are first bytes. -/
theorem exists_leads {b : UInt8} (h : b.toNat < 0x80 ∨ 0xC2 ≤ b.toNat ∧ b.toNat < 0xF5) :
    ∃ lead, Leads b lead := by
  by_cases hone : b.toNat < 0x80
  · have hleads := Leads.one hone
    rw [UInt8.ofNat_toNat] at hleads
    exact ⟨_, hleads⟩
  by_cases htwo : b.toNat < 0xE0
  · have hleads := Leads.two (n := b.toNat - 0xC0) (by omega) (by omega)
    rw [ofNat_sub_add (by omega)] at hleads
    exact ⟨_, hleads⟩
  by_cases hthree : b.toNat < 0xF0
  · have hleads := Leads.three (n := b.toNat - 0xE0) (by omega)
    rw [ofNat_sub_add (by omega)] at hleads
    exact ⟨_, hleads⟩
  · have hleads := Leads.four (n := b.toNat - 0xF0) (by omega)
    rw [ofNat_sub_add (by omega)] at hleads
    exact ⟨_, hleads⟩

/-- What the first byte of a character says is said of no other. -/
theorem leads_of_lead? {b : UInt8} {lead : Lead} (h : lead? b = some lead) : Leads b lead := by
  obtain ⟨other, hother⟩ := exists_leads (bounds_of_lead? h)
  rw [hother.lead?_eq] at h
  exact Option.some.inj h ▸ hother

/-- A byte behind the first carries six bits of the character. -/
theorem exists_of_readFollowing {low high : UInt8} {seen value following number : Nat}
    {bytes rest : List UInt8} (hlow : 0x80 ≤ low.toNat) (hhigh : high.toNat ≤ 0xBF)
    (h : readFollowing low high seen value (following + 1) bytes = .ok (number, rest)) :
    ∃ n more, n < 0x40 ∧ low.toNat ≤ n + 0x80 ∧ n + 0x80 ≤ high.toNat ∧
      bytes = UInt8.ofNat (n + 0x80) :: more ∧
      readFollowing 0x80 0xBF (seen + 1) (value * 0x40 + n) following more =
        .ok (number, rest) := by
  cases bytes with
  | nil => cases h
  | cons b more =>
    rw [readFollowing] at h
    split at h
    · next hin =>
      rw [Bool.and_eq_true, decide_eq_true_eq, decide_eq_true_eq, UInt8.le_iff_toNat_le,
        UInt8.le_iff_toNat_le] at hin
      refine ⟨b.toNat - 0x80, more, by omega, by omega, by omega, ?_, h⟩
      rw [ofNat_sub_add (by omega)]
    · cases h

theorem exists_of_readFollowing_plain {seen value following number : Nat} {bytes rest : List UInt8}
    (h : readFollowing 0x80 0xBF seen value (following + 1) bytes = .ok (number, rest)) :
    ∃ n more, n < 0x40 ∧ bytes = UInt8.ofNat (n + 0x80) :: more ∧
      readFollowing 0x80 0xBF (seen + 1) (value * 0x40 + n) following more =
        .ok (number, rest) := by
  obtain ⟨n, more, hn, -, -, hbytes, hread⟩ := exists_of_readFollowing (by decide) (by decide) h
  exact ⟨n, more, hn, hbytes, hread⟩

/-- A number outside the gap of the surrogates, up to the last code point, is a character's. -/
theorem toNat_charOfNat {n : Nat} (h : n < 0xD800 ∨ 0xDFFF < n ∧ n < 0x110000) :
    (Char.ofNat n).val.toNat = n := Utf16.toNat_ofNat h

theorem utf8EncodeChar_one {n : Nat} (h : n < 0x80) :
    String.utf8EncodeChar (Char.ofNat n) = [UInt8.ofNat n] := by
  unfold String.utf8EncodeChar
  rw [toNat_charOfNat (by omega)]
  exact if_pos (by omega)

theorem utf8EncodeChar_two {a b : Nat} (hlow : 2 ≤ a) (hhigh : a < 0x20) (hb : b < 0x40) :
    String.utf8EncodeChar (Char.ofNat (a * 0x40 + b)) =
      [UInt8.ofNat (a + 0xC0), UInt8.ofNat (b + 0x80)] := by
  have hfirst : (a * 0x40 + b) / 64 % 32 = a := by omega
  have hsecond : (a * 0x40 + b) % 64 = b := by omega
  unfold String.utf8EncodeChar
  rw [toNat_charOfNat (by omega)]
  simp only
  rw [if_neg (by omega), if_pos (by omega), hfirst, hsecond]

/-- The second byte shuts out overlong forms and surrogates. -/
theorem utf8EncodeChar_three {a b c : Nat} (ha : a < 0x10) (hb : b < 0x40) (hc : c < 0x40)
    (hlow : a = 0 → 0x20 ≤ b) (hsurrogate : a = 0xD → b < 0x20) :
    String.utf8EncodeChar (Char.ofNat ((a * 0x40 + b) * 0x40 + c)) =
      [UInt8.ofNat (a + 0xE0), UInt8.ofNat (b + 0x80), UInt8.ofNat (c + 0x80)] := by
  have hfirst : ((a * 0x40 + b) * 0x40 + c) / 4096 % 16 = a := by omega
  have hsecond : ((a * 0x40 + b) * 0x40 + c) / 64 % 64 = b := by omega
  have hthird : ((a * 0x40 + b) * 0x40 + c) % 64 = c := by omega
  unfold String.utf8EncodeChar
  rw [toNat_charOfNat (by omega)]
  simp only
  rw [if_neg (by omega), if_neg (by omega), if_pos (by omega), hfirst, hsecond, hthird]

/-- The second byte shuts out overlong forms and numbers past the last code point. -/
theorem utf8EncodeChar_four {a b c d : Nat} (ha : a < 5) (hb : b < 0x40) (hc : c < 0x40)
    (hd : d < 0x40) (hlow : a = 0 → 0x10 ≤ b) (hhigh : a = 4 → b < 0x10) :
    String.utf8EncodeChar (Char.ofNat (((a * 0x40 + b) * 0x40 + c) * 0x40 + d)) =
      [UInt8.ofNat (a + 0xF0), UInt8.ofNat (b + 0x80), UInt8.ofNat (c + 0x80),
        UInt8.ofNat (d + 0x80)] := by
  have hfirst : (((a * 0x40 + b) * 0x40 + c) * 0x40 + d) / 262144 % 8 = a := by omega
  have hsecond : (((a * 0x40 + b) * 0x40 + c) * 0x40 + d) / 4096 % 64 = b := by omega
  have hthird : (((a * 0x40 + b) * 0x40 + c) * 0x40 + d) / 64 % 64 = c := by omega
  have hfourth : (((a * 0x40 + b) * 0x40 + c) * 0x40 + d) % 64 = d := by omega
  unfold String.utf8EncodeChar
  rw [toNat_charOfNat (by omega)]
  simp only
  rw [if_neg (by omega), if_neg (by omega), if_neg (by omega), hfirst, hsecond, hthird, hfourth]

theorem exists_of_readChar {b : UInt8} {bytes rest : List UInt8} {c : Char}
    (h : readChar b bytes = .ok (c, rest)) :
    ∃ lead number, Leads b lead ∧
      readFollowing lead.low lead.high 1 lead.bits lead.following bytes = .ok (number, rest) ∧
      c = Char.ofNat number := by
  unfold readChar at h
  split at h
  · cases h
  · next lead hlead =>
    split at h
    · next number after hread =>
      obtain ⟨rfl, rfl⟩ := Prod.mk.inj (Except.ok.inj h)
      exact ⟨lead, number, leads_of_lead? hlead, hread, rfl⟩
    · cases h

/-- **What is read as a character are its bytes.** -/
theorem utf8EncodeChar_of_readChar {b : UInt8} {bytes rest : List UInt8} {c : Char}
    (h : readChar b bytes = .ok (c, rest)) : String.utf8EncodeChar c ++ rest = b :: bytes := by
  obtain ⟨lead, number, hleads, hread, rfl⟩ := exists_of_readChar h
  -- one more byte is taken off in each case, until the number is complete
  cases hleads with
  | one hn =>
    obtain ⟨rfl, rfl⟩ := Prod.mk.inj (Except.ok.inj hread)
    rw [utf8EncodeChar_one hn]
    rfl
  | two hlow hhigh =>
    obtain ⟨m, more, hm, rfl, hsecond⟩ := exists_of_readFollowing_plain hread
    obtain ⟨rfl, rfl⟩ := Prod.mk.inj (Except.ok.inj hsecond)
    rw [utf8EncodeChar_two hlow hhigh hm]
    rfl
  | three hn =>
    dsimp only at hread
    obtain ⟨m, more, hm, hlow, hhigh, rfl, hsecond⟩ :=
      exists_of_readFollowing (by split <;> decide) (by split <;> decide) hread
    obtain ⟨k, more, hk, rfl, hthird⟩ := exists_of_readFollowing_plain hsecond
    obtain ⟨rfl, rfl⟩ := Prod.mk.inj (Except.ok.inj hthird)
    simp only [apply_ite UInt8.toNat, UInt8.reduceToNat] at hlow hhigh
    rw [utf8EncodeChar_three hn hm hk (by grind) (by grind)]
    rfl
  | four hn =>
    dsimp only at hread
    obtain ⟨m, more, hm, hlow, hhigh, rfl, hsecond⟩ :=
      exists_of_readFollowing (by split <;> decide) (by split <;> decide) hread
    obtain ⟨k, more, hk, rfl, hthird⟩ := exists_of_readFollowing_plain hsecond
    obtain ⟨l, more, hl, rfl, hfourth⟩ := exists_of_readFollowing_plain hthird
    obtain ⟨rfl, rfl⟩ := Prod.mk.inj (Except.ok.inj hfourth)
    simp only [apply_ite UInt8.toNat, UInt8.reduceToNat] at hlow hhigh
    rw [utf8EncodeChar_four hn hm hk hl (by grind) (by grind)]
    rfl

/-! ## Whole texts -/

@[simp] theorem encode_nil : encode [] = [] := rfl

@[simp] theorem encode_cons (c : Char) (cs : List Char) :
    encode (c :: cs) = String.utf8EncodeChar c ++ encode cs := rfl

theorem decodeFrom_cons {index : Nat} {passed : List Char} {b : UInt8} {bytes rest : List UInt8}
    {c : Char} (h : readChar b bytes = .ok (c, rest)) :
    decodeFrom index passed (b :: bytes) = decodeFrom (index + c.utf8Size) (c :: passed) rest := by
  rw [decodeFrom]
  split
  · next defect herror => simp [h] at herror
  · next found after hfound =>
    rw [h, Except.ok.injEq, Prod.mk.injEq] at hfound
    rw [hfound.1, hfound.2]

theorem decodeFrom_encode (index : Nat) (passed cs : List Char) :
    decodeFrom index passed (encode cs) = .ok (passed.reverse ++ cs) := by
  induction cs generalizing index passed with
  | nil => simp [decodeFrom]
  | cons c cs ih =>
    obtain ⟨b, more, hbytes, hread⟩ := readChar_utf8EncodeChar c (encode cs)
    rw [encode_cons, hbytes, List.cons_append, decodeFrom_cons hread, ih]
    simp

/-- **A text is read back from its bytes.** -/
theorem decode_encode (cs : List Char) : decode (encode cs) = .ok cs := decodeFrom_encode 0 [] cs

/-- What can be read at the front of the bytes of a text is its first character. -/
theorem exists_of_encode {cs : List Char} {b : UInt8} {bytes : List UInt8}
    (h : encode cs = b :: bytes) :
    ∃ c more, cs = c :: more ∧ readChar b bytes = .ok (c, encode more) := by
  cases cs with
  | nil => cases h
  | cons c more =>
    obtain ⟨b', bytes', hbytes, hread⟩ := readChar_utf8EncodeChar c (encode more)
    rw [encode_cons, hbytes, List.cons_append, List.cons.injEq] at h
    rw [h.1, h.2] at hread
    exact ⟨c, more, rfl, hread⟩

/-- **What a text starts with shows in its bytes.** -/
theorem eq_append_of_encode {front cs : List Char} {bytes : List UInt8}
    (h : encode cs = encode front ++ bytes) : ∃ back, cs = front ++ back ∧ bytes = encode back := by
  induction front generalizing cs with
  | nil => exact ⟨cs, rfl, h.symm⟩
  | cons c front ih =>
    obtain ⟨b, more, hbytes, hread⟩ := readChar_utf8EncodeChar c (encode front ++ bytes)
    rw [encode_cons, hbytes, List.cons_append, List.cons_append, List.append_assoc] at h
    obtain ⟨d, others, rfl, hfirst⟩ := exists_of_encode h
    rw [hread, Except.ok.injEq, Prod.mk.injEq] at hfirst
    obtain ⟨back, rfl, hback⟩ := ih hfirst.2.symm
    exact ⟨back, by rw [hfirst.1, List.cons_append], hback⟩

theorem encode_append (front back : List Char) :
    encode (front ++ back) = encode front ++ encode back := List.flatMap_append

/-- **A text starts with another exactly if its bytes do.** -/
theorem encode_prefix_iff {front cs : List Char} : encode front <+: encode cs ↔ front <+: cs := by
  constructor
  · rintro ⟨bytes, hbytes⟩
    obtain ⟨back, rfl, -⟩ := eq_append_of_encode hbytes.symm
    exact List.prefix_append front back
  · rintro ⟨back, rfl⟩
    exact ⟨encode back, (encode_append front back).symm⟩

/-! ## What is read as a text -/

theorem exists_of_decodeFrom {index : Nat} {passed cs : List Char} {bytes : List UInt8}
    (h : decodeFrom index passed bytes = .ok cs) :
    ∃ more, cs = passed.reverse ++ more ∧ encode more = bytes := by
  fun_induction decodeFrom index passed bytes with
  | case1 index passed => exact ⟨[], by simpa using (Except.ok.inj h).symm, rfl⟩
  | case2 index passed b bytes defect herror => cases h
  | case3 index passed b bytes c rest hread _ ih =>
    obtain ⟨more, rfl, hmore⟩ := ih h
    refine ⟨c :: more, by simp, ?_⟩
    rw [encode_cons, hmore, utf8EncodeChar_of_readChar hread]

/-- **A text has no bytes but its own.** -/
theorem encode_of_decode {bytes : List UInt8} {cs : List Char} (h : decode bytes = .ok cs) :
    encode cs = bytes := by
  obtain ⟨more, hcs, hbytes⟩ := exists_of_decodeFrom h
  rw [hcs]
  exact hbytes

theorem exists_of_decodeFrom_error {index : Nat} {passed : List Char} {bytes : List UInt8}
    {place : Malformed} (h : decodeFrom index passed bytes = .error place) :
    ∃ front back, bytes = encode front ++ back ∧ place.index = index + (encode front).length ∧
      back ≠ [] ∧ ∀ c, ¬ String.utf8EncodeChar c <+: back := by
  fun_induction decodeFrom index passed bytes with
  | case1 index passed => cases h
  | case2 index passed b bytes defect herror =>
    obtain rfl := Except.error.inj h
    refine ⟨[], b :: bytes, rfl, rfl, List.cons_ne_nil _ _, ?_⟩
    rintro c ⟨rest, hrest⟩
    obtain ⟨b', more, hbytes, hread⟩ := readChar_utf8EncodeChar c rest
    rw [hbytes, List.cons_append, List.cons.injEq] at hrest
    rw [hrest.1, hrest.2, herror] at hread
    cases hread
  | case3 index passed b bytes c rest hread _ ih =>
    obtain ⟨front, back, rfl, hindex, hne, hback⟩ := ih h
    refine ⟨c :: front, back, ?_, ?_, hne, hback⟩
    · rw [encode_cons, List.append_assoc, utf8EncodeChar_of_readChar hread]
    · rw [hindex, encode_cons, List.length_append, String.length_utf8EncodeChar, Nat.add_assoc]

/-- **Reading stops behind a text**, at bytes with which no character starts. -/
theorem exists_of_decode_error {bytes : List UInt8} {place : Malformed}
    (h : decode bytes = .error place) :
    ∃ front back, bytes = encode front ++ back ∧ place.index = (encode front).length ∧
      back ≠ [] ∧ ∀ c, ¬ String.utf8EncodeChar c <+: back := by
  obtain ⟨front, back, hbytes, hindex, hback⟩ := exists_of_decodeFrom_error h
  exact ⟨front, back, hbytes, by rw [hindex, Nat.zero_add], hback⟩

end Groundwork.Text.Utf8
