import Groundwork.Text.Utf16

/-!
# `Proofs.Text.Utf16` — a text and its UTF-16 bytes fix each other

Units that are surrogates and those that are characters by themselves lie in separate ranges, so a
sequence of units can be cut into characters in one way at most; and a pair of surrogates carries
just the bits of the number that it stands for. Two bytes carry just the bits of a unit. So both
steps, from characters to units and from units to bytes, can be undone, and nothing but the image of
a text is ever read as that text. What is read as none shows why: half a pair stands alone among the
units, or half a unit is left over of the bytes.

## Contents

* `decodeFrom_encodeChar`, `encodeChar_ofNat`, `encodeChar_ofPair` — one character.
* `decode_encode`, `encode_of_decode` — **a text and its units.**
* `Lone`, `HasLone`, `decode_eq_none_iff` — **units that are no text.**
* `ofBytes?_toBytes`, `toBytes_of_ofBytes?` — **units and their bytes, in either order.**
* `ofBytes?_eq_none_iff` — **bytes that are no units.**
-/

namespace Groundwork.Text.Utf16

/-! ## Surrogates -/

theorem isHigh_iff {u : UInt16} : isHigh u = true ↔ 0xD800 ≤ u.toNat ∧ u.toNat < 0xDC00 := by
  unfold isHigh
  rw [Bool.and_eq_true, decide_eq_true_eq, decide_eq_true_eq, UInt16.le_iff_toNat_le,
    UInt16.lt_iff_toNat_lt]
  exact Iff.rfl

theorem isLow_iff {u : UInt16} : isLow u = true ↔ 0xDC00 ≤ u.toNat ∧ u.toNat < 0xE000 := by
  unfold isLow
  rw [Bool.and_eq_true, decide_eq_true_eq, decide_eq_true_eq, UInt16.le_iff_toNat_le,
    UInt16.lt_iff_toNat_lt]
  exact Iff.rfl

theorem toNat_toUInt16 {n : Nat} (h : n < 0x10000) : n.toUInt16.toNat = n := by
  rw [Nat.toUInt16, UInt16.toNat_ofNat']
  exact Nat.mod_eq_of_lt h

theorem toNat_ofNat {n : Nat} (h : n < 0xD800 ∨ 0xDFFF < n ∧ n < 0x110000) :
    (Char.ofNat n).toNat = n := by
  have hvalid : n.isValidChar := h
  unfold Char.ofNat
  rw [dif_pos hvalid]
  rfl

/-! ## One character -/

/-- A unit that is no surrogate is a character by itself. -/
theorem decodeFrom_plain {u : UInt16} (hhigh : isHigh u = false) (hlow : isLow u = false)
    (passed : List Char) (units : List UInt16) :
    decodeFrom passed (u :: units) = decodeFrom (Char.ofNat u.toNat :: passed) units := by
  cases units with
  | nil => simp [decodeFrom, hhigh, hlow]
  | cons v units => simp [decodeFrom, hhigh, hlow]

theorem decodeFrom_pair {u v : UInt16} (hhigh : isHigh u = true) (hlow : isLow v = true)
    (passed : List Char) (units : List UInt16) :
    decodeFrom passed (u :: v :: units) = decodeFrom (ofPair u v :: passed) units := by
  simp [decodeFrom, hhigh, hlow]

/-- **A character is read back from its units.** -/
theorem decodeFrom_encodeChar (c : Char) (passed : List Char) (units : List UInt16) :
    decodeFrom passed (encodeChar c ++ units) = decodeFrom (c :: passed) units := by
  have hvalid : c.toNat < 0xD800 ∨ 0xDFFF < c.toNat ∧ c.toNat < 0x110000 := c.valid
  unfold encodeChar
  split
  · next hone =>
    have hunit := toNat_toUInt16 hone
    have hhigh : isHigh c.toNat.toUInt16 = false := by
      rw [Bool.eq_false_iff, Ne, isHigh_iff, hunit]
      omega
    have hlow : isLow c.toNat.toUInt16 = false := by
      rw [Bool.eq_false_iff, Ne, isLow_iff, hunit]
      omega
    rw [List.singleton_append, decodeFrom_plain hhigh hlow, hunit, Char.ofNat_toNat]
  · next htwo =>
    have hfirst : (0xD800 + (c.toNat - 0x10000) / 0x400).toUInt16.toNat =
        0xD800 + (c.toNat - 0x10000) / 0x400 := toNat_toUInt16 (by omega)
    have hsecond : (0xDC00 + (c.toNat - 0x10000) % 0x400).toUInt16.toNat =
        0xDC00 + (c.toNat - 0x10000) % 0x400 := toNat_toUInt16 (by omega)
    have hhigh : isHigh (0xD800 + (c.toNat - 0x10000) / 0x400).toUInt16 = true := by
      rw [isHigh_iff, hfirst]
      omega
    have hlow : isLow (0xDC00 + (c.toNat - 0x10000) % 0x400).toUInt16 = true := by
      rw [isLow_iff, hsecond]
      omega
    have hpair : ofPair (0xD800 + (c.toNat - 0x10000) / 0x400).toUInt16
        (0xDC00 + (c.toNat - 0x10000) % 0x400).toUInt16 = c := by
      rw [ofPair, hfirst, hsecond]
      have hnumber : 0x10000 + (0xD800 + (c.toNat - 0x10000) / 0x400 - 0xD800) * 0x400 +
          (0xDC00 + (c.toNat - 0x10000) % 0x400 - 0xDC00) = c.toNat := by
        omega
      rw [hnumber, Char.ofNat_toNat]
    show decodeFrom passed (_ :: _ :: units) = _
    rw [decodeFrom_pair hhigh hlow, hpair]

theorem encodeChar_ofNat {u : UInt16} (hhigh : isHigh u = false) (hlow : isLow u = false) :
    encodeChar (Char.ofNat u.toNat) = [u] := by
  have hlt := u.toNat_lt
  have hvalid : u.toNat < 0xD800 ∨ 0xDFFF < u.toNat ∧ u.toNat < 0x110000 := by
    rw [Bool.eq_false_iff, Ne, isHigh_iff] at hhigh
    rw [Bool.eq_false_iff, Ne, isLow_iff] at hlow
    omega
  unfold encodeChar
  rw [toNat_ofNat hvalid, if_pos hlt, Nat.toUInt16, UInt16.ofNat_toNat]

theorem encodeChar_ofPair {u v : UInt16} (hhigh : isHigh u = true) (hlow : isLow v = true) :
    encodeChar (ofPair u v) = [u, v] := by
  rw [isHigh_iff] at hhigh
  rw [isLow_iff] at hlow
  have hnumber : (ofPair u v).toNat =
      0x10000 + (u.toNat - 0xD800) * 0x400 + (v.toNat - 0xDC00) := toNat_ofNat (by omega)
  have hfirst : 0xD800 + ((ofPair u v).toNat - 0x10000) / 0x400 = u.toNat := by omega
  have hsecond : 0xDC00 + ((ofPair u v).toNat - 0x10000) % 0x400 = v.toNat := by omega
  unfold encodeChar
  rw [if_neg (by omega)]
  simp only [hfirst, hsecond, Nat.toUInt16, UInt16.ofNat_toNat]

/-! ## Whole texts -/

@[simp] theorem encode_nil : encode [] = [] := rfl

@[simp] theorem encode_cons (c : Char) (cs : List Char) :
    encode (c :: cs) = encodeChar c ++ encode cs := rfl

theorem decodeFrom_encode (passed cs : List Char) :
    decodeFrom passed (encode cs) = some (passed.reverse ++ cs) := by
  induction cs generalizing passed with
  | nil => simp [decodeFrom]
  | cons c cs ih =>
    rw [encode_cons, decodeFrom_encodeChar, ih]
    simp

/-- **A text is read back from its units.** -/
theorem decode_encode (cs : List Char) : decode (encode cs) = some cs := decodeFrom_encode [] cs

theorem exists_of_decodeFrom {passed cs : List Char} {units : List UInt16}
    (h : decodeFrom passed units = some cs) :
    ∃ more, cs = passed.reverse ++ more ∧ encode more = units := by
  fun_induction decodeFrom passed units with
  | case1 passed => exact ⟨[], by simpa using h.symm, rfl⟩
  | case2 passed u hlone => simp at h
  | case3 passed u hplain =>
    rw [Bool.not_eq_true, Bool.or_eq_false_iff] at hplain
    rw [Option.some.injEq] at h
    refine ⟨[Char.ofNat u.toNat], by simp [← h], ?_⟩
    rw [encode_cons, encodeChar_ofNat hplain.1 hplain.2]
    rfl
  | case4 passed u v units hhigh hlow ih =>
    obtain ⟨more, rfl, hmore⟩ := ih h
    refine ⟨ofPair u v :: more, by simp, ?_⟩
    rw [encode_cons, encodeChar_ofPair hhigh hlow, hmore]
    rfl
  | case5 passed u v units hhigh hlow => simp at h
  | case6 passed u v units hhigh hlow => simp at h
  | case7 passed u v units hhigh hlow ih =>
    obtain ⟨more, rfl, hmore⟩ := ih h
    refine ⟨Char.ofNat u.toNat :: more, by simp, ?_⟩
    rw [encode_cons, encodeChar_ofNat (by simpa using hhigh) (by simpa using hlow), hmore]
    rfl

/-- **A text has no units but its own.** -/
theorem encode_of_decode {cs : List Char} {units : List UInt16} (h : decode units = some cs) :
    encode cs = units := by
  obtain ⟨more, hcs, hunits⟩ := exists_of_decodeFrom h
  rw [hcs]
  exact hunits

/-! ## Surrogates without their other half -/

/-- Between these units, the unit is half a pair, and the other half is not beside it. -/
def Lone (front : List UInt16) (u : UInt16) (back : List UInt16) : Prop :=
  isHigh u = true ∧ (∀ v, back.head? = some v → isLow v = false) ∨
    isLow u = true ∧ ∀ v, front.getLast? = some v → isHigh v = false

/-- Half a pair stands alone somewhere among the units. -/
def HasLone (units : List UInt16) : Prop :=
  ∃ front u back, units = front ++ u :: back ∧ Lone front u back

theorem isHigh_eq_false_of_isLow {u : UInt16} (h : isLow u = true) : isHigh u = false := by
  rw [isLow_iff] at h
  rw [Bool.eq_false_iff, Ne, isHigh_iff]
  omega

/-- What is in front of a unit can only be its other half. -/
theorem Lone.of_append (before : List UInt16) {front back : List UInt16} {u : UInt16}
    (h : Lone (before ++ front) u back) : Lone front u back := by
  refine h.imp_right fun hlow => ⟨hlow.1, fun v hv => hlow.2 v ?_⟩
  rw [List.getLast?_append, hv, Option.some_or]

/-- A unit that is no surrogate does not stand alone. -/
theorem not_lone_of_plain {front back : List UInt16} {u : UInt16} (hhigh : isHigh u = false)
    (hlow : isLow u = false) : ¬ Lone front u back := by
  rintro (⟨h, -⟩ | ⟨h, -⟩)
  · exact Bool.false_ne_true (hhigh.symm.trans h)
  · exact Bool.false_ne_true (hlow.symm.trans h)

theorem decodeFrom_of_lone {passed : List Char} {units front back : List UInt16} {u : UInt16}
    (h : Lone front u back) (hunits : units = front ++ u :: back) :
    decodeFrom passed units = none := by
  fun_induction decodeFrom passed units generalizing front with
  | case1 passed => simp at hunits
  | case2 passed w hlone => rfl
  | case3 passed w hplain =>
    rw [Bool.not_eq_true, Bool.or_eq_false_iff] at hplain
    cases front with
    | nil =>
      obtain ⟨rfl, rfl⟩ := List.cons.inj hunits
      exact absurd h (not_lone_of_plain hplain.1 hplain.2)
    | cons first front => simp at hunits
  | case4 passed w v units hhigh hlow ih =>
    -- neither half of the pair is alone, so it is a later unit that is
    rcases front with _ | ⟨first, _ | ⟨second, front⟩⟩
    · obtain ⟨rfl, rfl⟩ := List.cons.inj hunits
      rcases h with ⟨-, hback⟩ | ⟨hsecond, -⟩
      · exact absurd (hback v rfl) (by simp [hlow])
      · exact absurd (isHigh_eq_false_of_isLow hsecond) (by simp [hhigh])
    · obtain ⟨rfl, hrest⟩ := List.cons.inj hunits
      obtain ⟨rfl, rfl⟩ := List.cons.inj hrest
      rcases h with ⟨hfirst, -⟩ | ⟨-, hfront⟩
      · exact absurd (isHigh_eq_false_of_isLow hlow) (by simp [hfirst])
      · exact absurd (hfront w rfl) (by simp [hhigh])
    · have hrest := (List.cons.inj (List.cons.inj hunits).2).2
      exact ih (h.of_append [first, second]) hrest
  | case5 passed w v units hhigh hlow => rfl
  | case6 passed w v units hhigh hlow => rfl
  | case7 passed w v units hhigh hlow ih =>
    cases front with
    | nil =>
      obtain ⟨rfl, rfl⟩ := List.cons.inj hunits
      exact absurd h (not_lone_of_plain (by simpa using hhigh) (by simpa using hlow))
    | cons first front => exact ih (h.of_append [first]) (List.cons.inj hunits).2

/-- Reading goes on only behind whole pairs and units that are no surrogates, so the units in front
never end with the first half of a pair. -/
theorem hasLone_of_decodeFrom {passed : List Char} {units : List UInt16}
    (h : decodeFrom passed units = none) (front : List UInt16)
    (hfront : ∀ v, front.getLast? = some v → isHigh v = false) : HasLone (front ++ units) := by
  fun_induction decodeFrom passed units generalizing front with
  | case1 passed => cases h
  | case2 passed u hlone =>
    refine ⟨front, u, [], rfl, ?_⟩
    rw [Bool.or_eq_true] at hlone
    exact hlone.imp (fun hhigh => ⟨hhigh, nofun⟩) fun hlow => ⟨hlow, hfront⟩
  | case3 passed u hplain => cases h
  | case4 passed u v units hhigh hlow ih =>
    have hmore := ih h (front ++ [u, v]) (by simp [isHigh_eq_false_of_isLow hlow])
    rwa [List.append_assoc] at hmore
  | case5 passed u v units hhigh hlow =>
    exact ⟨front, u, v :: units, rfl, .inl ⟨hhigh, by simpa using hlow⟩⟩
  | case6 passed u v units hhigh hlow => exact ⟨front, u, v :: units, rfl, .inr ⟨hlow, hfront⟩⟩
  | case7 passed u v units hhigh hlow ih =>
    have hmore := ih h (front ++ [u]) (by simpa using hhigh)
    rwa [List.append_assoc] at hmore

/-- **Units are no text just if a surrogate stands alone among them.** -/
theorem decode_eq_none_iff {units : List UInt16} : decode units = none ↔ HasLone units := by
  constructor
  · intro h
    exact hasLone_of_decodeFrom h [] nofun
  · rintro ⟨front, u, back, hunits, hlone⟩
    exact decodeFrom_of_lone hlone hunits

/-! ## Bytes -/

theorem toNat_little (a b : UInt8) :
    (unitOfBytes .little a b).toNat = b.toNat * 0x100 + a.toNat := by
  have ha := a.toNat_lt
  have hb := b.toNat_lt
  have hshift : b.toNat <<< 8 < 0x10000 := by
    rw [Nat.shiftLeft_eq]
    omega
  show (a.toUInt16 ||| b.toUInt16 <<< 8).toNat = _
  rw [UInt16.toNat_or, UInt16.toNat_shiftLeft, UInt8.toNat_toUInt16, UInt8.toNat_toUInt16]
  show a.toNat ||| b.toNat <<< 8 % 0x10000 = _
  rw [Nat.mod_eq_of_lt hshift, Nat.or_comm, ← Nat.shiftLeft_add_eq_or_of_lt ha, Nat.shiftLeft_eq]

/-- The orders differ in which byte comes first. -/
theorem unitOfBytes_big (a b : UInt8) : unitOfBytes .big a b = unitOfBytes .little b a :=
  UInt16.or_comm _ _

theorem toNat_high (u : UInt16) : (u >>> 8).toUInt8.toNat = u.toNat / 0x100 := by
  have hu := u.toNat_lt
  rw [UInt16.toNat_toUInt8, UInt16.toNat_shiftRight]
  show u.toNat >>> 8 % 0x100 = _
  rw [Nat.shiftRight_eq_div_pow]
  omega

/-- The two bytes of a unit make up the unit. -/
theorem little_unitBytes (u : UInt16) : unitOfBytes .little u.toUInt8 (u >>> 8).toUInt8 = u := by
  rw [← UInt16.toNat_inj, toNat_little, toNat_high, UInt16.toNat_toUInt8]
  omega

/-- Two bytes are the bytes of the unit that they make up. -/
theorem unitBytes_little (a b : UInt8) : unitBytes .little (unitOfBytes .little a b) = [a, b] := by
  have ha := a.toNat_lt
  have hlow : (unitOfBytes .little a b).toUInt8 = a := by
    rw [← UInt8.toNat_inj, UInt16.toNat_toUInt8, toNat_little]
    omega
  have hhigh : (unitOfBytes .little a b >>> 8).toUInt8 = b := by
    rw [← UInt8.toNat_inj, toNat_high, toNat_little]
    omega
  show [_, _] = _
  rw [hlow, hhigh]

theorem unitBytes_unitOfBytes (order : ByteOrder) (a b : UInt8) :
    unitBytes order (unitOfBytes order a b) = [a, b] := by
  cases order with
  | little => exact unitBytes_little a b
  | big =>
    rw [unitOfBytes_big]
    show (unitBytes .little (unitOfBytes .little b a)).reverse = _
    rw [unitBytes_little]
    rfl

@[simp] theorem toBytes_nil (order : ByteOrder) : toBytes order [] = [] := rfl

@[simp] theorem toBytes_cons (order : ByteOrder) (u : UInt16) (units : List UInt16) :
    toBytes order (u :: units) = unitBytes order u ++ toBytes order units := rfl

theorem ofBytesFrom_unitBytes (order : ByteOrder) (passed : List UInt16) (u : UInt16)
    (bytes : List UInt8) :
    ofBytesFrom order passed (unitBytes order u ++ bytes) =
      ofBytesFrom order (u :: passed) bytes := by
  cases order with
  | little =>
    show ofBytesFrom .little (unitOfBytes .little u.toUInt8 (u >>> 8).toUInt8 :: passed) bytes = _
    rw [little_unitBytes]
  | big =>
    show ofBytesFrom .big (unitOfBytes .big (u >>> 8).toUInt8 u.toUInt8 :: passed) bytes = _
    rw [unitOfBytes_big, little_unitBytes]

theorem ofBytesFrom_toBytes (order : ByteOrder) (passed units : List UInt16) :
    ofBytesFrom order passed (toBytes order units) = some (passed.reverse ++ units) := by
  induction units generalizing passed with
  | nil => simp [ofBytesFrom]
  | cons u units ih =>
    rw [toBytes_cons, ofBytesFrom_unitBytes, ih]
    simp

/-- **Units are read back from their bytes.** -/
theorem ofBytes?_toBytes (order : ByteOrder) (units : List UInt16) :
    ofBytes? order (toBytes order units) = some units := ofBytesFrom_toBytes order [] units

theorem exists_of_ofBytesFrom {order : ByteOrder} {passed units : List UInt16} {bytes : List UInt8}
    (h : ofBytesFrom order passed bytes = some units) :
    ∃ more, units = passed.reverse ++ more ∧ toBytes order more = bytes := by
  fun_induction ofBytesFrom order passed bytes with
  | case1 passed => exact ⟨[], by simpa using h.symm, rfl⟩
  | case2 passed b => simp at h
  | case3 passed a b bytes ih =>
    obtain ⟨more, rfl, hmore⟩ := ih h
    refine ⟨unitOfBytes order a b :: more, by simp, ?_⟩
    rw [toBytes_cons, unitBytes_unitOfBytes, hmore]
    rfl

/-- **Units have no bytes but their own.** -/
theorem toBytes_of_ofBytes? {order : ByteOrder} {units : List UInt16} {bytes : List UInt8}
    (h : ofBytes? order bytes = some units) : toBytes order units = bytes := by
  obtain ⟨more, hunits, hbytes⟩ := exists_of_ofBytesFrom h
  rw [hunits]
  exact hbytes

theorem ofBytesFrom_eq_none_iff {order : ByteOrder} {passed : List UInt16} {bytes : List UInt8} :
    ofBytesFrom order passed bytes = none ↔ bytes.length % 2 = 1 := by
  fun_induction ofBytesFrom order passed bytes with
  | case1 passed => simp
  | case2 passed b => simp
  | case3 passed a b bytes ih =>
    rw [ih, List.length_cons, List.length_cons]
    omega

/-- **Bytes are no units just if half a unit is left over.** -/
theorem ofBytes?_eq_none_iff {order : ByteOrder} {bytes : List UInt8} :
    ofBytes? order bytes = none ↔ bytes.length % 2 = 1 := ofBytesFrom_eq_none_iff

end Groundwork.Text.Utf16
