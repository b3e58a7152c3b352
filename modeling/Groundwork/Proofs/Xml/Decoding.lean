import Groundwork.Proofs.Xml.Reference
import Mathlib.Data.List.Forall2
import Mathlib.Data.Nat.Digits.Defs

/-!
# `Proofs.Xml.Decoding` — which texts can be decoded, and to what

A reference is written with an ampersand in front and a semicolon behind. In between stands one of
five names, or a number in digits that is the number of a character which a document may hold. A
text can be decoded exactly if every ampersand in it starts a reference; decoding puts the
characters in place of the references and changes nothing else. One thing more is taken than digits
alone: a plus sign in front of them. So the grammar is told with the signs that it allows, and the
two that there are differ in the texts that hold an opening with a plus sign, and in no others.

## Contents

* `Writes`, `number?_eq_some_iff` — digits and the number that they write, however many they are.
* `Denotes`, `resolve_eq_ok_iff` — **what a single reference stands for.**
* `Replaced`, `Referring` — a text with its references replaced, and where ampersands may stand.
* `decode_eq_ok_iff_replaced` — **decoding takes and replaces exactly the references.**
* `decode_plus` — a number that is not written in digits alone.
-/

namespace Groundwork.Xml.Reference

/-! ## Digits -/

/-- The digits of base sixteen in ascending order. -/
def lowerDigits : List Char :=
  ['0', '1', '2', '3', '4', '5', '6', '7', '8', '9', 'a', 'b', 'c', 'd', 'e', 'f']

/-- The digits of base sixteen in ascending order, with capital letters. -/
def upperDigits : List Char :=
  ['0', '1', '2', '3', '4', '5', '6', '7', '8', '9', 'A', 'B', 'C', 'D', 'E', 'F']

/-- The character is the digit for `value` in a base up to sixteen. -/
def IsDigit (base : Nat) (c : Char) (value : Nat) : Prop :=
  value < base ∧ (lowerDigits[value]? = some c ∨ upperDigits[value]? = some c)

theorem digitValue?_sixteen {c : Char} {value : Nat} (h : digitValue? 16 c = some value) :
    lowerDigits[value]? = some c ∨ upperDigits[value]? = some c := by
  -- a run of digits in the table of characters, the first of them `offset` places into the digits
  have hrun (first : Char) (offset count : Nat) (digits : List Char)
      (hdigits : ∀ k < count, digits[k + offset]? = some (Char.ofNat (first.toNat + k)))
      (hfirst : first.toNat ≤ c.toNat) (hlast : c.toNat < first.toNat + count)
      (hvalue : c.toNat - first.toNat + offset = value) : digits[value]? = some c := by
    have hk := hdigits (c.toNat - first.toNat) (by omega)
    rw [Nat.add_sub_cancel' hfirst, Char.ofNat_toNat, hvalue] at hk
    exact hk
  have hle (a b : Char) : a ≤ b ↔ a.toNat ≤ b.toNat := Iff.rfl
  have hsome {n : Nat} (h : (if n < 16 then some n else none) = some value) : n = value := by
    simpa using (Option.ite_none_right_eq_some.1 h).2
  unfold digitValue? at h
  dsimp only at h
  split at h
  · next hc =>
    simp only [Char.isDigit, Bool.and_eq_true, decide_eq_true_eq] at hc
    exact .inl (hrun '0' 0 10 lowerDigits (by decide) hc.1 (Nat.lt_succ_of_le hc.2) (hsome h))
  split at h
  · next hc =>
    simp only [Bool.and_eq_true, decide_eq_true_eq, hle] at hc
    exact .inl (hrun 'a' 10 6 lowerDigits (by decide) hc.1 (Nat.lt_succ_of_le hc.2) (hsome h))
  split at h
  · next hc =>
    simp only [Bool.and_eq_true, decide_eq_true_eq, hle] at hc
    exact .inr (hrun 'A' 10 6 upperDigits (by decide) hc.1 (Nat.lt_succ_of_le hc.2) (hsome h))
  · cases h

/-- **The value of a digit is its place among the digits.** -/
theorem digitValue?_eq_some_iff {base : Nat} (hbase : base ≤ 16) {c : Char} {value : Nat} :
    digitValue? base c = some value ↔ IsDigit base c value := by
  have hplace : digitValue? 16 c = some value ↔
      lowerDigits[value]? = some c ∨ upperDigits[value]? = some c := by
    refine ⟨digitValue?_sixteen, ?_⟩
    have hlower : ∀ v < 16, (lowerDigits[v]?).bind (digitValue? 16) = some v := by decide
    have hupper : ∀ v < 16, (upperDigits[v]?).bind (digitValue? 16) = some v := by decide
    rintro (h | h)
    · have hvalue := hlower value (List.getElem?_eq_some_iff.1 h).1
      rwa [h] at hvalue
    · have hvalue := hupper value (List.getElem?_eq_some_iff.1 h).1
      rwa [h] at hvalue
  rw [IsDigit, ← hplace]
  -- a smaller base takes fewer of the same values
  unfold digitValue?
  split_ifs <;> simp <;> grind

theorem IsDigit.mem {base value : Nat} {c : Char} (h : IsDigit base c value) :
    c ∈ lowerDigits ++ upperDigits := by
  rw [List.mem_append]
  exact h.2.imp List.mem_of_getElem? List.mem_of_getElem?

/-- What stands in front of digits is none itself. -/
theorem IsDigit.not_mem_marks {base value : Nat} {c : Char} (h : IsDigit base c value) :
    c ∉ ['+', 'x', 'X'] := by
  have hall : ∀ mark ∈ ['+', 'x', 'X'], mark ∉ lowerDigits ++ upperDigits := by
    simp [lowerDigits, upperDigits]
  intro hmark
  exact hall c hmark h.mem

/-! ## Numbers -/

/-- The characters write a number: one digit or more, the highest first, behind one of `signs`. -/
def Writes (signs : List (List Char)) (base : Nat) (cs : List Char) (n : Nat) : Prop :=
  ∃ sign digits values, sign ∈ signs ∧ cs = sign ++ digits ∧ digits ≠ [] ∧
    List.Forall₂ (IsDigit base) digits values ∧ n = Nat.ofDigits base values.reverse

/-- Nothing stands in front of the digits. -/
def unsigned : List (List Char) := [[]]

/-- One plus sign may stand in front of the digits. -/
def atMostPlus : List (List Char) := [[], ['+']]

/-- Digits alone start with a digit. -/
theorem Writes.exists_cons {base : Nat} {cs : List Char} {n : Nat} (h : Writes unsigned base cs n) :
    ∃ c rest value, cs = c :: rest ∧ IsDigit base c value := by
  obtain ⟨sign, digits, values, hsign, rfl, hne, hvalues, -⟩ := h
  obtain rfl := List.mem_singleton.1 hsign
  cases hvalues with
  | nil => exact absurd rfl hne
  | @cons c value digits _ hdigit _ => exact ⟨c, digits, value, rfl, hdigit⟩

theorem writes_atMostPlus_iff {base : Nat} {cs : List Char} {n : Nat} :
    Writes atMostPlus base cs n ↔
      Writes unsigned base cs n ∨ ∃ ds, cs = '+' :: ds ∧ Writes unsigned base ds n := by
  constructor
  · rintro ⟨sign, digits, values, hsign, rfl, hrest⟩
    have hdigits : Writes unsigned base digits n := ⟨[], digits, values, by decide, rfl, hrest⟩
    rcases List.mem_pair.1 hsign with rfl | rfl
    · exact .inl hdigits
    · exact .inr ⟨digits, rfl, hdigits⟩
  · rintro (⟨sign, digits, values, hsign, hrest⟩ | ⟨ds, rfl, sign, digits, values, hsign, rfl, hr⟩)
    · obtain rfl := List.mem_singleton.1 hsign
      exact ⟨[], digits, values, by decide, hrest⟩
    · obtain rfl := List.mem_singleton.1 hsign
      exact ⟨['+'], digits, values, by decide, rfl, hr⟩

theorem ofDigits_reverse (base : Nat) (values : List Nat) :
    Nat.ofDigits base values.reverse = values.foldl (fun n value => n * base + value) 0 := by
  rw [Nat.ofDigits_eq_foldr, List.foldr_reverse]
  simp only [Nat.cast_id, Nat.add_comm, Nat.mul_comm]

/-- Digits are read as the number that they write, but for the limit. -/
theorem numberFrom_of_digits {base : Nat} (hpos : 0 < base) (hbase : base ≤ 16)
    {digits : List Char} {values : List Nat} (h : List.Forall₂ (IsDigit base) digits values)
    (n : Nat) :
    numberFrom base (min numberLimit n) digits =
      some (min numberLimit (values.foldl (fun n value => n * base + value) n)) := by
  induction h generalizing n with
  | nil => rfl
  | @cons c value digits values hc _ ih =>
    -- a number past the limit stays past it, whatever digits follow
    have hlimit : min numberLimit (min numberLimit n * base + value) =
        min numberLimit (n * base + value) := by
      rcases Nat.le_total n numberLimit with hle | hle
      · rw [Nat.min_eq_right hle]
      · have hlarge : numberLimit ≤ numberLimit * base := Nat.le_mul_of_pos_right _ hpos
        have hmore : numberLimit * base ≤ n * base := Nat.mul_le_mul_right base hle
        rw [Nat.min_eq_left hle, Nat.min_eq_left (by omega), Nat.min_eq_left (by omega)]
    rw [numberFrom, (digitValue?_eq_some_iff hbase).2 hc]
    simp only [hlimit]
    exact ih (n * base + value)

/-- Only digits are read. -/
theorem exists_of_numberFrom {base : Nat} (hbase : base ≤ 16) {digits : List Char} {value n : Nat}
    (h : numberFrom base value digits = some n) :
    ∃ values, List.Forall₂ (IsDigit base) digits values := by
  induction digits generalizing value with
  | nil => exact ⟨[], .nil⟩
  | cons c digits ih =>
    rw [numberFrom] at h
    split at h
    · next digit hdigit =>
      obtain ⟨values, hvalues⟩ := ih h
      exact ⟨digit :: values, .cons ((digitValue?_eq_some_iff hbase).1 hdigit) hvalues⟩
    · cases h

theorem number?_append {base : Nat} {sign digits : List Char} (hsign : sign ∈ atMostPlus)
    (hne : digits ≠ []) (hhead : ∀ c ∈ digits.head?, c ≠ '+') :
    number? base (sign ++ digits) = numberFrom base 0 digits := by
  obtain ⟨c, cs, rfl⟩ := List.exists_cons_of_ne_nil hne
  have hc : c ≠ '+' := hhead c rfl
  rcases List.mem_pair.1 hsign with rfl | rfl
  · rw [List.nil_append]
    unfold number?
    split <;> simp_all
  · rfl

/-- What is read as a number has digits, and at most a plus sign in front of them. -/
theorem exists_of_number? {base : Nat} {cs : List Char} {n : Nat} (h : number? base cs = some n) :
    ∃ sign digits, sign ∈ atMostPlus ∧ cs = sign ++ digits ∧ digits ≠ [] ∧
      numberFrom base 0 digits = some n := by
  unfold number? at h
  split at h
  · cases h
  · cases h
  · next digits hne => exact ⟨['+'], digits, by decide, rfl, by rintro rfl; exact hne rfl, h⟩
  · next hne _ _ => exact ⟨[], cs, by decide, rfl, hne, h⟩

/-- **A number is read off exactly what writes it**, and read as the limit if it is higher. -/
theorem number?_eq_some_iff {base : Nat} (hpos : 0 < base) (hbase : base ≤ 16) {cs : List Char}
    {n : Nat} :
    number? base cs = some n ↔ ∃ m, Writes atMostPlus base cs m ∧ n = min numberLimit m := by
  have hread {digits : List Char} {values : List Nat}
      (hvalues : List.Forall₂ (IsDigit base) digits values) :
      numberFrom base 0 digits = some (min numberLimit (Nat.ofDigits base values.reverse)) := by
    rw [ofDigits_reverse]
    exact numberFrom_of_digits hpos hbase hvalues 0
  constructor
  · intro h
    obtain ⟨sign, digits, hsign, hcs, hne, hnumber⟩ := exists_of_number? h
    obtain ⟨values, hvalues⟩ := exists_of_numberFrom hbase hnumber
    refine ⟨_, ⟨sign, digits, values, hsign, hcs, hne, hvalues, rfl⟩, ?_⟩
    rw [hread hvalues] at hnumber
    exact (Option.some.inj hnumber).symm
  · rintro ⟨m, ⟨sign, digits, values, hsign, rfl, hne, hvalues, rfl⟩, rfl⟩
    have hhead : ∀ c ∈ digits.head?, c ≠ '+' := by
      rintro c hc rfl
      cases hvalues with
      | nil => cases hc
      | cons hdigit _ =>
        obtain rfl := Option.some.inj hc
        exact hdigit.not_mem_marks (by decide)
    rw [number?_append hsign hne hhead, hread hvalues]

/-- The limit is no character, and neither is a number above it. -/
theorem ofNumber?_eq_some_iff {n : Nat} {c : Char} :
    ofNumber? (some (min numberLimit n)) = some c ↔ isXmlChar n = true ∧ c = Char.ofNat n := by
  have hlimit : ofNumber? (some numberLimit) = none := rfl
  rcases Nat.lt_or_ge n numberLimit with hlt | hge
  · rw [Nat.min_eq_right (Nat.le_of_lt hlt)]
    by_cases hn : isXmlChar n = true
    · simp [ofNumber?, hn, eq_comm]
    · simp [ofNumber?, hn]
  · have hn : isXmlChar n = false := by
      unfold numberLimit at hge
      simp [isXmlChar]
      omega
    rw [Nat.min_eq_left hge, hlimit, hn]
    simp

/-- Nothing but digits and a sign writes a number. -/
theorem Writes.mem {base : Nat} {cs : List Char} {n : Nat} (h : Writes atMostPlus base cs n) :
    ∀ c ∈ cs, c ∈ '+' :: (lowerDigits ++ upperDigits) := by
  obtain ⟨sign, digits, values, hsign, rfl, -, hvalues, -⟩ := h
  rw [List.forall_mem_append]
  constructor
  · rcases List.mem_pair.1 hsign with rfl | rfl <;> simp
  · induction hvalues with
    | nil => exact List.forall_mem_nil _
    | cons hdigit _ ih => exact List.forall_mem_cons.2 ⟨List.mem_cons_of_mem _ hdigit.mem, ih⟩

/-! ## A single reference -/

/-- What stands between ampersand and semicolon and the character that it stands for, where one of
`signs` stands in front of the digits of a number. -/
inductive Denotes (signs : List (List Char)) : List Char → Char → Prop where
  | lt : Denotes signs ['l', 't'] '<'
  | gt : Denotes signs ['g', 't'] '>'
  | amp : Denotes signs ['a', 'm', 'p'] '&'
  | quot : Denotes signs ['q', 'u', 'o', 't'] '"'
  | apos : Denotes signs ['a', 'p', 'o', 's'] '\x27'
  | decimal {cs : List Char} {n : Nat} (hwrites : Writes signs 10 cs n)
      (hchar : isXmlChar n = true) : Denotes signs ('#' :: cs) (Char.ofNat n)
  | hexadecimal {x : Char} {cs : List Char} {n : Nat} (hx : x ∈ ['x', 'X'])
      (hwrites : Writes signs 16 cs n) (hchar : isXmlChar n = true) :
    Denotes signs ('#' :: x :: cs) (Char.ofNat n)

theorem ofNumber?_number?_eq_some_iff {base : Nat} (hpos : 0 < base) (hbase : base ≤ 16)
    {cs : List Char} {c : Char} :
    ofNumber? (number? base cs) = some c ↔
      ∃ n, Writes atMostPlus base cs n ∧ isXmlChar n = true ∧ c = Char.ofNat n := by
  constructor
  · intro h
    cases hnumber : number? base cs with
    | none =>
      rw [hnumber] at h
      cases h
    | some limited =>
      obtain ⟨n, hwrites, rfl⟩ := (number?_eq_some_iff hpos hbase).1 hnumber
      rw [hnumber, ofNumber?_eq_some_iff] at h
      exact ⟨n, hwrites, h⟩
  · rintro ⟨n, hwrites, hchar⟩
    rw [(number?_eq_some_iff hpos hbase).2 ⟨n, hwrites, rfl⟩]
    exact ofNumber?_eq_some_iff.2 hchar

/-- A letter does not start a decimal number. -/
theorem Writes.head_ne {cs : List Char} {n : Nat} (h : Writes atMostPlus 10 cs n) :
    ∀ c ∈ cs.head?, c ∉ ['x', 'X'] := by
  intro c hc
  rcases writes_atMostPlus_iff.1 h with hdigits | ⟨ds, rfl, -⟩
  · obtain ⟨d, rest, value, rfl, hdigit⟩ := hdigits.exists_cons
    obtain rfl : d = c := Option.some.inj hc
    intro hx
    exact hdigit.not_mem_marks (List.mem_cons_of_mem _ hx)
  · obtain rfl : '+' = c := Option.some.inj hc
    decide

theorem denotes_of_named? {name : List Char} {c : Char} (h : named? name = some c)
    (signs : List (List Char)) : Denotes signs name c := by
  unfold named? at h
  split at h
  · next hname =>
    obtain rfl := Option.some.inj h
    exact hname ▸ .lt
  split at h
  · next hname =>
    obtain rfl := Option.some.inj h
    exact hname ▸ .gt
  split at h
  · next hname =>
    obtain rfl := Option.some.inj h
    exact hname ▸ .amp
  split at h
  · next hname =>
    obtain rfl := Option.some.inj h
    exact hname ▸ .quot
  split at h
  · next hname =>
    obtain rfl := Option.some.inj h
    exact hname ▸ .apos
  · cases h

/-- A number behind its mark, in base ten unless an `x` says otherwise. -/
def numbered? (cs : List Char) : Option Char :=
  match cs with
  | 'x' :: digits => ofNumber? (number? 16 digits)
  | 'X' :: digits => ofNumber? (number? 16 digits)
  | _ => ofNumber? (number? 10 cs)

theorem resolve_number (cs : List Char) :
    resolve ('#' :: cs) =
      match numbered? cs with
      | some c => .ok c
      | none => .error .invalidNumber := rfl

theorem resolve_name {d : Char} (hd : d ≠ '#') (cs : List Char) :
    resolve (d :: cs) =
      match named? (d :: cs) with
      | some c => .ok c
      | none => .error .undefined := by
  unfold resolve
  split
  · next hnil => cases hnil
  · next hnumber => exact absurd (List.cons.inj hnumber).1 hd
  · rfl

theorem denotes_of_numbered? {cs : List Char} {c : Char} (h : numbered? cs = some c) :
    Denotes atMostPlus ('#' :: cs) c := by
  unfold numbered? at h
  split at h
  · obtain ⟨n, hwrites, hchar, rfl⟩ := (ofNumber?_number?_eq_some_iff (by decide) (by decide)).1 h
    exact .hexadecimal (by decide) hwrites hchar
  · obtain ⟨n, hwrites, hchar, rfl⟩ := (ofNumber?_number?_eq_some_iff (by decide) (by decide)).1 h
    exact .hexadecimal (by decide) hwrites hchar
  · obtain ⟨n, hwrites, hchar, rfl⟩ := (ofNumber?_number?_eq_some_iff (by decide) (by decide)).1 h
    exact .decimal hwrites hchar

/-- **A reference is resolved exactly to what it stands for.** -/
theorem resolve_eq_ok_iff {body : List Char} {c : Char} :
    resolve body = .ok c ↔ Denotes atMostPlus body c := by
  constructor
  · intro h
    match body with
    | [] => cases h
    | d :: cs =>
      by_cases hd : d = '#'
      · subst hd
        rw [resolve_number] at h
        split at h
        · next found hnumber =>
          obtain rfl := Except.ok.inj h
          exact denotes_of_numbered? hnumber
        · cases h
      · rw [resolve_name hd] at h
        split at h
        · next found hname =>
          obtain rfl := Except.ok.inj h
          exact denotes_of_named? hname atMostPlus
        · cases h
  · intro h
    cases h with
    | lt => rfl
    | gt => rfl
    | amp => rfl
    | quot => rfl
    | apos => rfl
    | @decimal cs n hwrites hchar =>
      have hnumber : numbered? cs = some (Char.ofNat n) := by
        have hhead := hwrites.head_ne
        rw [← (ofNumber?_number?_eq_some_iff (by decide) (by decide)).2 ⟨n, hwrites, hchar, rfl⟩]
        unfold numbered?
        split
        · exact absurd List.mem_cons_self (hhead 'x' rfl)
        · exact absurd (by decide) (hhead 'X' rfl)
        · rfl
      rw [resolve_number, hnumber]
    | @hexadecimal x cs n hx hwrites hchar =>
      have hnumber := (ofNumber?_number?_eq_some_iff (by decide) (by decide)).2
        ⟨n, hwrites, hchar, rfl⟩
      rcases List.mem_pair.1 hx with rfl | rfl
      · rw [resolve_number, numbered?, hnumber]
      · rw [resolve_number, numbered?, hnumber]

/-! ## References in a text -/

/-- The second text is the first with every reference replaced by its character, and all else
unchanged. -/
inductive Replaced (signs : List (List Char)) : List Char → List Char → Prop where
  | nil : Replaced signs [] []
  | plain {c : Char} {cs ds : List Char} (hc : c ≠ '&') (h : Replaced signs cs ds) :
    Replaced signs (c :: cs) (c :: ds)
  | reference {body : List Char} {c : Char} {cs ds : List Char} (hbody : Denotes signs body c)
      (h : Replaced signs cs ds) : Replaced signs ('&' :: (body ++ ';' :: cs)) (c :: ds)

/-- Every ampersand in the text starts a reference. -/
def Referring (signs : List (List Char)) (cs : List Char) : Prop :=
  ∀ front back, cs = front ++ '&' :: back →
    ∃ body c rest, back = body ++ ';' :: rest ∧ Denotes signs body c

/-- Neither the start nor the end of a reference stands inside one, and no bracket does. -/
theorem Denotes.not_mem {body : List Char} {c : Char} (h : Denotes atMostPlus body c) :
    ∀ d ∈ ['&', ';', ']'], d ∉ body := by
  have hnumber {base : Nat} {cs : List Char} {n : Nat} (hwrites : Writes atMostPlus base cs n) :
      ∀ d ∈ ['&', ';', ']'], d ∉ cs := by
    intro d hd hmem
    have hnone : ∀ d ∈ ['&', ';', ']'], d ∉ '+' :: (lowerDigits ++ upperDigits) := by
      simp [lowerDigits, upperDigits]
    exact hnone d hd (hwrites.mem d hmem)
  have hmark : ∀ d ∈ ['&', ';', ']'], d ≠ '#' ∧ d ∉ ['x', 'X'] := by simp
  intro d hd
  cases h with
  | decimal hwrites _ =>
    rw [List.mem_cons, not_or]
    exact ⟨(hmark d hd).1, hnumber hwrites d hd⟩
  | @hexadecimal x cs n hx hwrites _ =>
    rw [List.mem_cons, List.mem_cons, not_or, not_or]
    refine ⟨(hmark d hd).1, ?_, hnumber hwrites d hd⟩
    rintro rfl
    exact (hmark d hd).2 hx
  | _ => revert d hd; simp

/-- The decoder inside a reference goes on to the next semicolon. -/
theorem exists_of_decodeFrom_inside {seen passed cs out : List Char}
    (h : decodeFrom (.inside seen) passed cs = .ok out) :
    ∃ more c rest, cs = more ++ ';' :: rest ∧ resolve (seen.reverse ++ more) = .ok c ∧
      decodeFrom .plain (c :: passed) rest = .ok out := by
  induction cs generalizing seen with
  | nil => cases h
  | cons d cs ih =>
    rw [decodeFrom] at h
    split at h
    · next hd =>
      subst hd
      split at h
      · next c hc => exact ⟨[], c, cs, rfl, by rwa [List.append_nil], h⟩
      · cases h
    · obtain ⟨more, c, rest, rfl, hc, hout⟩ := ih h
      refine ⟨d :: more, c, rest, rfl, ?_, hout⟩
      simpa using hc

/-- **What is decoded has its references replaced.** -/
theorem exists_of_decodeFrom {passed cs out : List Char}
    (h : decodeFrom .plain passed cs = .ok out) :
    ∃ ds, out = passed.reverse ++ ds ∧ Replaced atMostPlus cs ds := by
  match cs with
  | [] =>
    obtain rfl := Except.ok.inj h
    exact ⟨[], (List.append_nil _).symm, .nil⟩
  | c :: cs =>
    by_cases hc : c = '&'
    · subst hc
      rw [decodeFrom] at h
      obtain ⟨body, d, rest, rfl, hbody, hrest⟩ := exists_of_decodeFrom_inside h
      have hlen : rest.length < (body ++ ';' :: rest).length := by
        rw [List.length_append, List.length_cons]
        omega
      obtain ⟨ds, rfl, hreplaced⟩ := exists_of_decodeFrom hrest
      refine ⟨d :: ds, by simp, .reference ?_ hreplaced⟩
      exact resolve_eq_ok_iff.1 (by simpa using hbody)
    · rw [decodeFrom_plain hc] at h
      obtain ⟨ds, rfl, hreplaced⟩ := exists_of_decodeFrom h
      exact ⟨c :: ds, by simp, .plain hc hreplaced⟩
termination_by cs.length

/-- **A text is decoded to the one with its references replaced.** -/
theorem Replaced.decodeFrom_eq {cs ds : List Char} (h : Replaced atMostPlus cs ds)
    (passed : List Char) : decodeFrom .plain passed cs = .ok (passed.reverse ++ ds) := by
  induction h generalizing passed with
  | nil =>
    rw [List.append_nil]
    rfl
  | plain hc _ ih =>
    rw [decodeFrom_plain hc, ih]
    simp
  | reference hbody _ ih =>
    have hsemicolon := hbody.not_mem ';' (by decide)
    rw [decodeFrom_reference _ hsemicolon (resolve_eq_ok_iff.2 hbody), ih]
    simp

theorem decode_eq_ok_iff {cs ds : List Char} :
    decode cs = .ok ds ↔ Replaced atMostPlus cs ds := by
  constructor
  · intro h
    obtain ⟨found, rfl, hreplaced⟩ := exists_of_decodeFrom h
    exact hreplaced
  · intro h
    exact h.decodeFrom_eq []

/-- No reference reaches from one text into another. -/
theorem Replaced.append {signs : List (List Char)} {cs ds cs' ds' : List Char}
    (h : Replaced signs cs ds) (h' : Replaced signs cs' ds') :
    Replaced signs (cs ++ cs') (ds ++ ds') := by
  induction h with
  | nil => exact h'
  | plain hc _ ih => exact .plain hc ih
  | reference hbody _ ih => simpa using Replaced.reference hbody ih

/-- A bracket in a text stands for itself. -/
theorem Replaced.not_mem {cs ds : List Char} (h : Replaced atMostPlus cs ds) (hds : ']' ∉ ds) :
    ']' ∉ cs := by
  induction h with
  | nil => exact hds
  | plain hc _ ih =>
    rw [List.mem_cons, not_or] at hds ⊢
    exact ⟨hds.1, ih hds.2⟩
  | reference hbody _ ih =>
    rw [List.mem_cons, not_or] at hds
    have hbracket := hbody.not_mem ']' (by decide)
    simp [hbracket, ih hds.2]

/-! ## Every ampersand -/

/-- An ampersand behind a text without one. -/
theorem exists_of_append_eq {xs cs front back : List Char} (hxs : '&' ∉ xs)
    (h : xs ++ cs = front ++ '&' :: back) :
    ∃ between, front = xs ++ between ∧ cs = between ++ '&' :: back := by
  rcases List.append_eq_append_iff.1 h with ⟨between, hfront, hcs⟩ | ⟨between, rfl, hback⟩
  · exact ⟨between, hfront, hcs⟩
  · cases between with
    | nil => exact ⟨[], by simp, by simpa using hback.symm⟩
    | cons c between =>
      obtain ⟨rfl, -⟩ := List.cons.inj hback
      exact absurd (by simp) hxs

theorem Replaced.referring {cs ds : List Char} (h : Replaced atMostPlus cs ds) :
    Referring atMostPlus cs := by
  induction h with
  | nil =>
    intro front back hcs
    simp at hcs
  | @plain c cs ds hc _ ih =>
    intro front back hcs
    have hfront : '&' ∉ [c] := by simpa using hc.symm
    obtain ⟨between, rfl, hrest⟩ := exists_of_append_eq hfront hcs
    exact ih between back hrest
  | @reference body c cs ds hbody _ ih =>
    intro front back hcs
    cases front with
    | nil => exact ⟨body, c, cs, (List.cons.inj hcs).2.symm, hbody⟩
    | cons d front =>
      obtain ⟨-, hbehind⟩ := List.cons.inj hcs
      have hamp : '&' ∉ body ++ [';'] := by
        simpa using hbody.not_mem '&' (by decide)
      obtain ⟨between, rfl, hrest⟩ := exists_of_append_eq hamp (by simpa using hbehind)
      exact ih between back hrest

/-- A text in which every ampersand starts a reference can have them all replaced. -/
theorem Referring.exists_replaced {cs : List Char} (h : Referring atMostPlus cs) :
    ∃ ds, Replaced atMostPlus cs ds := by
  match cs with
  | [] => exact ⟨[], .nil⟩
  | c :: cs =>
    by_cases hc : c = '&'
    · subst hc
      obtain ⟨body, d, rest, rfl, hbody⟩ := h [] cs rfl
      have hlen : rest.length < (body ++ ';' :: rest).length := by
        rw [List.length_append, List.length_cons]
        omega
      have hrest : Referring atMostPlus rest := by
        intro front back hfront
        exact h ('&' :: (body ++ ';' :: front)) back (by simp [hfront])
      obtain ⟨ds, hreplaced⟩ := hrest.exists_replaced
      exact ⟨d :: ds, .reference hbody hreplaced⟩
    · have hrest : Referring atMostPlus cs := by
        intro front back hfront
        exact h (c :: front) back (by simp [hfront])
      obtain ⟨ds, hreplaced⟩ := hrest.exists_replaced
      exact ⟨c :: ds, .plain hc hreplaced⟩
termination_by cs.length

/-! ## Signs -/

/-- How a reference starts, behind its ampersand, that has a plus sign in front of its digits. -/
def plusOpenings : List (List Char) := [['#', '+'], ['#', 'x', '+'], ['#', 'X', '+']]

/-- **Digits alone write what they write**, and a plus sign in front of them nothing. -/
theorem denotes_unsigned_iff {body : List Char} {c : Char} :
    Denotes unsigned body c ↔
      Denotes atMostPlus body c ∧ ∀ opening ∈ plusOpenings, ¬ opening <+: body := by
  have hplain (body : List Char) (h : '#' ∉ body) :
      ∀ opening ∈ plusOpenings, ¬ opening <+: body := by
    intro opening hopening hstarts
    have hmark : ∀ opening ∈ plusOpenings, '#' ∈ opening := by decide
    exact h (hstarts.subset (hmark opening hopening))
  constructor
  · intro h
    cases h with
    | lt => exact ⟨.lt, hplain _ (by decide)⟩
    | gt => exact ⟨.gt, hplain _ (by decide)⟩
    | amp => exact ⟨.amp, hplain _ (by decide)⟩
    | quot => exact ⟨.quot, hplain _ (by decide)⟩
    | apos => exact ⟨.apos, hplain _ (by decide)⟩
    | @decimal cs n hwrites hchar =>
      refine ⟨.decimal (writes_atMostPlus_iff.2 (.inl hwrites)) hchar, ?_⟩
      obtain ⟨d, rest, value, rfl, hdigit⟩ := hwrites.exists_cons
      have hmarks := hdigit.not_mem_marks
      simp only [plusOpenings, List.forall_mem_cons, List.cons_prefix_cons]
      grind
    | @hexadecimal x cs n hx hwrites hchar =>
      refine ⟨.hexadecimal hx (writes_atMostPlus_iff.2 (.inl hwrites)) hchar, ?_⟩
      obtain ⟨d, rest, value, rfl, hdigit⟩ := hwrites.exists_cons
      have hmarks := hdigit.not_mem_marks
      simp only [plusOpenings, List.forall_mem_cons, List.cons_prefix_cons]
      grind
  · rintro ⟨h, hopening⟩
    cases h with
    | lt => exact .lt
    | gt => exact .gt
    | amp => exact .amp
    | quot => exact .quot
    | apos => exact .apos
    | decimal hwrites hchar =>
      rcases writes_atMostPlus_iff.1 hwrites with hdigits | ⟨ds, rfl, -⟩
      · exact .decimal hdigits hchar
      · exact absurd (List.prefix_append _ ds) (hopening ['#', '+'] (by decide))
    | @hexadecimal x cs n hx hwrites hchar =>
      rcases writes_atMostPlus_iff.1 hwrites with hdigits | ⟨ds, rfl, -⟩
      · exact .hexadecimal hx hdigits hchar
      · have hmem : ['#', x, '+'] ∈ plusOpenings := by
          rcases List.mem_pair.1 hx with rfl | rfl <;> decide
        exact absurd (List.prefix_append _ ds) (hopening _ hmem)

/-- What stands in a text behind a part without ampersands, if it starts with one. -/
theorem infix_of_infix_append {xs cs opening : List Char} (hxs : '&' ∉ xs)
    (h : '&' :: opening <:+: xs ++ cs) : '&' :: opening <:+: cs := by
  obtain ⟨front, back, heq⟩ := h
  rw [List.append_assoc, List.cons_append] at heq
  obtain ⟨between, -, rfl⟩ := exists_of_append_eq hxs heq.symm
  exact ⟨between, back, by simp⟩

/-- What stands at the front of a reference and holds no semicolon stands in front of its body. -/
theorem prefix_of_prefix_append {body cs opening : List Char} (hopening : ';' ∉ opening)
    (h : opening <+: body ++ ';' :: cs) : opening <+: body := by
  obtain ⟨rest, heq⟩ := h
  rcases List.append_eq_append_iff.1 heq with ⟨more, rfl, -⟩ | ⟨more, rfl, hmore⟩
  · exact List.prefix_append _ _
  · cases more with
    | nil => simp
    | cons c more =>
      obtain ⟨rfl, -⟩ := List.cons.inj hmore
      exact absurd (by simp) hopening

/-- Texts with digits alone in their references are those without an opening with a plus sign. -/
theorem replaced_unsigned_iff {cs ds : List Char} :
    Replaced unsigned cs ds ↔
      Replaced atMostPlus cs ds ∧ ∀ opening ∈ plusOpenings, ¬ '&' :: opening <:+: cs := by
  constructor
  · intro h
    induction h with
    | nil => exact ⟨.nil, by decide⟩
    | @plain c cs ds hc _ ih =>
      refine ⟨.plain hc ih.1, fun opening hopening hpiece => ?_⟩
      have hfront : '&' ∉ [c] := by simpa using hc.symm
      exact ih.2 opening hopening (infix_of_infix_append hfront hpiece)
    | @reference body c cs ds hbody _ ih =>
      obtain ⟨hsigned, hstarts⟩ := denotes_unsigned_iff.1 hbody
      refine ⟨.reference hsigned ih.1, fun opening hopening hpiece => ?_⟩
      -- the opening is that of this reference, or stands behind it
      rcases List.infix_cons_iff.1 hpiece with hfront | hbehind
      · have hsemicolon : ∀ opening ∈ plusOpenings, ';' ∉ opening := by decide
        have hopens := (List.cons_prefix_cons.1 hfront).2
        exact hstarts opening hopening
          (prefix_of_prefix_append (hsemicolon opening hopening) hopens)
      · have hamp : '&' ∉ body ++ [';'] := by
          simpa using hsigned.not_mem '&' (by decide)
        exact ih.2 opening hopening (infix_of_infix_append hamp (by simpa using hbehind))
  · rintro ⟨h, hopening⟩
    induction h with
    | nil => exact .nil
    | @plain c cs ds hc _ ih =>
      refine .plain hc (ih fun opening ho hpiece => ?_)
      exact hopening opening ho (List.infix_cons hpiece)
    | @reference body c cs ds hbody _ ih =>
      have hdigits : Denotes unsigned body c := by
        refine denotes_unsigned_iff.2 ⟨hbody, fun opening ho hstarts => ?_⟩
        have hfront : '&' :: opening <+: '&' :: (body ++ ';' :: cs) :=
          List.cons_prefix_cons.2 ⟨rfl, hstarts.trans (List.prefix_append _ _)⟩
        exact hopening opening ho hfront.isInfix
      refine .reference hdigits (ih fun opening ho hpiece => ?_)
      have hbehind : cs <:+ '&' :: (body ++ ';' :: cs) := ⟨'&' :: (body ++ [';']), by simp⟩
      exact hopening opening ho (hpiece.trans hbehind.isInfix)

/-! ## Decoding -/

/-- **Decoding takes and replaces exactly the references.** A text is decoded to the one with each
reference replaced by its character and all else unchanged; that can be done exactly if every
ampersand starts a reference; and the texts that are decoded without being written in digits alone
are those that hold an opening with a plus sign. -/
theorem decode_eq_ok_iff_replaced (cs ds : List Char) :
    (decode cs = .ok ds ↔ Replaced atMostPlus cs ds) ∧
    ((∃ ds, decode cs = .ok ds) ↔ Referring atMostPlus cs) ∧
    (Replaced unsigned cs ds ↔
      decode cs = .ok ds ∧ ∀ opening ∈ plusOpenings, ¬ '&' :: opening <:+: cs) := by
  refine ⟨decode_eq_ok_iff, ⟨?_, ?_⟩, ?_⟩
  · rintro ⟨found, hdecode⟩
    exact (decode_eq_ok_iff.1 hdecode).referring
  · intro h
    obtain ⟨found, hreplaced⟩ := h.exists_replaced
    exact ⟨found, decode_eq_ok_iff.2 hreplaced⟩
  · rw [decode_eq_ok_iff]
    exact replaced_unsigned_iff

/-- **Digits alone do not make up all that is decoded**: the number of a character behind a plus
sign is decoded to the character, though its ampersand starts no reference in digits. -/
theorem decode_plus :
    decode "&#+65;".toList = .ok ['A'] ∧ ¬ Referring unsigned "&#+65;".toList ∧
      ∀ ds, ¬ Replaced unsigned "&#+65;".toList ds := by
  have hmem : ['#', '+'] ∈ plusOpenings := by decide
  refine ⟨by decide, fun hreferring => ?_, fun ds hreplaced => ?_⟩
  · obtain ⟨body, c, rest, hbody, hdenotes⟩ := hreferring [] "#+65;".toList rfl
    have hopens : ['#', '+'] <+: body ++ ';' :: rest := ⟨"65;".toList, hbody⟩
    exact (denotes_unsigned_iff.1 hdenotes).2 _ hmem (prefix_of_prefix_append (by decide) hopens)
  · have hopens : "&#+".toList <:+: "&#+65;".toList := ⟨[], "65;".toList, rfl⟩
    exact (replaced_unsigned_iff.1 hreplaced).2 _ hmem hopens

end Groundwork.Xml.Reference
