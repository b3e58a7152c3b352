import Groundwork.Proofs.Text.Place
import Groundwork.Proofs.Text.Search

/-!
# `Proofs.Text.ByteScan` — looking through the bytes of a text

A byte below 0x80 is a character of its own wherever it shows up, and all bytes of any other
character lie above. So loops over single bytes, and searches for marks that start with such a
character, meet the same characters as a look at the text itself would, as long as they treat all
other characters, and with them all bytes of these, alike. The places at which they stop are
boundaries, for what they have passed over are whole characters.

## Contents

* `utf8EncodeChar_of_isAscii`, `not_isAscii_of_mem` — the bytes of a character.
* `walk`, `scan`, `StandsAt.scan` — **a loop over bytes**, and the characters that it passes over.
* `skip`, `StandsAt.skip` — past all characters of a class.
* `findFrom?`, `StandsAt.findFrom?` — **the first occurrence of a mark.**
-/

namespace Groundwork.Text

/-! ## The bytes of a character -/

/-- The character is a byte of its own. -/
def IsAscii (c : Char) : Prop := c.toNat < 0x80

instance (c : Char) : Decidable (IsAscii c) := inferInstanceAs (Decidable (_ < _))

/-- The byte that an ASCII character is. -/
def asciiByte (c : Char) : UInt8 := UInt8.ofNat c.toNat

theorem toNat_ofUInt8 (b : UInt8) : (Char.ofUInt8 b).toNat = b.toNat := rfl

theorem utf8EncodeChar_of_isAscii {c : Char} (h : IsAscii c) :
    String.utf8EncodeChar c = [asciiByte c] := by
  have hencode := Utf8.utf8EncodeChar_one h
  rwa [Char.ofNat_toNat] at hencode

theorem ofUInt8_asciiByte {c : Char} (h : IsAscii c) : Char.ofUInt8 (asciiByte c) = c := by
  have hlt : c.toNat < 0x80 := h
  rw [← Char.ofNat_toNat (Char.ofUInt8 (asciiByte c)), toNat_ofUInt8, asciiByte,
    Utf8.toNat_ofNat (by omega), Char.ofNat_toNat]

theorem le_toNat_ofNat {n : Nat} (hlow : 0x80 ≤ n) (hhigh : n < 0x100) :
    ¬ IsAscii (Char.ofUInt8 (UInt8.ofNat n)) := by
  unfold IsAscii
  rw [toNat_ofUInt8, Utf8.toNat_ofNat hhigh]
  omega

/-- All bytes of any other character lie above. -/
theorem not_isAscii_of_mem {c : Char} (h : ¬ IsAscii c) {b : UInt8}
    (hb : b ∈ String.utf8EncodeChar c) : ¬ IsAscii (Char.ofUInt8 b) := by
  have hlow : ¬ c.val.toNat ≤ 127 := fun hle => h (Nat.lt_succ_of_le hle)
  unfold String.utf8EncodeChar at hb
  simp only [if_neg hlow] at hb
  split at hb
  · simp only [List.mem_cons, List.not_mem_nil, or_false] at hb
    rcases hb with rfl | rfl <;> exact le_toNat_ofNat (by omega) (by omega)
  split at hb
  · simp only [List.mem_cons, List.not_mem_nil, or_false] at hb
    rcases hb with rfl | rfl | rfl <;> exact le_toNat_ofNat (by omega) (by omega)
  · simp only [List.mem_cons, List.not_mem_nil, or_false] at hb
    rcases hb with rfl | rfl | rfl | rfl <;> exact le_toNat_ofNat (by omega) (by omega)

/-- A character has a first byte. -/
theorem exists_utf8EncodeChar (c : Char) : ∃ b more, String.utf8EncodeChar c = b :: more := by
  have hlength : (String.utf8EncodeChar c).length = c.utf8Size := String.length_utf8EncodeChar c
  have hpos := c.utf8Size_pos
  cases hbytes : String.utf8EncodeChar c with
  | nil =>
    rw [hbytes, List.length_nil] at hlength
    omega
  | cons b more => exact ⟨b, more, rfl⟩

/-- What is encoded starts with a byte of its first character. -/
theorem exists_head?_encode (c : Char) (cs : List Char) :
    ∃ b ∈ String.utf8EncodeChar c, (Utf8.encode (c :: cs)).head? = some b := by
  obtain ⟨b, more, hbytes⟩ := exists_utf8EncodeChar c
  refine ⟨b, by rw [hbytes]; exact List.mem_cons_self, ?_⟩
  rw [Utf8.encode_cons, hbytes]
  rfl

theorem StandsAt.exists_byte {cs rest : List Char} {c : Char} {place : Nat}
    (h : StandsAt cs place (c :: rest)) :
    ∃ b ∈ String.utf8EncodeChar c, (Utf8.encode cs)[place]? = some b := by
  rw [h.getElem?]
  exact exists_head?_encode c rest

theorem asciiByte_inj {c d : Char} (hc : IsAscii c) (hd : IsAscii d) :
    asciiByte c = asciiByte d ↔ c = d := by
  refine ⟨fun h => ?_, fun h => by rw [h]⟩
  rw [← ofUInt8_asciiByte hc, h, ofUInt8_asciiByte hd]

/-- Only an ASCII character shows its byte. -/
theorem eq_of_asciiByte_mem {c d : Char} (hd : IsAscii d)
    (h : asciiByte d ∈ String.utf8EncodeChar c) : c = d := by
  by_cases hc : IsAscii c
  · rw [utf8EncodeChar_of_isAscii hc, List.mem_singleton] at h
    exact ((asciiByte_inj hd hc).1 h).symm
  · exact absurd (by rwa [ofUInt8_asciiByte hd]) (not_isAscii_of_mem hc h)

/-- An ASCII character is at the front of a text if its byte is. -/
theorem head?_encode_eq_iff {d : Char} (hd : IsAscii d) (cs : List Char) :
    (Utf8.encode cs).head? = some (asciiByte d) ↔ cs.head? = some d := by
  cases cs with
  | nil => exact iff_of_false (by simp) (by simp)
  | cons c cs =>
    obtain ⟨b, hmem, hbyte⟩ := exists_head?_encode c cs
    rw [hbyte, List.head?_cons, Option.some.injEq, Option.some.injEq]
    constructor
    · rintro rfl
      exact eq_of_asciiByte_mem hd hmem
    · rintro rfl
      rw [utf8EncodeChar_of_isAscii hd, List.mem_singleton] at hmem
      exact hmem

/-- Every byte of a character shows whether this is an ASCII character. -/
theorem ofUInt8_eq_iff {c d : Char} (hd : IsAscii d) {b : UInt8}
    (hmem : b ∈ String.utf8EncodeChar c) : Char.ofUInt8 b = d ↔ c = d := by
  constructor
  · intro hb
    refine eq_of_asciiByte_mem hd ?_
    have hc : IsAscii c := by
      by_cases hc : IsAscii c
      · exact hc
      · exact absurd (hb ▸ hd) (not_isAscii_of_mem hc hmem)
    rw [utf8EncodeChar_of_isAscii hc, List.mem_singleton] at hmem ⊢
    rw [← hb, hmem, ofUInt8_asciiByte hc]
  · rintro rfl
    rw [utf8EncodeChar_of_isAscii hd, List.mem_singleton] at hmem
    rw [hmem, ofUInt8_asciiByte hd]

theorem utf8Size_of_isAscii {c : Char} (h : IsAscii c) : c.utf8Size = 1 := by
  rw [← String.length_utf8EncodeChar, utf8EncodeChar_of_isAscii h]
  rfl

/-- An ASCII character moves the place by one. -/
theorem StandsAt.succ {cs rest : List Char} {c : Char} {place : Nat}
    (h : StandsAt cs place (c :: rest)) (hc : IsAscii c) : StandsAt cs (place + 1) rest := by
  have hsize : Utf8.size [c] = 1 := by rw [Utf8.size_cons, utf8Size_of_isAscii hc, Utf8.size_nil]
  rw [← hsize]
  exact h.advance

/-! ## Loops -/

section Loop

variable {σ : Type} (step : σ → Char → Option σ)

/-- Goes through a text as long as `step` gives a new state: what has been passed over, and the
state at the end of the text, if it has been reached. -/
def walk (s : σ) : List Char → List Char × Option σ
  | [] => ([], some s)
  | c :: cs =>
    match step s c with
    | none => ([], none)
    | some s' => (c :: (walk s' cs).1, (walk s' cs).2)

/-- Goes through bytes from a place on as long as `step`, which sees one byte at a time, gives a new
state: the place where it stopped, and the state at the end of the bytes, if it has been reached. -/
def scan (bytes : List UInt8) (s : σ) (place : Nat) : Option (Nat × Option σ) :=
  if place < bytes.length then
    match bytes[place]? with
    | none => none
    | some b =>
      match step s (Char.ofUInt8 b) with
      | none => some (place, none)
      | some s' => scan bytes s' (place + 1)
  else some (place, some s)
termination_by bytes.length - place

variable {step}

/-- A loop over bytes reaches for no byte that is not there. -/
theorem scan_eq (bytes : List UInt8) (s : σ) (place : Nat) :
    scan step bytes s place =
      some (place + (walk step s ((bytes.drop place).map Char.ofUInt8)).1.length,
        (walk step s ((bytes.drop place).map Char.ofUInt8)).2) := by
  induction hrest : bytes.drop place generalizing s place with
  | nil =>
    have hle : bytes.length ≤ place := List.drop_eq_nil_iff.1 hrest
    rw [scan, if_neg (by omega)]
    rfl
  | cons b rest ih =>
    have hlt : place < bytes.length := by
      refine Nat.lt_of_not_le fun hle => ?_
      rw [List.drop_eq_nil_iff.2 hle] at hrest
      cases hrest
    have hbyte : bytes[place]? = some b := by
      rw [← List.head?_drop, hrest]
      rfl
    have hnext : bytes.drop (place + 1) = rest := by
      rw [← List.tail_drop, hrest]
      rfl
    rw [scan, if_pos hlt, hbyte, List.map_cons, walk]
    simp only
    cases hstep : step s (Char.ofUInt8 b) with
    | none => rfl
    | some s' =>
      simp only
      rw [ih s' (place + 1) hnext, List.length_cons]
      congr 2
      omega

/-- A loop does not go back. -/
theorem le_of_scan {bytes : List UInt8} {s : σ} {place : Nat} {found : Nat × Option σ}
    (h : scan step bytes s place = some found) : place ≤ found.1 := by
  rw [scan_eq, Option.some.injEq] at h
  rw [← h]
  exact Nat.le_add_right _ _

/-- In all states that are met, all characters but those of ASCII are passed over without a change,
or none of them is. -/
structure Steady (step : σ → Char → Option σ) (met : σ → Prop) : Prop where
  alike : (∀ s, met s → ∀ c, ¬ IsAscii c → step s c = some s) ∨
    ∀ s, met s → ∀ c, ¬ IsAscii c → step s c = none
  closed : ∀ {s s' c}, met s → step s c = some s' → met s'

theorem walk_append {s : σ} {front : List Char} (h : ∀ c ∈ front, step s c = some s)
    (back : List Char) :
    walk step s (front ++ back) = (front ++ (walk step s back).1, (walk step s back).2) := by
  induction front with
  | nil => rfl
  | cons c front ih =>
    rw [List.forall_mem_cons] at h
    rw [List.cons_append, walk, h.1]
    simp only
    rw [ih h.2]
    rfl

/-- **Single bytes lead as far as whole characters.** -/
theorem walk_encode {met : σ → Prop} (h : Steady step met) {s : σ} (hs : met s)
    (cs : List Char) :
    (walk step s ((Utf8.encode cs).map Char.ofUInt8)).1.length = Utf8.size (walk step s cs).1 ∧
      (walk step s ((Utf8.encode cs).map Char.ofUInt8)).2 = (walk step s cs).2 := by
  induction cs generalizing s with
  | nil => exact ⟨rfl, rfl⟩
  | cons c cs ih =>
    rw [Utf8.encode_cons, List.map_append]
    by_cases hc : IsAscii c
    · have hbytes : (String.utf8EncodeChar c).map Char.ofUInt8 = [c] := by
        rw [utf8EncodeChar_of_isAscii hc, List.map_singleton, ofUInt8_asciiByte hc]
      rw [hbytes, List.singleton_append, walk, walk]
      cases hstep : step s c with
      | none => exact ⟨rfl, rfl⟩
      | some s' =>
        obtain ⟨hlength, hstate⟩ := ih (h.closed hs hstep)
        refine ⟨?_, hstate⟩
        simp only
        rw [List.length_cons, hlength, Utf8.size_cons, utf8Size_of_isAscii hc, Nat.add_comm]
    · -- the bytes of such a character are all passed over, or the first of them is not
      have hhigh : ∀ d ∈ (String.utf8EncodeChar c).map Char.ofUInt8, ¬ IsAscii d := by
        intro d hd
        obtain ⟨b, hb, rfl⟩ := List.mem_map.1 hd
        exact not_isAscii_of_mem hc hb
      rcases h.alike with hpass | hstop
      · obtain ⟨hlength, hstate⟩ := ih hs
        rw [walk_append fun d hd => hpass s hs d (hhigh d hd), walk, hpass s hs c hc]
        refine ⟨?_, hstate⟩
        simp only
        rw [List.length_append, List.length_map, String.length_utf8EncodeChar, hlength,
          Utf8.size_cons]
      · obtain ⟨b, more, hbytes⟩ := exists_utf8EncodeChar c
        rw [hbytes, List.map_cons, List.forall_mem_cons] at hhigh
        rw [hbytes, List.map_cons, List.cons_append, walk, hstop s hs _ hhigh.1, walk,
          hstop s hs c hc]
        exact ⟨rfl, rfl⟩

/-- **A loop over the bytes of a text stops between two characters.** -/
theorem StandsAt.scan {cs rest : List Char} {place : Nat} (h : StandsAt cs place rest)
    {met : σ → Prop} (hstep : Steady step met) {s : σ} (hs : met s) :
    scan step (Utf8.encode cs) s place =
      some (place + Utf8.size (walk step s rest).1, (walk step s rest).2) := by
  rw [scan_eq, h.drop_encode, (walk_encode hstep hs rest).1, (walk_encode hstep hs rest).2]

end Loop

/-! ## Classes of characters -/

/-- The step of a loop past all characters of a class. -/
def passStep (p : Char → Bool) (_ : Unit) (c : Char) : Option Unit := if p c then some () else none

/-- The first place, from here on, at which no byte of a class lies. -/
def skip (p : Char → Bool) (bytes : List UInt8) (place : Nat) : Option Nat :=
  (scan (passStep p) bytes () place).map (·.1)

/-- All characters but those of ASCII are in the class, or none of them is. -/
def SteadyClass (p : Char → Bool) : Prop :=
  (∀ c, ¬ IsAscii c → p c = true) ∨ ∀ c, ¬ IsAscii c → p c = false

theorem SteadyClass.not {p : Char → Bool} (h : SteadyClass p) : SteadyClass fun c => !p c := by
  refine h.symm.imp (fun hnone c hc => ?_) (fun hall c hc => ?_)
  · exact congrArg (! ·) (hnone c hc)
  · exact congrArg (! ·) (hall c hc)

theorem SteadyClass.steady {p : Char → Bool} (h : SteadyClass p) :
    Steady (passStep p) fun _ => True where
  alike := by
    refine h.imp (fun hall _ _ c hc => ?_) (fun hnone _ _ c hc => ?_)
    · rw [passStep, hall c hc, if_pos rfl]
    · rw [passStep, hnone c hc]
      rfl
  closed _ _ := trivial

theorem walk_passStep (p : Char → Bool) (cs : List Char) :
    (walk (passStep p) () cs).1 = cs.takeWhile p := by
  induction cs with
  | nil => rfl
  | cons c cs ih =>
    rw [walk, passStep, List.takeWhile_cons]
    cases hc : p c with
    | false => rfl
    | true =>
      rw [if_pos rfl, if_pos rfl, ← ih]

theorem le_of_skip {p : Char → Bool} {bytes : List UInt8} {place stop : Nat}
    (h : skip p bytes place = some stop) : place ≤ stop := by
  obtain ⟨found, hscan, rfl⟩ := Option.map_eq_some_iff.1 h
  exact le_of_scan hscan

theorem StandsAt.skip {p : Char → Bool} {cs rest : List Char} {place : Nat}
    (h : StandsAt cs place rest) (hp : SteadyClass p) :
    skip p (Utf8.encode cs) place = some (place + Utf8.size (rest.takeWhile p)) := by
  rw [Text.skip, h.scan hp.steady trivial, Option.map_some, walk_passStep]

/-- A byte of the class may as well be passed over before. -/
theorem skip_succ {p : Char → Bool} {bytes : List UInt8} {place : Nat} {b : UInt8}
    (hbyte : bytes[place]? = some b) (hb : p (Char.ofUInt8 b) = true) :
    skip p bytes (place + 1) = skip p bytes place := by
  have hlt := (List.getElem?_eq_some_iff.1 hbyte).1
  have hstep : scan (passStep p) bytes () place = scan (passStep p) bytes () (place + 1) := by
    conv => lhs; rw [scan, if_pos hlt, hbyte]
    simp only [passStep, hb, if_true]
  rw [skip, skip, hstep]

/-- Behind the characters of the class stands what is left of them. -/
theorem StandsAt.dropWhile {cs rest : List Char} {place : Nat} (h : StandsAt cs place rest)
    (p : Char → Bool) :
    StandsAt cs (place + Utf8.size (rest.takeWhile p)) (rest.dropWhile p) := by
  refine StandsAt.advance ?_
  rwa [List.takeWhile_append_dropWhile]

/-- A class shows in every byte. -/
theorem SteadyClass.eq_of_mem {p : Char → Bool} (hp : SteadyClass p) {c : Char} {b : UInt8}
    (hmem : b ∈ String.utf8EncodeChar c) : p (Char.ofUInt8 b) = p c := by
  by_cases hc : IsAscii c
  · rw [utf8EncodeChar_of_isAscii hc, List.mem_singleton] at hmem
    rw [hmem, ofUInt8_asciiByte hc]
  · rcases hp with hall | hnone
    · rw [hall _ (not_isAscii_of_mem hc hmem), hall c hc]
    · rw [hnone _ (not_isAscii_of_mem hc hmem), hnone c hc]

theorem any_head?_encode {p : Char → Bool} (hp : SteadyClass p) (cs : List Char) :
    ((Utf8.encode cs).head?.any fun b => p (Char.ofUInt8 b)) = cs.head?.any p := by
  cases cs with
  | nil => rfl
  | cons c cs =>
    obtain ⟨b, hmem, hbyte⟩ := exists_head?_encode c cs
    rw [hbyte]
    exact hp.eq_of_mem hmem

/-- A text is of a class if all its bytes are. -/
theorem all_encode {p : Char → Bool} (hp : SteadyClass p) (cs : List Char) :
    ((Utf8.encode cs).all fun b => p (Char.ofUInt8 b)) = cs.all p := by
  induction cs with
  | nil => rfl
  | cons c cs ih =>
    obtain ⟨b, more, hbytes⟩ := exists_utf8EncodeChar c
    have hchar : ((String.utf8EncodeChar c).all fun d => p (Char.ofUInt8 d)) = p c := by
      cases hc : p c with
      | true => exact List.all_eq_true.2 fun d hd => (hp.eq_of_mem hd).trans hc
      | false =>
        refine List.all_eq_false.2 ⟨b, by rw [hbytes]; exact List.mem_cons_self, ?_⟩
        rw [hp.eq_of_mem (c := c) (by rw [hbytes]; exact List.mem_cons_self), hc]
        exact Bool.false_ne_true
    rw [Utf8.encode_cons, List.all_append, hchar, ih, List.all_cons]

/-! ## The first occurrence of a mark -/

/-- The place of the first occurrence of `mark` in the bytes from a place on. -/
def findFrom? (bytes : List UInt8) (place : Nat) (mark : List UInt8) : Option (Option Nat) := do
  let rest ← bytesFrom? bytes place
  return (splitOnce? mark rest).map fun found => place + found.1.length

/-- What is found does not lie in front of where the search starts. -/
theorem le_of_findFrom? {bytes mark : List UInt8} {place found : Nat}
    (h : findFrom? bytes place mark = some (some found)) : place ≤ found := by
  simp only [findFrom?, Option.bind_eq_bind, Option.bind_eq_some_iff, Option.pure_def,
    Option.some.injEq, Option.map_eq_some_iff] at h
  obtain ⟨rest, -, pieces, -, rfl⟩ := h
  exact Nat.le_add_right _ _

theorem le_length_of_findFrom? {bytes mark : List UInt8} {place : Nat} {found : Option Nat}
    (h : findFrom? bytes place mark = some found) : place ≤ bytes.length := by
  obtain ⟨rest, hrest, -⟩ := Option.bind_eq_some_iff.1 h
  exact isSome_bytesFrom?_iff.1 (Option.isSome_of_eq_some hrest)

theorem splitOnceFrom_pass {first : UInt8} {mark skipped : List UInt8}
    (h : ∀ b ∈ skipped, b ≠ first) (passed rest : List UInt8) :
    splitOnceFrom (first :: mark) passed (skipped ++ rest) =
      splitOnceFrom (first :: mark) (skipped.reverse ++ passed) rest := by
  induction skipped generalizing passed with
  | nil => rfl
  | cons b skipped ih =>
    rw [List.forall_mem_cons] at h
    have hnone : stripFront? (first :: mark) (b :: (skipped ++ rest)) = none := by
      rw [stripFront?, if_neg (Ne.symm h.1)]
    rw [List.cons_append, splitOnceFrom, hnone, ih h.2]
    simp

/-- Behind the first byte of a character there is no ASCII character. -/
theorem ne_asciiByte_of_mem_tail {c d : Char} {b : UInt8} {more : List UInt8}
    (hbytes : String.utf8EncodeChar c = b :: more) (hd : IsAscii d) :
    ∀ e ∈ more, e ≠ asciiByte d := by
  rintro e he rfl
  have hmem : asciiByte d ∈ String.utf8EncodeChar c := by
    rw [hbytes]
    exact List.mem_cons_of_mem _ he
  by_cases hc : IsAscii c
  · rw [utf8EncodeChar_of_isAscii hc, List.cons.injEq] at hbytes
    rw [← hbytes.2] at he
    cases he
  · exact not_isAscii_of_mem hc hmem (by rwa [ofUInt8_asciiByte hd])

theorem splitOnceFrom_encode {first : Char} (hfirst : IsAscii first) (mark passed cs : List Char)
    (bytesPassed : List UInt8) (h : bytesPassed.reverse = Utf8.encode passed.reverse) :
    splitOnceFrom (Utf8.encode (first :: mark)) bytesPassed (Utf8.encode cs) =
      (splitOnceFrom (first :: mark) passed cs).map fun found =>
        (Utf8.encode found.1, Utf8.encode found.2) := by
  have hmark : Utf8.encode (first :: mark) = asciiByte first :: Utf8.encode mark := by
    rw [Utf8.encode_cons, utf8EncodeChar_of_isAscii hfirst, List.singleton_append]
  induction cs generalizing passed bytesPassed with
  | nil =>
    rw [hmark]
    rfl
  | cons c cs ih =>
    obtain ⟨b, more, hbytes⟩ := exists_utf8EncodeChar c
    have hcons : Utf8.encode (c :: cs) = b :: (more ++ Utf8.encode cs) := by
      rw [Utf8.encode_cons, hbytes, List.cons_append]
    rw [splitOnceFrom]
    split
    · next after hafter =>
      have hcs : c :: cs = first :: mark ++ after := stripFront?_eq_some_iff.1 hafter
      have hstrip : stripFront? (Utf8.encode (first :: mark)) (b :: (more ++ Utf8.encode cs)) =
          some (Utf8.encode after) := by
        rw [← hcons, hcs, Utf8.encode_append]
        exact stripFront?_append _ _
      rw [hcons, splitOnceFrom, hstrip]
      simp only [Option.map_some, h]
    · next hnone =>
      have hprefix : ¬ Utf8.encode (first :: mark) <+: Utf8.encode (c :: cs) := fun hprefix =>
        stripFront?_eq_none_iff.1 hnone (Utf8.encode_prefix_iff.1 hprefix)
      rw [hcons] at hprefix ⊢
      -- no later byte of this character starts the mark either
      rw [splitOnceFrom, stripFront?_eq_none_iff.2 hprefix, hmark,
        splitOnceFrom_pass (ne_asciiByte_of_mem_tail hbytes hfirst), ← hmark]
      refine ih (c :: passed) _ ?_
      rw [List.reverse_append, List.reverse_reverse, List.reverse_cons, h, List.reverse_cons,
        Utf8.encode_append, Utf8.encode_cons, hbytes, Utf8.encode_nil]
      simp

/-- **A mark is found in the bytes of a text where it is found in the text.** -/
theorem splitOnce?_encode {first : Char} (hfirst : IsAscii first) (mark cs : List Char) :
    splitOnce? (Utf8.encode (first :: mark)) (Utf8.encode cs) =
      (splitOnce? (first :: mark) cs).map fun found =>
        (Utf8.encode found.1, Utf8.encode found.2) :=
  splitOnceFrom_encode hfirst mark [] cs [] rfl

theorem StandsAt.findFrom? {cs rest : List Char} {place : Nat} (h : StandsAt cs place rest)
    {first : Char} (hfirst : IsAscii first) (mark : List Char) :
    findFrom? (Utf8.encode cs) place (Utf8.encode (first :: mark)) =
      some ((splitOnce? (first :: mark) rest).map fun found => place + Utf8.size found.1) := by
  rw [Text.findFrom?, h.bytesFrom?]
  simp only [Option.bind_eq_bind, Option.bind_some, Option.pure_def, splitOnce?_encode hfirst,
    Option.map_map]
  congr 2
  funext found
  exact congrArg (place + ·) (Utf8.length_encode found.1)

end Groundwork.Text
