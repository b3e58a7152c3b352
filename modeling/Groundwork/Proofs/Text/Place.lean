import Groundwork.Proofs.Text.Utf8

/-!
# `Proofs.Text.Place` — the places of a text, counted in bytes

A place is a number of bytes from the start of a text. Between two characters and at the two ends a
text can be cut, and nowhere else: not inside a character, and not past the end. What is asked for
by its places is there or not, and `none` says that it is not.

A text is mostly read from one place on, so the facts are about the rest that stands from a place
on. Whatever is taken off the front of this rest moves the place by its size.

## Contents

* `IsBoundary`, `slice?`, `isSome_slice?_iff` — **which pieces of a text there are.**
* `bytesFrom?` — the bytes from a place on, which need not be a boundary.
* `StandsAt` — the rest of a text from a place on, its slices and its bytes.
-/

namespace Groundwork.Text

/-! ## Boundaries and slices -/

/-- The text can be cut at this place. -/
def IsBoundary (cs : List Char) (place : Nat) : Prop :=
  ∃ front back, cs = front ++ back ∧ Utf8.size front = place

/-- The two sides of a place. -/
def cut? (place : Nat) : List Char → Option (List Char × List Char)
  | [] => if place = 0 then some ([], []) else none
  | c :: cs =>
    if place = 0 then some ([], c :: cs)
    else if place < c.utf8Size then none
    else (cut? (place - c.utf8Size) cs).map fun sides => (c :: sides.1, sides.2)

/-- The piece of a text from one place to another. -/
def slice? (cs : List Char) (start stop : Nat) : Option (List Char) := do
  let upToStop ← cut? stop cs
  let sides ← cut? start upToStop.1
  return sides.2

theorem cut?_zero (cs : List Char) : cut? 0 cs = some ([], cs) := by
  cases cs <;> rfl

theorem cut?_append (front back : List Char) :
    cut? (Utf8.size front) (front ++ back) = some (front, back) := by
  induction front with
  | nil => exact cut?_zero back
  | cons c front ih =>
    have hpos := c.utf8Size_pos
    rw [List.cons_append, Utf8.size_cons, cut?, if_neg (by omega), if_neg (by omega),
      Nat.add_sub_cancel_left, ih]
    rfl

theorem cut?_eq_some_iff {cs front back : List Char} {place : Nat} :
    cut? place cs = some (front, back) ↔ cs = front ++ back ∧ Utf8.size front = place := by
  constructor
  · intro h
    induction cs generalizing place front with
    | nil =>
      rw [cut?] at h
      split at h
      · next hplace =>
        obtain ⟨rfl, rfl⟩ := Prod.mk.inj (Option.some.inj h)
        exact ⟨rfl, hplace.symm⟩
      · cases h
    | cons c cs ih =>
      rw [cut?] at h
      split at h
      · next hplace =>
        obtain ⟨rfl, rfl⟩ := Prod.mk.inj (Option.some.inj h)
        exact ⟨rfl, hplace.symm⟩
      split at h
      · cases h
      · obtain ⟨⟨later, rest⟩, hcut, hsides⟩ := Option.map_eq_some_iff.1 h
        obtain ⟨rfl, rfl⟩ := Prod.mk.inj hsides
        obtain ⟨rfl, hsize⟩ := ih hcut
        refine ⟨rfl, ?_⟩
        rw [Utf8.size_cons, hsize]
        omega
  · rintro ⟨rfl, rfl⟩
    exact cut?_append front back

theorem slice?_eq_some_iff {cs piece : List Char} {start stop : Nat} :
    slice? cs start stop = some piece ↔
      ∃ front back, cs = front ++ piece ++ back ∧ Utf8.size front = start ∧
        Utf8.size (front ++ piece) = stop := by
  simp only [slice?, Option.bind_eq_bind, Option.bind_eq_some_iff, Option.pure_def,
    Option.some.injEq, Prod.exists, cut?_eq_some_iff]
  constructor
  · rintro ⟨before, back, ⟨rfl, rfl⟩, front, piece, ⟨rfl, rfl⟩, rfl⟩
    exact ⟨front, back, rfl, rfl, rfl⟩
  · rintro ⟨front, back, rfl, rfl, rfl⟩
    exact ⟨front ++ piece, back, ⟨rfl, rfl⟩, front, piece, ⟨rfl, rfl⟩, rfl⟩

/-- What is cut out of a text is spelled by the bytes between its two ends. -/
theorem encode_of_slice? {cs piece : List Char} {start stop : Nat}
    (h : slice? cs start stop = some piece) :
    Utf8.encode piece = ((Utf8.encode cs).drop start).take (stop - start) := by
  obtain ⟨front, back, rfl, rfl, rfl⟩ := slice?_eq_some_iff.1 h
  rw [Utf8.encode_append, Utf8.encode_append, List.append_assoc, ← Utf8.length_encode front,
    List.drop_left, Utf8.size_append, ← Utf8.length_encode front, Nat.add_sub_cancel_left,
    ← Utf8.length_encode piece, List.take_left]

theorem IsBoundary.le_size {cs : List Char} {place : Nat} (h : IsBoundary cs place) :
    place ≤ Utf8.size cs := by
  obtain ⟨front, back, rfl, rfl⟩ := h
  rw [Utf8.size_append]
  exact Nat.le_add_right _ _

/-- Of two cuts, the one at the smaller place takes off less. -/
theorem exists_between {front back front' back' : List Char} (h : front ++ back = front' ++ back')
    (hsize : Utf8.size front ≤ Utf8.size front') : ∃ piece, front' = front ++ piece := by
  rcases List.append_eq_append_iff.1 h with ⟨piece, rfl, -⟩ | ⟨piece, rfl, -⟩
  · exact ⟨piece, rfl⟩
  · rw [Utf8.size_append] at hsize
    cases piece with
    | nil => exact ⟨[], by simp⟩
    | cons c piece =>
      have hpos := c.utf8Size_pos
      rw [Utf8.size_cons] at hsize
      omega

/-- **There is a piece between any two boundaries in order**, and between no other places. -/
theorem isSome_slice?_iff {cs : List Char} {start stop : Nat} :
    (slice? cs start stop).isSome ↔
      start ≤ stop ∧ stop ≤ Utf8.size cs ∧ IsBoundary cs start ∧ IsBoundary cs stop := by
  rw [Option.isSome_iff_exists]
  constructor
  · rintro ⟨piece, h⟩
    obtain ⟨front, back, rfl, rfl, rfl⟩ := slice?_eq_some_iff.1 h
    have hstop : IsBoundary (front ++ piece ++ back) (Utf8.size (front ++ piece)) :=
      ⟨front ++ piece, back, rfl, rfl⟩
    refine ⟨?_, hstop.le_size, ⟨front, piece ++ back, by simp, rfl⟩, hstop⟩
    rw [Utf8.size_append]
    exact Nat.le_add_right _ _
  · rintro ⟨hle, -, ⟨front, back, rfl, rfl⟩, front', back', hcs, rfl⟩
    obtain ⟨piece, rfl⟩ := exists_between hcs hle
    exact ⟨piece, slice?_eq_some_iff.2 ⟨front, back', hcs, rfl, rfl⟩⟩

example : slice? ['a', 'ß'] 1 3 = some ['ß'] ∧ slice? ['a', 'ß'] 1 2 = none := by decide

/-! ## Bytes -/

/-- The bytes from a place on. -/
def bytesFrom? (bytes : List UInt8) (start : Nat) : Option (List UInt8) :=
  if start ≤ bytes.length then some (bytes.drop start) else none

theorem isSome_bytesFrom?_iff {bytes : List UInt8} {start : Nat} :
    (bytesFrom? bytes start).isSome ↔ start ≤ bytes.length := by
  unfold bytesFrom?
  split <;> simp [*]

/-! ## What stands from a place on -/

/-- This is what stands in a text from a place on. -/
def StandsAt (cs : List Char) (place : Nat) (rest : List Char) : Prop :=
  ∃ front, cs = front ++ rest ∧ Utf8.size front = place

theorem StandsAt.zero (cs : List Char) : StandsAt cs 0 cs := ⟨[], rfl, rfl⟩

namespace StandsAt

variable {cs taken rest : List Char} {place : Nat}

/-- What is taken off moves the place. -/
theorem advance (h : StandsAt cs place (taken ++ rest)) :
    StandsAt cs (place + Utf8.size taken) rest := by
  obtain ⟨front, rfl, rfl⟩ := h
  exact ⟨front ++ taken, by simp, Utf8.size_append front taken⟩

theorem slice? (h : StandsAt cs place (taken ++ rest)) :
    slice? cs place (place + Utf8.size taken) = some taken := by
  obtain ⟨front, rfl, rfl⟩ := h
  exact slice?_eq_some_iff.2 ⟨front, rest, by simp, rfl, Utf8.size_append front taken⟩

theorem add_size (h : StandsAt cs place rest) : place + Utf8.size rest = Utf8.size cs := by
  obtain ⟨front, rfl, rfl⟩ := h
  exact (Utf8.size_append front rest).symm

/-- What stands at a place tells the place. -/
theorem eq_sub (h : StandsAt cs place rest) : place = Utf8.size cs - Utf8.size rest := by
  have hsize := h.add_size
  omega

/-- The place of what is left, told by its size. -/
theorem behind (h : StandsAt cs place (taken ++ rest)) :
    StandsAt cs (Utf8.size cs - Utf8.size rest) rest := by
  have hrest := h.advance
  rwa [hrest.eq_sub] at hrest

/-- Up to the end of the text. -/
theorem slice?_size (h : StandsAt cs place rest) :
    Text.slice? cs place (Utf8.size cs) = some rest := by
  have hwhole : StandsAt cs place (rest ++ []) := by rwa [List.append_nil]
  rw [← h.add_size]
  exact hwhole.slice?

theorem drop_encode (h : StandsAt cs place rest) :
    (Utf8.encode cs).drop place = Utf8.encode rest := by
  obtain ⟨front, rfl, rfl⟩ := h
  rw [Utf8.encode_append, ← Utf8.length_encode front, List.drop_left]

theorem le_length (h : StandsAt cs place rest) : place ≤ (Utf8.encode cs).length := by
  rw [Utf8.length_encode, ← h.add_size]
  exact Nat.le_add_right _ _

theorem bytesFrom? (h : StandsAt cs place rest) :
    bytesFrom? (Utf8.encode cs) place = some (Utf8.encode rest) := by
  rw [Text.bytesFrom?, if_pos h.le_length, h.drop_encode]

theorem getElem? (h : StandsAt cs place rest) :
    (Utf8.encode cs)[place]? = (Utf8.encode rest).head? := by
  rw [← h.drop_encode, List.head?_drop]

end StandsAt

end Groundwork.Text
