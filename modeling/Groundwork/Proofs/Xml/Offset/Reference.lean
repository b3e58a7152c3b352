import Groundwork.Proofs.Text.ByteScan
import Groundwork.Proofs.Xml.Reference

/-!
# `Proofs.Xml.Offset.Reference` — references replaced, by byte offsets

Here a text is decoded by its places: the ampersand and the semicolon of a reference are searched
for in the bytes, and what stands between them is cut out of the text. Both are bytes of their own,
so every cut lies between two characters. What comes out is what `Reference.decode` gives, and
nothing is ever asked for at a place where it is not.

## Contents

* `decode_reference`, `decode_unterminated` — the first reference of a text.
* `Offset.decode`, `Offset.decode_eq` — **decoding by places**, and that no cut fails.
-/

namespace Groundwork.Xml

open Text

namespace Reference

/-! ## The first reference of a text -/

/-- Inside a reference, what matters is the body up to the semicolon. -/
theorem decodeFrom_inside {body : List Char} (h : ';' ∉ body) (seen passed rest : List Char) :
    decodeFrom (.inside seen) passed (body ++ ';' :: rest) =
      match resolve (seen.reverse ++ body) with
      | .ok c => decodeFrom .plain (c :: passed) rest
      | .error e => .error e := by
  induction body generalizing seen with
  | nil =>
    rw [List.nil_append, List.append_nil]
    cases hresolve : resolve seen.reverse with
    | ok c => simp only [decodeFrom, if_true, hresolve]
    | error e => simp only [decodeFrom, if_true, hresolve]
  | cons d body ih =>
    rw [List.mem_cons, not_or] at h
    rw [List.cons_append, decodeFrom, if_neg (Ne.symm h.1), ih h.2, List.reverse_cons,
      List.append_assoc, List.singleton_append]

theorem decodeFrom_unclosed {body : List Char} (h : ';' ∉ body) (seen passed : List Char) :
    decodeFrom (.inside seen) passed body = .error .unterminated := by
  induction body generalizing seen with
  | nil => rfl
  | cons d body ih =>
    rw [List.mem_cons, not_or] at h
    rw [decodeFrom, if_neg (Ne.symm h.1), ih h.2]

theorem decode_reference {body : List Char} (h : ';' ∉ body) (rest : List Char) :
    decode ('&' :: (body ++ ';' :: rest)) =
      match resolve body with
      | .ok c => (decode rest).map (c :: ·)
      | .error e => .error e := by
  rw [decode, decodeFrom, if_pos rfl, decodeFrom_inside h]
  show (match resolve body with
    | .ok c => decodeFrom .plain [c] rest
    | .error e => .error e) = _
  split
  · next c hc => exact decodeFrom_behind .plain [] [c] rest
  · rfl

theorem decode_unterminated {body : List Char} (h : ';' ∉ body) :
    decode ('&' :: body) = .error .unterminated := by
  rw [decode, decodeFrom, if_pos rfl, decodeFrom_unclosed h]

end Reference

namespace Offset

/-! ## The first reference, by places -/

/-- The first reference from a place on, if there is one: what stands in front of it, and, if it is
closed, its body and the place behind it. -/
def firstReference? (cs : List Char) (place : Nat) :
    Option (Option (List Char × Option (List Char × Nat))) := do
  match ← findFrom? (Utf8.encode cs) place (Utf8.encode ['&']) with
  | none => return none
  | some ampersand =>
    let plain ← slice? cs place ampersand
    match ← findFrom? (Utf8.encode cs) ampersand (Utf8.encode [';']) with
    | none => return some (plain, none)
    | some semicolon =>
      let body ← slice? cs (ampersand + 1) semicolon
      return some (plain, some (body, semicolon + 1))

/-- The place behind a reference lies behind the place where the search for it started. -/
theorem lt_of_firstReference? {cs plain body : List Char} {place next : Nat}
    (h : firstReference? cs place = some (some (plain, some (body, next)))) :
    place ≤ (Utf8.encode cs).length ∧ place < next := by
  unfold firstReference? at h
  obtain ⟨found, hopen, h⟩ := Option.bind_eq_some_iff.1 h
  cases found with
  | none => cases h
  | some ampersand =>
    obtain ⟨front, -, h⟩ := Option.bind_eq_some_iff.1 h
    obtain ⟨found, hclose, h⟩ := Option.bind_eq_some_iff.1 h
    cases found with
    | none => cases h
    | some semicolon =>
      obtain ⟨inside, -, h⟩ := Option.bind_eq_some_iff.1 h
      have hnext : semicolon + 1 = next := by
        simp only [Option.pure_def, Option.some.injEq, Prod.mk.injEq] at h
        exact h.2.2
      have hlow := le_of_findFrom? hopen
      have hhigh := le_of_findFrom? hclose
      exact ⟨le_length_of_findFrom? hopen, by omega⟩

section First

variable {cs rest plain body after : List Char} {place : Nat}

theorem firstReference?_none (h : StandsAt cs place rest) (hrest : '&' ∉ rest) :
    firstReference? cs place = some none := by
  have hopen := h.findFrom? (show IsAscii '&' by decide) []
  rw [splitOnce?_singleton_eq_none hrest] at hopen
  rw [firstReference?, hopen]
  rfl

/-- The place of the first ampersand. -/
theorem findFrom?_ampersand (h : StandsAt cs place (plain ++ '&' :: after)) (hplain : '&' ∉ plain) :
    findFrom? (Utf8.encode cs) place (Utf8.encode ['&']) =
      some (some (place + Utf8.size plain)) := by
  rw [h.findFrom? (by decide), splitOnce?_singleton hplain]
  rfl

theorem firstReference?_unterminated (h : StandsAt cs place (plain ++ '&' :: after))
    (hplain : '&' ∉ plain) (hafter : ';' ∉ after) :
    firstReference? cs place = some (some (plain, none)) := by
  have hmem : ';' ∉ '&' :: after := by
    rw [List.mem_cons, not_or]
    exact ⟨by decide, hafter⟩
  have hclose := h.advance.findFrom? (show IsAscii ';' by decide) []
  rw [splitOnce?_singleton_eq_none hmem] at hclose
  rw [firstReference?, findFrom?_ampersand h hplain, Option.bind_eq_bind, Option.bind_some]
  simp only
  rw [h.slice?, Option.bind_eq_bind, Option.bind_some, hclose]
  rfl

theorem firstReference?_reference (h : StandsAt cs place (plain ++ '&' :: (body ++ ';' :: after)))
    (hplain : '&' ∉ plain) (hbody : ';' ∉ body) :
    firstReference? cs place =
      some (some (plain, some (body, place + Utf8.size (plain ++ '&' :: (body ++ [';']))))) := by
  have hmem : ';' ∉ '&' :: body := by
    rw [List.mem_cons, not_or]
    exact ⟨by decide, hbody⟩
  have hclose := h.advance.findFrom? (show IsAscii ';' by decide) []
  rw [← List.cons_append, splitOnce?_singleton hmem] at hclose
  have hcut : StandsAt cs (place + Utf8.size plain + 1) (body ++ ';' :: after) :=
    h.advance.succ (by decide)
  have hplace : place + Utf8.size plain + Utf8.size ('&' :: body) =
      place + Utf8.size plain + 1 + Utf8.size body := by
    rw [Utf8.size_cons, Nat.add_assoc _ 1]
    rfl
  rw [firstReference?, findFrom?_ampersand h hplain, Option.bind_eq_bind, Option.bind_some]
  simp only
  rw [h.slice?, Option.bind_eq_bind, Option.bind_some, hclose, Option.map_some, Option.bind_some]
  simp only
  rw [hplace, hcut.slice?]
  have hsemicolon : place + Utf8.size plain + 1 + Utf8.size body + 1 =
      place + Utf8.size (plain ++ '&' :: (body ++ [';'])) := by
    simp only [Utf8.size_append, Utf8.size_cons, Utf8.size_nil]
    have hampersand : Char.utf8Size '&' = 1 := by decide
    have hend : Char.utf8Size ';' = 1 := by decide
    omega
  rw [Option.bind_some, hsemicolon]
  rfl

end First

/-! ## Decoding by places -/

/-- Decodes a text from a place on, with what has been decoded before it. -/
def decodeFrom (cs passed : List Char) (place : Nat) :
    Option (Except ReferenceError (List Char)) :=
  match h : firstReference? cs place with
  | none => none
  | some none => (slice? cs place (Utf8.encode cs).length).map fun tail => .ok (passed ++ tail)
  | some (some (_, none)) => some (.error .unterminated)
  | some (some (plain, some (body, next))) =>
    match Reference.resolve body with
    | .error e => some (.error e)
    | .ok c =>
      have : (Utf8.encode cs).length + 1 - next < (Utf8.encode cs).length + 1 - place := by
        have hlt := lt_of_firstReference? h
        omega
      decodeFrom cs (passed ++ plain ++ [c]) next
termination_by (Utf8.encode cs).length + 1 - place

/-- The text in which every reference is replaced by its character. A text without an ampersand is
left as it is. -/
def decode (cs : List Char) : Option (Except ReferenceError (List Char)) :=
  if '&' ∈ cs then decodeFrom cs [] 0 else some (.ok cs)

/-- One step of the loop. -/
theorem decodeFrom_step (cs passed : List Char) (place : Nat) :
    decodeFrom cs passed place =
      match firstReference? cs place with
      | none => none
      | some none => (slice? cs place (Utf8.encode cs).length).map fun tail => .ok (passed ++ tail)
      | some (some (_, none)) => some (.error .unterminated)
      | some (some (plain, some (body, next))) =>
        match Reference.resolve body with
        | .error e => some (.error e)
        | .ok c => decodeFrom cs (passed ++ plain ++ [c]) next := by
  rw [decodeFrom]
  split
  · next h => simp only [h]
  · next h => simp only [h]
  · next h => simp only [h]
  · next h => simp only [h]

/-- **No cut fails**, and what comes out is the text decoded character by character. -/
theorem decodeFrom_eq {cs rest : List Char} {place : Nat} (h : StandsAt cs place rest)
    (passed : List Char) :
    decodeFrom cs passed place = some ((Reference.decode rest).map (passed ++ ·)) := by
  -- what carries the induction is that the place stays where the rest stands
  induction hn : rest.length using Nat.strongRecOn generalizing rest place passed with
  | ind n ih =>
    rw [decodeFrom_step]
    by_cases hmem : '&' ∈ rest
    · obtain ⟨plain, after, rfl, hplain⟩ := List.eq_append_cons_of_mem hmem
      rw [Reference.decode_append (Reference.decode_of_not_mem hplain)]
      by_cases hclosed : ';' ∈ after
      · obtain ⟨body, later, rfl, hbody⟩ := List.eq_append_cons_of_mem hclosed
        have hlater : StandsAt cs (place + Utf8.size (plain ++ '&' :: (body ++ [';']))) later := by
          refine StandsAt.advance ?_
          simpa using h
        have hlength : later.length < n := by
          rw [← hn]
          simp only [List.length_append, List.length_cons]
          omega
        rw [firstReference?_reference h hplain hbody, Reference.decode_reference hbody]
        simp only
        cases Reference.resolve body with
        | error e => rfl
        | ok c =>
          simp only
          rw [ih _ hlength hlater _ rfl]
          cases Reference.decode later with
          | error e => rfl
          | ok out => simp [Except.map]
      · rw [firstReference?_unterminated h hplain hclosed, Reference.decode_unterminated hclosed]
        rfl
    · rw [firstReference?_none h hmem, Reference.decode_of_not_mem hmem]
      simp only
      rw [Utf8.length_encode, h.slice?_size]
      rfl

/-- **Decoding by places is decoding.** -/
theorem decode_eq (cs : List Char) : decode cs = some (Reference.decode cs) := by
  unfold decode
  split
  · rw [decodeFrom_eq (StandsAt.zero cs)]
    cases Reference.decode cs <;> rfl
  · next hmem => rw [Reference.decode_of_not_mem hmem]

end Offset

end Groundwork.Xml
