import Groundwork.Proofs.Text.Search
import Groundwork.Proofs.Xml.Name
import Groundwork.Proofs.Xml.Reference
import Groundwork.Xml.Attribute
import Mathlib.Data.List.Basic
import Mathlib.Data.List.TakeWhile

/-!
# `Proofs.Xml.Attribute` — attribute sections, written and read

The grammar of attribute sections, and that the loop which reads them accepts exactly this grammar:
it reads a list of attributes off each section in which they are spelled one after the other, and
off no other, if no name stands twice. Such a section shows no `>` outside quotes, so a search for
the end of the tag passes over it, and no slash at its end.

A printer writes one of the spellings of a list: one space before each attribute, double quotes
around the values, and the values escaped. It is read back to the same list, in the same order, if
the names are names and pairwise distinct (`Named`); and every list that is read off a section has
these two properties.

## Contents

* `Attribute.Named` — what every list of attributes has to satisfy.
* `Attribute.Spelled`, `Attribute.AllSpelled` — **the grammar** of one attribute and of a section.
* `AllSpelled.unmarked`, `AllSpelled.getLast?_ne` — the end of a tag is not found inside a section.
* `readAll_eq_ok_iff` — **what is read is what is spelled.**
* `named_of_readAll` — what is read is `Named`.
* `Attribute.spellAll`, `readAll_spellAll` — the written section, and that it is read back.
-/

namespace Groundwork.Xml.Attribute

open Text

/-! ## Lists that can be written -/

/-- The names are names and pairwise distinct. -/
structure Named (attributes : List Attribute) : Prop where
  isName : ∀ a ∈ attributes, isName a.name.toList = true
  nodup : (attributes.map (·.name)).Nodup

theorem named_nil : Named [] := ⟨by simp, by simp⟩

theorem Named.ne_of_append_cons {front back : List Attribute} {a : Attribute}
    (h : Named (front ++ a :: back)) : ∀ p ∈ front, p.name ≠ a.name := by
  have hnodup := h.nodup
  rw [List.map_append, List.nodup_append] at hnodup
  intro p hp
  exact hnodup.2.2 p.name (List.mem_map_of_mem hp) a.name (by simp)

/-- An attribute of a new name goes to the end. -/
theorem put_of_not_mem {name : String} (value : String) {attributes : List Attribute}
    (h : ∀ a ∈ attributes, a.name ≠ name) :
    put name value attributes = attributes ++ [⟨name, value⟩] := by
  induction attributes with
  | nil => rfl
  | cons a attributes ih =>
    rw [List.forall_mem_cons] at h
    rw [put, if_neg h.1, ih h.2, List.cons_append]

/-- Giving an attribute a value changes no names, or adds one. -/
theorem map_name_put (name value : String) (attributes : List Attribute) :
    (put name value attributes).map (·.name) =
      if name ∈ attributes.map (·.name) then attributes.map (·.name)
      else attributes.map (·.name) ++ [name] := by
  induction attributes with
  | nil => simp [put]
  | cons a attributes ih =>
    rw [put]
    by_cases ha : a.name = name
    · simp [ha]
    · rw [if_neg ha, List.map_cons, ih, List.map_cons]
      by_cases hmem : name ∈ attributes.map (·.name)
      · rw [if_pos hmem, if_pos (List.mem_cons_of_mem _ hmem)]
      · have hnot : name ∉ a.name :: attributes.map (·.name) := by
          rw [List.mem_cons, not_or]
          exact ⟨Ne.symm ha, hmem⟩
        rw [if_neg hmem, if_neg hnot, List.cons_append]

theorem Named.put {attributes : List Attribute} (h : Named attributes) {name : String}
    (hname : Xml.isName name.toList = true) (value : String) :
    Named (Attribute.put name value attributes) := by
  have hnames := map_name_put name value attributes
  constructor
  · intro a ha
    have hmem : a.name ∈ (Attribute.put name value attributes).map (·.name) :=
      List.mem_map_of_mem ha
    have hold : a.name ∈ attributes.map (·.name) ∨ a.name = name := by
      rw [hnames] at hmem
      split at hmem
      · exact .inl hmem
      · simpa using hmem
    rcases hold with hold | rfl
    · obtain ⟨b, hb, hsame⟩ := List.mem_map.1 hold
      rw [← hsame]
      exact h.isName b hb
    · exact hname
  · rw [hnames]
    split
    · exact h.nodup
    · next hnew => simpa [List.nodup_append] using ⟨h.nodup, by simpa using hnew⟩

theorem Named.remove {attributes : List Attribute} (h : Named attributes) (name : String) :
    Named (Attribute.remove name attributes) := by
  have hsub : (Attribute.remove name attributes).Sublist attributes := List.eraseP_sublist
  exact ⟨fun a ha => h.isName a (hsub.subset ha), (hsub.map _).nodup h.nodup⟩

/-- Where no name stands twice, what is found under a name is what stands beside it. -/
theorem get?_eq_some_iff {attributes : List Attribute} (h : (attributes.map (·.name)).Nodup)
    {name value : String} : get? name attributes = some value ↔ ⟨name, value⟩ ∈ attributes := by
  induction attributes with
  | nil => simp
  | cons a attributes ih =>
    rw [List.map_cons, List.nodup_cons] at h
    rw [get?_cons, List.mem_cons]
    split
    · next hname =>
      have hnot : ⟨name, value⟩ ∉ attributes := fun hmem =>
        h.1 (hname ▸ List.mem_map_of_mem hmem)
      obtain ⟨first, found⟩ := a
      obtain rfl : first = name := hname
      simp [hnot, eq_comm]
    · next hname =>
      rw [ih h.2]
      refine (or_iff_right ?_).symm
      rintro rfl
      exact hname rfl

/-! ## Spellings -/

/-- How an attribute may be spelled: its name, an equals sign with white space around it if need be,
and between two quotes of one kind a text that stands for the value. That text holds neither this
quote nor a `<`. -/
inductive Spelled (a : Attribute) : List Char → Prop where
  | intro {before after raw : List Char} {q : Char} (hname : Xml.isName a.name.toList = true)
      (hbefore : ∀ c ∈ before, isSpace c = true) (hafter : ∀ c ∈ after, isSpace c = true)
      (hq : q ∈ quotes) (hquoted : q ∉ raw) (hmarkup : '<' ∉ raw)
      (hvalue : Reference.decode raw = .ok a.value.toList) :
    Spelled a (a.name.toList ++ before ++ '=' :: after ++ q :: raw ++ [q])

/-- How attributes may be spelled one after the other: each behind some white space, with more of it
at the end if need be. -/
inductive AllSpelled : List Attribute → List Char → Prop where
  | nil {gap : List Char} (hgap : ∀ c ∈ gap, isSpace c = true) : AllSpelled [] gap
  | cons {a : Attribute} {attributes : List Attribute} {gap front back : List Char}
      (hne : gap ≠ []) (hgap : ∀ c ∈ gap, isSpace c = true) (ha : a.Spelled front)
      (hback : AllSpelled attributes back) :
    AllSpelled (a :: attributes) (gap ++ front ++ back)

/-- Characters of a kind that neither ends a tag nor quotes. -/
theorem unmarked_of_forall {p : Char → Bool} {cs : List Char} (hend : p '>' = false)
    (hdouble : p '"' = false) (hsingle : p '\x27' = false) (h : ∀ c ∈ cs, p c = true) :
    Unmarked quotes '>' cs := by
  apply Unmarked.of_plain
  intro c hc
  have hp := h c hc
  constructor
  · rintro rfl
    simp [hend] at hp
  · intro hquote
    rcases (by simpa [quotes] using hquote : c = '"' ∨ c = '\x27') with rfl | rfl
    · simp [hdouble] at hp
    · simp [hsingle] at hp

theorem unmarked_of_isSpace {gap : List Char} (h : ∀ c ∈ gap, isSpace c = true) :
    Unmarked quotes '>' gap :=
  unmarked_of_forall (by decide) (by decide) (by decide) h

theorem ne_of_mem_quotes {q : Char} (h : q ∈ quotes) : q ≠ '>' ∧ q ≠ '/' ∧ isSpace q = false := by
  rcases (by simpa [quotes] using h : q = '"' ∨ q = '\x27') with rfl | rfl <;> decide

namespace Spelled

variable {a : Attribute} {cs : List Char}

theorem isName (h : a.Spelled cs) : Xml.isName a.name.toList = true := by
  cases h with
  | intro hname => exact hname

theorem unmarked (h : a.Spelled cs) : Unmarked quotes '>' cs := by
  cases h with
  | intro hname hbefore hafter hq hquoted hmarkup hvalue =>
    have hend := (ne_of_mem_quotes hq).1
    have hnamed :=
      unmarked_of_forall (by decide) (by decide) (by decide) (isNamePart_of_isName hname)
    have hsign : Unmarked quotes '>' ['='] := .plain (by decide) (by decide) .nil
    have hraw := Unmarked.quoted hend hq hquoted .nil
    have hall := (((hnamed.append (unmarked_of_isSpace hbefore)).append hsign).append
      (unmarked_of_isSpace hafter)).append hraw
    simpa using hall

theorem getLast?_mem (h : a.Spelled cs) : ∃ q ∈ quotes, cs.getLast? = some q := by
  cases h with
  | @intro before after raw q hname hbefore hafter hq => exact ⟨q, hq, List.getLast?_concat⟩

/-- An attribute starts with its name, not with white space. -/
theorem dropWhile_isSpace (h : a.Spelled cs) (rest : List Char) :
    (cs ++ rest).dropWhile isSpace = cs ++ rest := by
  cases h with
  | @intro before after raw q hname =>
    have hdrop := dropWhile_isSpace_of_isName hname
      (before ++ '=' :: after ++ q :: raw ++ [q] ++ rest)
    simpa only [List.append_assoc] using hdrop

end Spelled

namespace AllSpelled

variable {attributes : List Attribute} {cs : List Char}

/-- A section is set off from what stands in front of it. -/
theorem isSpace_head (h : AllSpelled attributes cs) : ∀ c ∈ cs.head?, isSpace c = true := by
  intro c hc
  cases h with
  | nil hgap => exact hgap c (List.mem_of_head? hc)
  | cons hne hgap _ _ =>
    rw [List.append_assoc, List.head?_append_of_ne_nil _ hne] at hc
    exact hgap c (List.mem_of_head? hc)

/-- **A section shows no end of a tag.** -/
theorem unmarked (h : AllSpelled attributes cs) : Unmarked quotes '>' cs := by
  induction h with
  | nil hgap => exact unmarked_of_isSpace hgap
  | cons _ hgap ha _ ih => exact ((unmarked_of_isSpace hgap).append ha.unmarked).append ih

/-- A section does not end with a slash, which would make the tag an empty one. -/
theorem getLast?_ne (h : AllSpelled attributes cs) : cs.getLast? ≠ some '/' := by
  induction h with
  | nil hgap =>
    intro hslash
    exact absurd (hgap '/' (List.mem_of_getLast? hslash)) (by decide)
  | @cons a attributes gap front back _ _ ha _ ih =>
    rw [List.getLast?_append]
    cases hlast : back.getLast? with
    | some c => simpa [hlast] using ih
    | none =>
      obtain ⟨q, hq, hfront⟩ := ha.getLast?_mem
      simpa [List.getLast?_append, hfront] using (ne_of_mem_quotes hq).2.1

end AllSpelled

/-! ## What is spelled is read -/

theorem readValue_quoted {q : Char} {raw value : List Char} (hq : q ∈ quotes) (hquoted : q ∉ raw)
    (hmarkup : '<' ∉ raw) (hvalue : Reference.decode raw = .ok value) (rest : List Char) :
    readValue (q :: (raw ++ q :: rest)) = .ok (String.ofList value, rest) := by
  rw [readValue, if_pos hq, splitOnce?_singleton hquoted]
  simp [hmarkup, hvalue]

/-- **An attribute is read back from each of its spellings.** -/
theorem read_of_spelled {a : Attribute} {cs : List Char} (h : a.Spelled cs) (rest : List Char) :
    read (cs ++ rest) = .ok (a, rest) := by
  cases h with
  | @intro before after raw q hname hbefore hafter hq hquoted hmarkup hvalue =>
    have happend : a.name.toList ++ before ++ '=' :: after ++ q :: raw ++ [q] ++ rest =
        a.name.toList ++ (before ++ '=' :: (after ++ q :: (raw ++ q :: rest))) := by simp
    have hhead : ∀ c ∈ before.head?, isNamePart c = false := fun c hc =>
      isNamePart_of_isSpace (hbefore c (List.mem_of_head? hc))
    have hread := readName?_append (before ++ '=' :: (after ++ q :: (raw ++ q :: rest))) hname
      (isNamePart_head_append hhead (by decide) _)
    have hsign : isSpace '=' = false := by decide
    have hquote : isSpace q = false := (ne_of_mem_quotes hq).2.2
    rw [happend, read, hread]
    simp only [dropWhile_isSpace_append hbefore hsign, dropWhile_isSpace_append hafter hquote,
      readValue_quoted hq hquoted hmarkup hvalue, String.ofList_toList]

theorem readFrom_of_isSpace (passed : List Attribute) {gap : List Char}
    (h : ∀ c ∈ gap, isSpace c = true) : readFrom passed gap = .ok passed.reverse := by
  rw [readFrom]
  split
  · rfl
  · next c rest hdrop =>
    rw [List.dropWhile_eq_nil_iff.2 h] at hdrop
    cases hdrop

/-- One step of the loop, behind white space. -/
theorem readFrom_of_read {passed : List Attribute} {gap cs after : List Char} {a : Attribute}
    (hne : gap ≠ []) (hgap : ∀ c ∈ gap, isSpace c = true) (hstart : cs.dropWhile isSpace = cs)
    (hread : read cs = .ok (a, after)) (hnew : ∀ p ∈ passed, p.name ≠ a.name) :
    readFrom passed (gap ++ cs) = readFrom (a :: passed) after := by
  have hdrop : (gap ++ cs).dropWhile isSpace = cs := by
    rw [List.dropWhile_append_of_pos hgap, hstart]
  have hspace : (gap ++ cs).head?.any isSpace = true := by
    cases gap with
    | nil => exact absurd rfl hne
    | cons c gap => simpa using hgap c (by simp)
  rw [readFrom]
  split
  · next hnil =>
    rw [hdrop] at hnil
    rw [hnil] at hread
    cases hread
  · next c rest hcons =>
    obtain rfl : cs = c :: rest := hdrop.symm.trans hcons
    rw [hspace, Bool.not_true, Bool.and_false, if_neg Bool.false_ne_true]
    split
    · next e herror => simp [hread] at herror
    · next b behind hok =>
      obtain ⟨rfl, rfl⟩ := Prod.mk.inj (Except.ok.inj (hread.symm.trans hok))
      rw [if_neg (by simpa using hnew)]

theorem readFrom_of_allSpelled {attributes : List Attribute} {cs : List Char}
    (h : AllSpelled attributes cs) (passed : List Attribute)
    (hnodup : ((passed.reverse ++ attributes).map (·.name)).Nodup) :
    readFrom passed cs = .ok (passed.reverse ++ attributes) := by
  induction h generalizing passed with
  | nil hgap => rw [readFrom_of_isSpace passed hgap, List.append_nil]
  | @cons a attributes gap front back hne hgap ha _ ih =>
    -- the name is not among those that have been read, so it is no duplicate
    have hnew : ∀ p ∈ passed, p.name ≠ a.name := by
      rw [List.map_append, List.nodup_append] at hnodup
      intro p hp
      exact hnodup.2.2 p.name (by simpa using ⟨p, hp, rfl⟩) a.name (by simp)
    rw [List.append_assoc,
      readFrom_of_read hne hgap (ha.dropWhile_isSpace back) (read_of_spelled ha back) hnew,
      ih (a :: passed) (by simpa using hnodup)]
    simp

/-! ## What has been read is spelled -/

theorem exists_of_readValue {cs rest : List Char} {value : String}
    (h : readValue cs = .ok (value, rest)) :
    ∃ q raw, cs = q :: (raw ++ q :: rest) ∧ q ∈ quotes ∧ q ∉ raw ∧ '<' ∉ raw ∧
      Reference.decode raw = .ok value.toList := by
  cases cs with
  | nil => cases h
  | cons q cs =>
    rw [readValue] at h
    split at h
    · next hq =>
      split at h
      · cases h
      · next raw after hsplit =>
        split at h
        · cases h
        · next hmarkup =>
          split at h
          · next decoded hvalue =>
            obtain ⟨rfl, rfl⟩ := Prod.mk.inj (Except.ok.inj h)
            exact ⟨q, raw, by simp [eq_of_splitOnce? hsplit], hq, not_mem_of_splitOnce? hsplit,
              hmarkup, by simpa using hvalue⟩
          · cases h
    · cases h

/-- **An attribute that is read is spelled at the front of the text.** -/
theorem exists_of_read {cs rest : List Char} {a : Attribute} (h : read cs = .ok (a, rest)) :
    ∃ front, cs = front ++ rest ∧ a.Spelled front := by
  unfold read at h
  split at h
  · cases h
  · next name afterName hname =>
    split at h
    · next afterSign hsign =>
      split at h
      · next value after hvalue =>
        obtain ⟨rfl, rfl⟩ := Prod.mk.inj (Except.ok.inj h)
        obtain ⟨q, raw, hraw, hq, hquoted, hmarkup, hdecode⟩ := exists_of_readValue hvalue
        obtain ⟨before, hbefore, heq⟩ := exists_gap afterName
        obtain ⟨between, hbetween, hsigneq⟩ := exists_gap afterSign
        have hcs : cs = name ++ (before ++ '=' :: (between ++ q :: (raw ++ q :: after))) := by
          rw [eq_of_readName? hname, heq, hsign, hsigneq, hraw]
        have hspelled := Spelled.intro (a := ⟨String.ofList name, value⟩)
          (by simpa using isName_of_readName? hname) hbefore hbetween hq hquoted hmarkup hdecode
        refine ⟨_, ?_, hspelled⟩
        simpa using hcs
      · cases h
    · cases h

/-- The attributes that the loop adds are spelled in the section, if the first of all is set off
from the name in front of the section. -/
theorem exists_of_readFrom {cs : List Char} {passed attributes : List Attribute}
    (hspace : passed = [] → ∀ c ∈ cs.head?, isSpace c = true)
    (h : readFrom passed cs = .ok attributes) :
    ∃ back, attributes = passed.reverse ++ back ∧ AllSpelled back cs := by
  fun_induction readFrom passed cs with
  | case1 passed cs hcs =>
    obtain rfl := Except.ok.inj h
    exact ⟨[], (List.append_nil _).symm, .nil (List.dropWhile_eq_nil_iff.1 hcs)⟩
  | case2 => cases h
  | case3 => cases h
  | case4 => cases h
  | case5 passed cs c rest hcs hgap a after hread hnew hlen ih =>
    obtain ⟨back, hattributes, hback⟩ := ih (fun hnil => absurd hnil (List.cons_ne_nil _ _)) h
    have hhead : ∀ d ∈ cs.head?, isSpace d = true := by
      cases passed with
      | nil => exact hspace rfl
      | cons p passed =>
        intro d hd
        rw [hd] at hgap
        simpa using hgap
    obtain ⟨front, hfront, ha⟩ := exists_of_read hread
    obtain ⟨gap, hspaces, hall⟩ := exists_gap cs
    have hne : gap ≠ [] := by
      -- without a gap the name would stand at once where white space has to
      rintro rfl
      have hstop := List.head?_dropWhile_not isSpace cs
      rw [hcs, List.nil_append] at hall
      rw [hcs] at hstop
      simp [hhead c (by rw [hall]; rfl)] at hstop
    refine ⟨a :: back, by simp [hattributes], ?_⟩
    rw [hall, hcs, hfront, ← List.append_assoc]
    exact .cons hne hspaces ha hback

theorem named_of_readFrom {cs : List Char} (passed : List Attribute) {attributes : List Attribute}
    (hpassed : Named passed.reverse) (h : readFrom passed cs = .ok attributes) :
    Named attributes := by
  fun_induction readFrom passed cs with
  | case1 passed cs hcs =>
    rw [Except.ok.injEq] at h
    rwa [← h]
  | case2 => simp at h
  | case3 => simp at h
  | case4 => simp at h
  | case5 passed cs c rest hcs hspace a after hread hnew hlen ih =>
    refine ih ⟨?_, ?_⟩ h
    · intro b hb
      rcases List.mem_cons.1 (List.mem_reverse.1 hb) with rfl | hb
      · obtain ⟨front, -, hspelled⟩ := exists_of_read hread
        exact hspelled.isName
      · exact hpassed.isName b (by simpa using hb)
    · rw [List.reverse_cons, List.map_append, List.nodup_append]
      refine ⟨hpassed.nodup, by simp, ?_⟩
      simpa using hnew

/-- **What is read off a section has names, each once.** -/
theorem named_of_readAll {cs : List Char} {attributes : List Attribute}
    (h : readAll cs = .ok attributes) : Named attributes :=
  named_of_readFrom [] named_nil h

/-- **What is read is what is spelled**, each name once, if white space sets the section off from
what stands in front of it. -/
theorem readAll_eq_ok_iff {cs : List Char} {attributes : List Attribute}
    (hspace : ∀ c ∈ cs.head?, isSpace c = true) :
    readAll cs = .ok attributes ↔
      AllSpelled attributes cs ∧ (attributes.map (·.name)).Nodup := by
  constructor
  · intro h
    obtain ⟨back, rfl, hback⟩ := exists_of_readFrom (fun _ => hspace) h
    exact ⟨hback, (named_of_readAll h).nodup⟩
  · rintro ⟨hspelled, hnodup⟩
    exact readFrom_of_allSpelled hspelled [] hnodup

/-- Where the first attribute starts, white space makes no difference. -/
theorem readAll_eq (cs : List Char) :
    readAll cs = match cs.dropWhile isSpace with
      | [] => .ok []
      | c :: rest =>
        match read (c :: rest) with
        | .error e => .error e
        | .ok (a, after) => readFrom [a] after := by
  rw [readAll, readFrom]
  split
  · next hcs => rw [hcs, List.reverse_nil]
  · next c rest hcs =>
    conv => rhs; rw [hcs]
    simp only [List.isEmpty_nil, Bool.not_true, Bool.false_and, Bool.false_eq_true, if_false,
      List.any_nil]
    split
    · next e hread => rw [hread]
    · next a after hread => rw [hread]

/-! ## Writing -/

/-- An attribute behind the space that separates it. -/
def spell (a : Attribute) : List Char :=
  ' ' :: (a.name.toList ++ '=' :: '"' :: (Reference.escapeAttribute a.value.toList ++ ['"']))

/-- A whole section. -/
def spellAll (attributes : List Attribute) : List Char := attributes.flatMap spell

theorem spellAll_cons (a : Attribute) (attributes : List Attribute) :
    spellAll (a :: attributes) = spell a ++ spellAll attributes :=
  List.flatMap_cons

theorem exists_of_spell {a : Attribute} (h : isName a.name.toList = true) :
    ∃ front, spell a = [' '] ++ front ∧ a.Spelled front := by
  have hquote : '"' ∉ Reference.escapeAttribute a.value.toList :=
    Reference.not_mem_escapeAttribute (by decide) _
  have hmarkup : '<' ∉ Reference.escapeAttribute a.value.toList :=
    Reference.not_mem_escapeAttribute (by decide) _
  refine ⟨_, ?_, .intro h (List.forall_mem_nil _) (List.forall_mem_nil _) (by decide) hquote hmarkup
    (Reference.decode_escapeAttribute _)⟩
  simp [spell]

/-- **What is written is spelled.** -/
theorem allSpelled_spellAll {attributes : List Attribute}
    (h : ∀ a ∈ attributes, isName a.name.toList = true) :
    AllSpelled attributes (spellAll attributes) := by
  induction attributes with
  | nil => exact .nil (List.forall_mem_nil _)
  | cons a attributes ih =>
    obtain ⟨hname, hnames⟩ := List.forall_mem_cons.1 h
    obtain ⟨front, hfront, ha⟩ := exists_of_spell hname
    rw [spellAll_cons, hfront]
    exact .cons (List.cons_ne_nil _ _) (List.forall_mem_singleton.2 rfl) ha (ih hnames)

/-- **A written section is read back.** -/
theorem readAll_spellAll {attributes : List Attribute} (h : Named attributes) :
    readAll (spellAll attributes) = .ok attributes := by
  have hspelled := allSpelled_spellAll h.isName
  exact (readAll_eq_ok_iff hspelled.isSpace_head).2 ⟨hspelled, h.nodup⟩

end Groundwork.Xml.Attribute
