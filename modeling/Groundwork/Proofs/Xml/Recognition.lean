import Groundwork.Proofs.Xml.Offset.Run
import Groundwork.Proofs.Xml.Spelling
import Mathlib.Tactic.TFAE

/-!
# `Proofs.Xml.Recognition` — one notion of a name

What a name is gets decided in several places. A text that is given to a node is checked as a whole;
the name of a tag and the target of an instruction are taken off the text behind an opening, and the
name of an attribute off a section, each as long as it can be. Whatever a text holds, be it quotes,
slashes or the end of a tag, these places agree on it: it passes the check exactly if each reader,
given the text in its place, takes all of it for the name and finds nothing else. Each of them may
see single bytes instead of characters.

## Contents

* `isNameBytes`, `isNameBytes_encode` — the check, made on single bytes.
* `Lexeme.Sequence.tokens`, `IsWhole` — what is read of a text, and that this is one token;
  `isWhole_tfae`, for a token that is spelled.
* `isName_tfae` — **all that recognizes names agrees.**
-/

namespace Groundwork.Xml

open Text

/-! ## Names as bytes -/

/-- The bytes form a name. -/
def isNameBytes : List UInt8 → Bool
  | [] => false
  | b :: bytes =>
    isNameStart (Char.ofUInt8 b) && bytes.all fun d => isNamePart (Char.ofUInt8 d)

/-- **A name shows in its bytes.** -/
theorem isNameBytes_encode (cs : List Char) : isNameBytes (Utf8.encode cs) = isName cs := by
  cases cs with
  | nil => rfl
  | cons c cs =>
    obtain ⟨b, more, hbytes⟩ := exists_utf8EncodeChar c
    have hmem : ∀ d ∈ b :: more, d ∈ String.utf8EncodeChar c := by
      rw [hbytes]
      exact fun _ => id
    rw [Utf8.encode_cons, hbytes, List.cons_append, isNameBytes, isName,
      steadyClass_isNameStart.eq_of_mem (hmem b List.mem_cons_self), List.all_append,
      all_encode steadyClass_isNamePart]
    cases hc : isNameStart c with
    | false => rfl
    | true =>
      have hpart : isNamePart c = true := by rw [isNamePart, hc]; rfl
      have hmore : (more.all fun d => isNamePart (Char.ofUInt8 d)) = true :=
        List.all_eq_true.2 fun d hd =>
          (steadyClass_isNamePart.eq_of_mem (hmem d (List.mem_cons_of_mem b hd))).trans hpart
      rw [hmore, Bool.true_and]

/-! ## Texts of one token -/

/-- The tokens that have been read, whether or not a fault ended them. -/
def Lexeme.Sequence.tokens (sequence : Sequence) : List Token :=
  sequence.lexemes.map (·.item.token)

/-- A text is one token, from its first character to its last, and holds no fault. -/
structure IsWhole (text : String) (token : Token) : Prop where
  /-- Read character by character. -/
  chars : Lexeme.readAll text.toList = ⟨[⟨⟨token, text.toList⟩, 0⟩], none⟩
  /-- Read byte by byte. -/
  bytes : Offset.tokens text.toList = some ⟨[⟨token, 0, Utf8.size text.toList⟩], none⟩

variable {text : String} {token : Token}

theorem IsWhole.of_spelled (hspelled : token.Spelled text.toList) (htoken : token.Renderable) :
    IsWhole text token := by
  let lexeme : Lexeme := ⟨token, text.toList⟩
  have hreads : Lexeme.Reads 0 (Lexeme.spellAll [lexeme]) [lexeme] none :=
    .of_spelled 0 (List.forall_mem_singleton.2 ⟨htoken, hspelled⟩) (.singleton _)
  rw [Lexeme.spellAll_cons, Lexeme.spellAll, List.flatMap_nil, List.append_nil] at hreads
  have hchars : Lexeme.readAll text.toList = ⟨[⟨lexeme, 0⟩], none⟩ :=
    hreads.readFrom_eq
  have hbytes : Offset.tokens text.toList = some (.ofLexemes (Lexeme.readAll text.toList)) :=
    Offset.tokensFrom_eq (StandsAt.zero _) []
  refine ⟨hchars, ?_⟩
  rw [hbytes, hchars, ← Nat.zero_add (Utf8.size text.toList)]
  rfl

theorem IsWhole.tokens_eq (h : IsWhole text token) :
    (Lexeme.readAll text.toList).tokens = [token] := by
  rw [h.chars]
  rfl

theorem exists_sound_of_tokens (h : (Lexeme.readAll text.toList).tokens = [token]) :
    ∃ start, token.Sound start := by
  have hmem : token ∈ (Lexeme.readAll text.toList).tokens := by
    rw [h]
    exact List.mem_singleton_self token
  obtain ⟨lexeme, hlexeme, rfl⟩ := List.mem_map.1 hmem
  exact ⟨lexeme.start, Lexeme.sound_of_mem_readFrom (List.forall_mem_nil _) lexeme hlexeme⟩

/-- **A spelled token is read as a whole, or not at all**, if what has to hold of each token that is
read also lets it be told from what stands around it. -/
theorem isWhole_tfae {p : Prop} (hspelled : token.Spelled text.toList)
    (hrenderable : p → token.Renderable) (hsound : ∀ start, token.Sound start → p) :
    [p, (Lexeme.readAll text.toList).tokens = [token], IsWhole text token].TFAE := by
  tfae_have 1 → 3 := fun h => .of_spelled hspelled (hrenderable h)
  tfae_have 3 → 2 := IsWhole.tokens_eq
  tfae_have 2 → 1 := by
    intro h
    obtain ⟨start, htoken⟩ := exists_sound_of_tokens h
    exact hsound start htoken
  tfae_finish

/-! ## A name in its places -/

section Place

variable (name : String)

theorem emptyTag_tfae :
    [isName name.toList = true,
      (Lexeme.readAll ("<" ++ name ++ "/>").toList).tokens = [.emptyTag name.toList []],
      IsWhole ("<" ++ name ++ "/>") (.emptyTag name.toList [])].TFAE := by
  refine isWhole_tfae ?_ (fun h => ⟨h, by simp, .nil⟩) fun _ h => h
  have hspelled := Token.Spelled.emptyTag name.toList []
  rw [List.append_nil] at hspelled
  rwa [String.toList_append, String.toList_append]

theorem endTag_tfae :
    [isName name.toList = true,
      (Lexeme.readAll ("</" ++ name ++ ">").toList).tokens = [.endTag name.toList],
      IsWhole ("</" ++ name ++ ">") (.endTag name.toList)].TFAE := by
  refine isWhole_tfae ?_ (fun h => h) fun _ h => h
  have hspelled := Token.Spelled.endTag name.toList (List.forall_mem_nil _)
  rw [List.append_nil] at hspelled
  rwa [String.toList_append, String.toList_append]

theorem instruction_tfae :
    [isName name.toList = true ∧ isReserved name.toList = false,
      (Lexeme.readAll ("<?" ++ name ++ "?>").toList).tokens = [.instruction name.toList none],
      IsWhole ("<?" ++ name ++ "?>") (.instruction name.toList none)].TFAE := by
  refine isWhole_tfae ?_ (fun h => ⟨h.1, h.2, by simp⟩) fun _ h => ⟨h.1, h.2.1⟩
  have hspelled := Token.Spelled.instruction name.toList Token.dataSpelled_none
  rw [List.append_nil] at hspelled
  rwa [String.toList_append, String.toList_append]

/-- An attribute with an empty value, in a section of its own. -/
theorem readAll_empty_iff :
    Attribute.readAll (" " ++ name ++ "=\"\"").toList = .ok [⟨name, ""⟩] ↔
      isName name.toList = true := by
  constructor
  · intro h
    exact (Attribute.named_of_readAll h).isName _ List.mem_cons_self
  · intro h
    have hnamed : Attribute.Named [⟨name, ""⟩] :=
      ⟨List.forall_mem_singleton.2 h, by simp⟩
    have hspelled : (" " ++ name ++ "=\"\"").toList = Attribute.spellAll [⟨name, ""⟩] := by
      simp [Attribute.spellAll, Attribute.spell, Reference.escapeAttribute]
    rw [hspelled]
    exact Attribute.readAll_spellAll hnamed

end Place

/-- **All that recognizes names agrees.** What passes the check, on characters or on bytes, is what
is read as the name of an empty tag, of an end tag and of an attribute, and, unless it is reserved,
as the target of an instruction. It is enough that no other token is read off the text; then all of
it has been read, and without a fault. -/
theorem isName_tfae (name : String) :
    [isName name.toList = true,
      isNameBytes (Utf8.encode name.toList) = true,
      (Lexeme.readAll ("<" ++ name ++ "/>").toList).tokens = [.emptyTag name.toList []],
      IsWhole ("<" ++ name ++ "/>") (.emptyTag name.toList []),
      (Lexeme.readAll ("</" ++ name ++ ">").toList).tokens = [.endTag name.toList],
      IsWhole ("</" ++ name ++ ">") (.endTag name.toList),
      Attribute.readAll (" " ++ name ++ "=\"\"").toList = .ok [⟨name, ""⟩],
      Offset.attributes (" " ++ name ++ "=\"\"").toList = some (.ok [⟨name, ""⟩])].TFAE ∧
    [isName name.toList = true ∧ isReserved name.toList = false,
      (Lexeme.readAll ("<?" ++ name ++ "?>").toList).tokens = [.instruction name.toList none],
      IsWhole ("<?" ++ name ++ "?>") (.instruction name.toList none)].TFAE := by
  refine ⟨?_, instruction_tfae name⟩
  tfae_have 1 ↔ 2 := by rw [isNameBytes_encode]
  tfae_have 1 ↔ 3 := (emptyTag_tfae name).out 0 1
  tfae_have 1 ↔ 4 := (emptyTag_tfae name).out 0 2
  tfae_have 1 ↔ 5 := (endTag_tfae name).out 0 1
  tfae_have 1 ↔ 6 := (endTag_tfae name).out 0 2
  tfae_have 1 ↔ 7 := (readAll_empty_iff name).symm
  tfae_have 7 ↔ 8 := by rw [Offset.attributes_eq, Option.some.injEq]
  tfae_finish

end Groundwork.Xml
