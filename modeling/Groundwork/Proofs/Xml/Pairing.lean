import Groundwork.Xml.Token.Lexer
import Mathlib.Data.List.Basic
import Mathlib.Data.Option.Basic

/-!
# `Proofs.Xml.Pairing` — quotes and brackets that pair up

The end of a document type is searched for with an eye on quotes and brackets only: inside quotes
nothing but the same quote counts, and outside quotes the brackets are counted. `Search.step` is one
step of this search, and a document type ends where the search stands as at its start, in front of a
`>`. A text in which quotes and brackets pair up leaves the search as it was, inside brackets.
Quotes that do not pair up in a text are still open behind it, and no text in which they do closes
them.

## Contents

* `Search`, `splitDoctypeFrom_eq_some_iff` — **the search**, one character after the other.
* `Paired`, `Search.behind_of_paired`, `Search.paired_of_behind` — quotes and brackets that pair up.
* `QuotesPair`, `quotesPair_iff`, `QuotesPair.foldl_turn_ne_none` — quotes alone.
-/

namespace Groundwork.Xml

open Text

/-! ## The search, one character after the other -/

/-- How the search for the end of a document type stands: the number of brackets that are open, and
the quote it stands inside, if it does. -/
structure Search where
  depth : Nat
  quote : Option Char
  deriving DecidableEq, Repr

/-- The quote that one stands inside behind a character. -/
def turn (quote : Option Char) (c : Char) : Option Char :=
  match quote with
  | some q => if c = q then none else some q
  | none => if c ∈ Attribute.quotes then some c else none

namespace Search

/-- The start of a search. -/
def start : Search := ⟨0, none⟩

/-- How the search stands behind a character: nothing, if this is the end. -/
def step (s : Search) (c : Char) : Option Search :=
  match s.quote with
  | some q => some ⟨s.depth, if c = q then none else some q⟩
  | none =>
    if c ∈ Attribute.quotes then some ⟨s.depth, some c⟩
    else if c = '[' then some ⟨s.depth + 1, none⟩
    else if c = ']' then some ⟨s.depth - 1, none⟩
    else if c = '>' && s.depth = 0 then none
    else some ⟨s.depth, none⟩

/-- How the search stands behind a text: nothing, if the text holds the end. -/
def behind (s : Search) (cs : List Char) : Option Search := cs.foldlM step s

variable {s s' : Search} {depth : Nat} {c : Char} {cs : List Char}

theorem behind_cons (s : Search) (c : Char) (cs : List Char) :
    s.behind (c :: cs) = (s.step c).bind fun s' => s'.behind cs := List.foldlM_cons

theorem behind_append (s : Search) (front back : List Char) :
    s.behind (front ++ back) = (s.behind front).bind fun s' => s'.behind back :=
  List.foldlM_append

theorem step_inside (depth : Nat) (q c : Char) :
    step ⟨depth, some q⟩ c = some ⟨depth, turn (some q) c⟩ := rfl

theorem step_quote {q : Char} (hq : q ∈ Attribute.quotes) :
    step ⟨depth, none⟩ q = some ⟨depth, some q⟩ := by
  simp only [step, if_pos hq]

theorem step_open (depth : Nat) : step ⟨depth, none⟩ '[' = some ⟨depth + 1, none⟩ := rfl

theorem step_close (depth : Nat) : step ⟨depth, none⟩ ']' = some ⟨depth - 1, none⟩ := rfl

theorem step_plain (hquote : c ∉ Attribute.quotes) (hbracket : c ∉ ['[', ']'])
    (hend : ¬ (c = '>' ∧ depth = 0)) : step ⟨depth, none⟩ c = some ⟨depth, none⟩ := by
  rw [List.mem_pair, not_or] at hbracket
  simp only [step, if_neg hquote, if_neg hbracket.1, if_neg hbracket.2]
  exact if_neg (by simpa using hend)

/-- What a character can do: quotes open and close whatever the brackets, and brackets count outside
quotes only. -/
theorem step_cases (h : s.step c = some s') :
    s'.quote = turn s.quote c ∧
      (s'.depth = s.depth ∨ c = '[' ∧ s'.depth = s.depth + 1 ∨
        c = ']' ∧ s'.depth = s.depth - 1) := by
  obtain ⟨depth, quote⟩ := s
  cases quote with
  | some q =>
    obtain rfl := Option.some.inj (step_inside depth q c ▸ h)
    exact ⟨rfl, .inl rfl⟩
  | none =>
    by_cases hquote : c ∈ Attribute.quotes
    · obtain rfl := Option.some.inj (step_quote hquote ▸ h)
      exact ⟨by simp [turn, hquote], .inl rfl⟩
    have hturn : turn none c = none := by simp [turn, hquote]
    by_cases hopen : c = '['
    · subst hopen
      obtain rfl := Option.some.inj (step_open depth ▸ h)
      exact ⟨hturn.symm, .inr (.inl ⟨rfl, rfl⟩)⟩
    by_cases hclose : c = ']'
    · subst hclose
      obtain rfl := Option.some.inj (step_close depth ▸ h)
      exact ⟨hturn.symm, .inr (.inr ⟨rfl, rfl⟩)⟩
    by_cases hend : c = '>' ∧ depth = 0
    · obtain ⟨rfl, rfl⟩ := hend
      cases h
    · have hbracket : c ∉ ['[', ']'] := by simp [hopen, hclose]
      obtain rfl := Option.some.inj (step_plain hquote hbracket hend ▸ h)
      exact ⟨hturn.symm, .inl rfl⟩

/-- The only end is a `>` outside quotes and brackets. -/
theorem eq_of_step_eq_none (h : s.step c = none) : s = start ∧ c = '>' := by
  obtain ⟨depth, quote⟩ := s
  cases quote with
  | some q => cases h
  | none =>
    simp only [step] at h
    split_ifs at h with hquote hopen hclose hend
    simp only [Bool.and_eq_true, decide_eq_true_eq] at hend
    exact ⟨by rw [hend.2, start], hend.1⟩

theorem quote_of_behind (h : s.behind cs = some s') : s'.quote = cs.foldl turn s.quote := by
  induction cs generalizing s with
  | nil =>
    obtain rfl := Option.some.inj h
    rfl
  | cons c cs ih =>
    obtain ⟨next, hstep, hnext⟩ := Option.bind_eq_some_iff.1 h
    rw [List.foldl_cons, ← (step_cases hstep).1]
    exact ih hnext

/-- Without a closing bracket, brackets are opened only. -/
theorem depth_le_of_behind (h : s.behind cs = some s') (hclose : ']' ∉ cs) :
    s.depth ≤ s'.depth := by
  induction cs generalizing s with
  | nil =>
    obtain rfl := Option.some.inj h
    exact Nat.le_refl _
  | cons c cs ih =>
    rw [List.mem_cons, not_or] at hclose
    obtain ⟨next, hstep, hnext⟩ := Option.bind_eq_some_iff.1 h
    have hle := ih hnext hclose.2
    rcases (step_cases hstep).2 with heq | ⟨-, heq⟩ | ⟨hc, -⟩
    · omega
    · omega
    · exact absurd hc.symm hclose.1

end Search

namespace Lexeme

open Search

theorem splitDoctypeFrom_cons (passed : List Char) (s : Search) (c : Char) (cs : List Char) :
    splitDoctypeFrom passed s.depth s.quote (c :: cs) =
      match s.step c with
      | some s' => splitDoctypeFrom (c :: passed) s'.depth s'.quote cs
      | none => some (passed.reverse, cs) := by
  obtain ⟨depth, quote⟩ := s
  cases quote with
  | some q => rfl
  | none =>
    rw [splitDoctypeFrom]
    simp only [step]
    split_ifs <;> rfl

theorem prefix_of_splitDoctypeFrom {passed cs inside rest : List Char} {depth : Nat}
    {quote : Option Char} (h : splitDoctypeFrom passed depth quote cs = some (inside, rest)) :
    passed.reverse <+: inside := by
  have hcons : ∀ (passed : List Char) (c : Char), passed.reverse <+: (c :: passed).reverse := by
    intro passed c
    rw [List.reverse_cons]
    exact List.prefix_append _ _
  fun_induction splitDoctypeFrom passed depth quote cs with
  | case1 => cases h
  | case6 =>
    obtain ⟨rfl, -⟩ := Prod.mk.inj (Option.some.inj h)
    exact List.prefix_rfl
  | case2 _ _ _ _ _ ih | case3 _ _ _ _ _ ih | case4 _ _ _ _ ih | case5 _ _ _ _ _ ih
  | case7 _ _ _ _ _ _ _ _ ih => exact (hcons _ _).trans (ih h)

/-- **Where a document type ends**: at the `>` at which the search stands as at its start, without
having stood so at an earlier one. -/
theorem splitDoctypeFrom_eq_some_iff {passed inside rest : List Char} {s : Search} :
    splitDoctypeFrom passed s.depth s.quote (inside ++ '>' :: rest) =
      some (passed.reverse ++ inside, rest) ↔ s.behind inside = some Search.start := by
  induction inside generalizing passed s with
  | nil =>
    rw [List.nil_append, List.append_nil, splitDoctypeFrom_cons]
    cases hstep : s.step '>' with
    | none =>
      obtain ⟨rfl, -⟩ := eq_of_step_eq_none hstep
      exact iff_of_true rfl rfl
    | some s' =>
      refine iff_of_false (fun h => ?_) (fun h => ?_)
      · have hlength := (prefix_of_splitDoctypeFrom h).length_le
        simp only [List.length_reverse, List.length_cons] at hlength
        omega
      · obtain rfl := Option.some.inj h
        cases hstep
  | cons c inside ih =>
    rw [List.cons_append, splitDoctypeFrom_cons, behind_cons]
    cases hstep : s.step c with
    | none =>
      refine iff_of_false (fun h => ?_) (fun h => by cases h)
      obtain ⟨hpassed, -⟩ := Prod.mk.inj (Option.some.inj h)
      simp at hpassed
    | some s' =>
      have hih := @ih (c :: passed) s'
      rw [List.reverse_cons, List.append_assoc, List.singleton_append] at hih
      exact hih

end Lexeme

/-! ## Quotes and brackets that pair up -/

/-- Quotes and brackets pair up in the text: every quote is closed by the next one of its kind, and
outside quotes every bracket has its own. -/
inductive Paired : List Char → Prop where
  | nil : Paired []
  | plain {c : Char} {cs : List Char} (hquote : c ∉ Attribute.quotes) (hbracket : c ∉ ['[', ']'])
      (h : Paired cs) : Paired (c :: cs)
  | quoted {q : Char} {body cs : List Char} (hq : q ∈ Attribute.quotes) (hbody : q ∉ body)
      (h : Paired cs) : Paired (q :: (body ++ q :: cs))
  | bracketed {inner cs : List Char} (hinner : Paired inner) (h : Paired cs) :
    Paired ('[' :: (inner ++ ']' :: cs))

theorem Paired.append {front back : List Char} (hfront : Paired front) (hback : Paired back) :
    Paired (front ++ back) := by
  induction hfront with
  | nil => exact hback
  | plain hquote hbracket _ ih => exact .plain hquote hbracket ih
  | @quoted q body cs hq hbody _ ih =>
    rw [List.cons_append, List.append_assoc, List.cons_append]
    exact .quoted hq hbody ih
  | @bracketed inner cs hinner _ _ ih =>
    rw [List.cons_append, List.append_assoc, List.cons_append]
    exact .bracketed hinner ih

theorem Paired.of_plain {cs : List Char}
    (h : cs.all (· ∉ Attribute.quotes ++ ['[', ']']) = true) : Paired cs := by
  induction cs with
  | nil => exact .nil
  | cons c cs ih =>
    rw [List.all_cons, Bool.and_eq_true, decide_eq_true_eq, List.mem_append, not_or] at h
    exact .plain h.1.1 h.1.2 (ih h.2)

namespace Search

variable {depth : Nat} {inside : List Char}

/-- A literal is passed over as a whole. -/
theorem behind_literal {q : Char} {body : List Char} (hq : q ∈ Attribute.quotes)
    (hbody : q ∉ body) (depth : Nat) (cs : List Char) :
    behind ⟨depth, none⟩ (q :: (body ++ q :: cs)) = behind ⟨depth, none⟩ cs := by
  rw [behind_cons, step_quote hq, Option.bind_some]
  induction body with
  | nil =>
    rw [List.nil_append, behind_cons, step_inside, turn, if_pos rfl, Option.bind_some]
  | cons c body ih =>
    rw [List.mem_cons, not_or] at hbody
    rw [List.cons_append, behind_cons, step_inside, turn, if_neg (Ne.symm hbody.1),
      Option.bind_some, ih hbody.2]

/-- **Inside brackets, a text in which quotes and brackets pair up is passed over.** -/
theorem behind_of_paired (h : Paired inside) (hdepth : depth ≠ 0) :
    behind ⟨depth, none⟩ inside = some ⟨depth, none⟩ := by
  induction h generalizing depth with
  | nil => rfl
  | plain hquote hbracket _ ih =>
    rw [behind_cons, step_plain hquote hbracket (fun hend => hdepth hend.2), Option.bind_some,
      ih hdepth]
  | quoted hq hbody _ ih => rw [behind_literal hq hbody, ih hdepth]
  | @bracketed inner inside _ _ ihinner ih =>
    rw [behind_cons, step_open, Option.bind_some, behind_append,
      ihinner (Nat.add_one_ne_zero depth), Option.bind_some, behind_cons, step_close,
      Option.bind_some, Nat.add_sub_cancel, ih hdepth]

end Search

/-! ## Quotes that pair up -/

/-- Inside quotes, a text that does not hold them changes nothing. -/
theorem foldl_turn_of_not_mem {q : Char} {cs : List Char} (h : q ∉ cs) :
    cs.foldl turn (some q) = some q := by
  induction cs with
  | nil => rfl
  | cons c cs ih =>
    rw [List.mem_cons, not_or] at h
    rw [List.foldl_cons, turn, if_neg (Ne.symm h.1), ih h.2]

theorem foldl_turn_literal {q : Char} {body : List Char} (hq : q ∈ Attribute.quotes)
    (hbody : q ∉ body) (cs : List Char) :
    (q :: (body ++ q :: cs)).foldl turn none = cs.foldl turn none := by
  rw [List.foldl_cons, turn, if_pos hq, List.foldl_append, foldl_turn_of_not_mem hbody,
    List.foldl_cons, turn, if_pos rfl]

/-- Every quote is closed by the next one of its kind. -/
inductive QuotesPair : List Char → Prop where
  | nil : QuotesPair []
  | plain {c : Char} {cs : List Char} (hc : c ∉ Attribute.quotes) (h : QuotesPair cs) :
    QuotesPair (c :: cs)
  | quoted {q : Char} {body cs : List Char} (hq : q ∈ Attribute.quotes) (hbody : q ∉ body)
      (h : QuotesPair cs) : QuotesPair (q :: (body ++ q :: cs))

/-- **Quotes pair up in a text behind which one stands outside of them.** -/
theorem quotesPair_iff (cs : List Char) : QuotesPair cs ↔ cs.foldl turn none = none := by
  constructor
  · intro h
    induction h with
    | nil => rfl
    | plain hc _ ih => rw [List.foldl_cons, turn, if_neg hc, ih]
    | quoted hq hbody _ ih => rw [foldl_turn_literal hq hbody, ih]
  · intro h
    induction hn : cs.length using Nat.strongRecOn generalizing cs with
    | ind n ih =>
      cases cs with
      | nil => exact .nil
      | cons c cs =>
        by_cases hc : c ∈ Attribute.quotes
        · by_cases hmem : c ∈ cs
          · obtain ⟨body, rest, rfl, hbody⟩ := List.eq_append_cons_of_mem hmem
            rw [foldl_turn_literal hc hbody] at h
            exact .quoted hc hbody (ih _ (by simp at hn; omega) rest h rfl)
          · rw [List.foldl_cons, turn, if_pos hc, foldl_turn_of_not_mem hmem] at h
            cases h
        · rw [List.foldl_cons, turn, if_neg hc] at h
          exact .plain hc (ih _ (by simp at hn; omega) cs h rfl)

/-- From anywhere but inside the quotes `q`, a text without them leads to such a place again. -/
theorem foldl_turn_ne {q : Char} {quote : Option Char} {body : List Char} (hbody : q ∉ body)
    (h : quote ≠ some q) : body.foldl turn quote ≠ some q := by
  induction body generalizing quote with
  | nil => exact h
  | cons c body ih =>
    rw [List.mem_cons, not_or] at hbody
    refine ih hbody.2 ?_
    cases quote with
    | none =>
      rw [turn]
      split
      · exact fun heq => hbody.1 (Option.some.inj heq).symm
      · exact Option.some_ne_none _ ∘ Eq.symm
    | some other =>
      rw [turn]
      split
      · exact Option.some_ne_none _ ∘ Eq.symm
      · exact h

/-- A quote turns all but its own inside. -/
theorem turn_eq_none_iff {q : Char} (hq : q ∈ Attribute.quotes) {quote : Option Char} :
    turn quote q = none ↔ quote = some q := by
  cases quote with
  | none => simp [turn, hq]
  | some other => simp [turn, eq_comm]

/-- Only quotes are taken for quotes. -/
theorem mem_quotes_of_foldl_turn {quote : Option Char} (h : ∀ q ∈ quote, q ∈ Attribute.quotes)
    (cs : List Char) : ∀ q ∈ cs.foldl turn quote, q ∈ Attribute.quotes := by
  induction cs generalizing quote with
  | nil => exact h
  | cons c cs ih =>
    refine ih fun q hq => ?_
    unfold turn at hq
    split at hq
    · next other =>
      split at hq
      · cases hq
      · exact h q hq
    · split at hq
      · next hc => exact Option.some.inj hq ▸ hc
      · cases hq

/-- **No text in which quotes pair up leads out of quotes.** -/
theorem QuotesPair.foldl_turn_ne_none {cs : List Char} (h : QuotesPair cs) {quote : Option Char}
    (hquotes : ∀ q ∈ quote, q ∈ Attribute.quotes) (hquote : quote ≠ none) :
    cs.foldl turn quote ≠ none := by
  induction h generalizing quote with
  | nil => exact hquote
  | @plain c cs hc _ ih =>
    obtain ⟨q, rfl⟩ := Option.ne_none_iff_exists'.1 hquote
    have hne : c ≠ q := fun heq => hc (heq ▸ hquotes q rfl)
    rw [List.foldl_cons, turn, if_neg hne]
    exact ih hquotes hquote
  | @quoted q body cs hq hbody _ ih =>
    have hopened : turn quote q ≠ some q := by
      obtain ⟨other, rfl⟩ := Option.ne_none_iff_exists'.1 hquote
      rw [turn]
      split
      · exact (Option.some_ne_none q).symm
      · next hne => exact fun heq => hne (Option.some.inj heq).symm
    have hclosed : turn (body.foldl turn (turn quote q)) q ≠ none := by
      rw [Ne, turn_eq_none_iff hq]
      exact foldl_turn_ne hbody hopened
    have hmem := mem_quotes_of_foldl_turn hquotes (q :: (body ++ [q]))
    rw [List.foldl_cons, List.foldl_append, List.foldl_cons] at hmem ⊢
    exact ih hmem hclosed

theorem QuotesPair.append {front back : List Char} (hfront : QuotesPair front)
    (hback : QuotesPair back) : QuotesPair (front ++ back) := by
  rw [quotesPair_iff, List.foldl_append, (quotesPair_iff front).1 hfront]
  exact (quotesPair_iff back).1 hback

/-- Quotes that are left open in front stay open. -/
theorem QuotesPair.of_append {front back : List Char} (h : QuotesPair (front ++ back))
    (hback : QuotesPair back) : QuotesPair front := by
  rw [quotesPair_iff, List.foldl_append] at h
  rw [quotesPair_iff]
  by_contra hopen
  exact hback.foldl_turn_ne_none (mem_quotes_of_foldl_turn (by simp) front) hopen h

theorem QuotesPair.of_append_left {front back : List Char} (h : QuotesPair (front ++ back))
    (hfront : QuotesPair front) : QuotesPair back := by
  rw [quotesPair_iff, List.foldl_append, (quotesPair_iff front).1 hfront] at h
  exact (quotesPair_iff back).2 h

theorem Paired.quotesPair {cs : List Char} (h : Paired cs) : QuotesPair cs := by
  have hclose : ']' ∉ Attribute.quotes := by decide
  have hopen : '[' ∉ Attribute.quotes := by decide
  induction h with
  | nil => exact .nil
  | plain hquote _ _ ih => exact .plain hquote ih
  | quoted hq hbody _ ih => exact .quoted hq hbody ih
  | bracketed _ _ ihinner ih => exact .plain hopen (ihinner.append (.plain hclose ih))

/-- Without closing brackets, quotes and brackets pair up in a text that leaves the search as it
was. -/
theorem Search.paired_of_behind {cs : List Char} {depth : Nat} (hclose : ']' ∉ cs)
    (h : behind ⟨depth, none⟩ cs = some ⟨depth, none⟩) : Paired cs := by
  induction hn : cs.length using Nat.strongRecOn generalizing cs with
  | ind n ih =>
    cases cs with
    | nil => exact .nil
    | cons c cs =>
      have hquotes : QuotesPair (c :: cs) := (quotesPair_iff _).2 (quote_of_behind h).symm
      rw [List.mem_cons, not_or] at hclose
      by_cases hc : c ∈ Attribute.quotes
      · cases hquotes with
        | plain hplain _ => exact absurd hc hplain
        | @quoted _ body rest _ hbody _ =>
          rw [behind_literal hc hbody] at h
          have hrest : ']' ∉ rest := fun hmem => hclose.2 (by simp [hmem])
          exact .quoted hc hbody (ih _ (by simp at hn; omega) hrest h rfl)
      · obtain ⟨next, hstep, hnext⟩ := Option.bind_eq_some_iff.1 h
        have hopen : c ≠ '[' := by
          rintro rfl
          obtain rfl := Option.some.inj hstep
          have hle := depth_le_of_behind hnext hclose.2
          simp only at hle
          omega
        have hbracket : c ∉ ['[', ']'] := by simp [hopen, Ne.symm hclose.1]
        have hend : ¬ (c = '>' ∧ depth = 0) := by
          rintro ⟨rfl, rfl⟩
          cases hstep
        obtain rfl := Option.some.inj (step_plain hc hbracket hend ▸ hstep)
        exact .plain hc hbracket (ih _ (by simp at hn; omega) hclose.2 hnext rfl)

end Groundwork.Xml
