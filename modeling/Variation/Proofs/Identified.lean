import Variation.Proofs.Expressions
import Variation.Proofs.Unambiguous

/-!
# Conditions that their texts tell apart

Every text is cut into tokens that are spelled as their kinds say, and an atom takes all of the brackets
that it opens. So the names in a condition have balanced brackets, and two conditions with the same text
are the same formula unless a name in one of them looks like the text of another formula: the constants
and names such as `!= A` or `A & B`.
-/

namespace Variation

namespace Text

/-! ## Brackets -/

section Brackets

variable {depth : Nat} {c : Char} {cs : List Char} {ws : List (List Char)}

/-- Whether a character is a bracket. -/
def isBracket (c : Char) : Bool := c == '(' || c == ')'

/-- The brackets of a text. -/
def brackets (cs : List Char) : List Char := cs.filter isBracket

theorem notMem_of_not_isBracket (h : isBracket c = false) : c ∉ ['(', ')'] := by
  simpa [isBracket] using h

theorem depthAfter_brackets : depthAfter depth (brackets cs) = depthAfter depth cs := by
  induction cs generalizing depth with
  | nil => rfl
  | cons c cs ih =>
    rw [brackets, List.filter_cons]
    cases plain : isBracket c with
    | true =>
      rw [if_pos rfl, depthAfter_cons, depthAfter_cons]
      exact congrArg _ (funext fun left => ih)
    | false =>
      rw [if_neg Bool.false_ne_true, depthAfter_cons,
        depthBehind_of_plain (notMem_of_not_isBracket plain), Option.bind_some]
      exact ih

theorem brackets_append {cs' : List Char} : brackets (cs ++ cs') = brackets cs ++ brackets cs' :=
  List.filter_append ..

theorem brackets_eq_nil (h : ∀ c ∈ cs, isBracket c = false) : brackets cs = [] :=
  List.filter_eq_nil_iff.2 fun c hc => Bool.eq_false_iff.1 (h c hc)

/-- A property that the two brackets do not have tells a character from them. -/
theorem isBracket_eq_false {p : Char → Bool} (h : p c = true) (none : p '(' = false ∧ p ')' = false) :
    isBracket c = false := by
  refine Bool.or_eq_false_iff.2 ⟨beq_eq_false_iff_ne.2 ?_, beq_eq_false_iff_ne.2 ?_⟩
  · rintro rfl
    exact Bool.false_ne_true (none.1.symm.trans h)
  · rintro rfl
    exact Bool.false_ne_true (none.2.symm.trans h)

theorem wordsFrom_cons (acc : List Char) : wordsFrom acc (c :: cs) =
    if isBlank c then (if acc.isEmpty then wordsFrom [] cs else acc.reverse :: wordsFrom [] cs)
    else wordsFrom (c :: acc) cs := by
  cases acc <;> rfl

theorem brackets_wordsFrom (acc : List Char) :
    brackets (wordsFrom acc cs).flatten = brackets acc.reverse ++ brackets cs := by
  induction cs generalizing acc with
  | nil =>
    cases acc with
    | nil => rfl
    | cons a acc =>
      have last : wordsFrom (a :: acc) [] = [(a :: acc).reverse] := rfl
      rw [last, List.flatten_singleton]
      exact (List.append_nil _).symm
  | cons c cs ih =>
    rw [wordsFrom_cons]
    split
    · next blank =>
      have none : brackets (c :: cs) = brackets cs :=
        List.filter_cons_of_neg (Bool.eq_false_iff.1 (isBracket_eq_false blank (by decide)))
      rw [none]
      cases acc with
      | nil => exact ih []
      | cons a acc =>
        rw [List.isEmpty_cons, if_neg Bool.false_ne_true, List.flatten_cons, brackets_append]
        exact congrArg _ (ih [])
    · rw [ih, List.reverse_cons, brackets_append, List.append_assoc, ← brackets_append,
        List.singleton_append]

theorem brackets_intercalate :
    brackets (String.intercalate " " (ws.map String.ofList)).toList = brackets ws.flatten := by
  induction ws with
  | nil => rfl
  | cons w ws ih =>
    rw [List.map_cons, toList_intercalate_cons, String.toList_ofList, List.flatten_cons,
      brackets_append, brackets_append]
    refine congrArg _ ?_
    cases ws with
    | nil => rfl
    | cons w' ws => exact ih

/-- Blanks between words have no brackets. -/
theorem brackets_squeeze : brackets (squeeze cs).toList = brackets cs := by
  rw [squeeze, brackets_intercalate, words, brackets_wordsFrom]
  rfl

end Brackets

end Text

namespace Condition

open Text

/-! ## Tokens of a text -/

/-- A token with blanks in front of it and characters of its kind. -/
structure Token.IsRegular (k : Token) : Prop where
  gap : ∀ c ∈ k.gap, isGap c = true
  chars : k.kind.Spells k.chars

section Tokens

variable {k : Token} {ks : List Token} {c : Char} {cs : List Char}

theorem take_takeWhile (p : Char → Bool) :
    (c :: cs).take (1 + (cs.takeWhile p).length) = c :: cs.takeWhile p := by
  rw [Nat.add_comm, List.take_succ_cons, ← List.prefix_iff_eq_take.1 (List.takeWhile_prefix p)]

/-- What is taken as a token is spelled as its kind says. -/
theorem spells_nextToken (solid : isGap c = false) :
    (nextToken (c :: cs)).1.Spells ((c :: cs).take (nextToken (c :: cs)).2) := by
  unfold nextToken
  split
  · next eq => rw [eq]; rfl
  · next eq => rw [eq]; rfl
  · next eq => rw [eq]; exact List.mem_of_elem_eq_true rfl
  · next eq => rw [eq]; exact List.mem_of_elem_eq_true rfl
  · next eq => rw [eq]; exact List.mem_of_elem_eq_true rfl
  · next eq => rw [eq]; exact List.mem_of_elem_eq_true rfl
  · next eq => rw [eq]; exact List.mem_of_elem_eq_true rfl
  · next eq => rw [eq]; exact List.mem_of_elem_eq_true rfl
  · next eq => rw [eq]; rfl
  · next eq => rw [eq]; rfl
  · next eq => rw [eq]; rfl
  · next bang opening closing eq =>
    obtain ⟨rfl, rfl⟩ := List.cons.inj eq
    split_ifs with name digit
    · rw [take_takeWhile]
      exact ⟨name, List.all_eq_true.1 List.all_takeWhile⟩
    · rw [take_takeWhile]
      exact ⟨digit, List.all_eq_true.1 List.all_takeWhile⟩
    · refine ⟨?_, ?_⟩
      · simp only [List.mem_cons, List.not_mem_nil, or_false, not_or]
        exact ⟨bang, opening, closing⟩
      · rw [solid, Bool.eq_false_iff.2 name, Bool.eq_false_iff.2 digit]
        rfl
  · next eq => cases eq

theorem isRegular_tokensFrom (steps : Nat) {gap : List Char} (blank : ∀ c ∈ gap, isGap c = true) :
    ∀ k ∈ tokensFrom steps gap cs, k.IsRegular := by
  induction steps generalizing gap cs with
  | zero => exact List.forall_mem_nil _
  | succ steps ih =>
    cases cs with
    | nil => exact List.forall_mem_nil _
    | cons c cs =>
      rw [tokensFrom]
      split
      · next here => exact ih (List.forall_mem_append.2 ⟨blank, by simpa using here⟩)
      · next solid =>
        refine List.forall_mem_cons.2 ⟨⟨blank, spells_nextToken (Bool.eq_false_iff.2 solid)⟩, ?_⟩
        exact ih (List.forall_mem_nil _)

/-- Every text is cut into tokens that are spelled as their kinds say. -/
theorem isRegular_of_mem_tokens : ∀ k ∈ tokens cs, k.IsRegular :=
  isRegular_tokensFrom _ (List.forall_mem_nil _)

/-- The bracket that a kind of token is. -/
def TokenKind.bracket : TokenKind → List Char
  | opening => ['(']
  | closing => [')']
  | _ => []

/-- Only the tokens that are brackets have brackets. -/
theorem TokenKind.Spells.brackets {kind : TokenKind} (h : kind.Spells cs) :
    brackets cs = kind.bracket := by
  match kind, cs, h with
  | .or, _, rfl | .and, _, rfl | .not, _, rfl | .opening, _, rfl | .closing, _, rfl => rfl
  | .name, c :: cs, ⟨first, more⟩ =>
    exact brackets_eq_nil (List.forall_mem_cons.2 ⟨isBracket_eq_false first (by decide),
      fun x hx => isBracket_eq_false (more x hx) (by decide)⟩)
  | .number, c :: cs, ⟨first, more⟩ =>
    exact brackets_eq_nil (List.forall_mem_cons.2 ⟨isBracket_eq_false first (by decide),
      fun x hx => isBracket_eq_false (more x hx) (by decide)⟩)
  | .other, [c], ⟨sign, _⟩ =>
    refine brackets_eq_nil (List.forall_mem_singleton.2 (Bool.or_eq_false_iff.2 ?_))
    simp only [List.mem_cons, not_or] at sign
    exact ⟨beq_eq_false_iff_ne.2 sign.2.1, beq_eq_false_iff_ne.2 sign.2.2.1⟩
  | .other, a :: b :: cs, double =>
    have none : ∀ cs ∈ doubles, Text.brackets cs = [] := by decide
    exact none _ double

/-! ## Atoms -/

/-- A run ends outside of brackets, or it goes on behind a token at the depth that the token leads to. -/
theorem atomRun_cons (spells : k.kind.Spells k.chars) (depth : Nat) (ks : List Token) :
    atomRun depth (k :: ks) = ([], k :: ks, depth) ∨
      ∃ next, depthAfter depth (brackets k.chars) = some next ∧
        atomRun depth (k :: ks) = prepend [k] (atomRun next ks) := by
  have chars := spells.brackets
  obtain ⟨kind, gap, cs⟩ := k
  cases kind <;> cases depth <;> rw [chars]
  case or.zero | and.zero | closing.zero => exact .inl rfl
  all_goals exact .inr ⟨_, rfl, rfl⟩

/-- A run goes from one depth of brackets to another. -/
theorem depthAfter_atomRun {depth left : Nat} {run rest : List Token} (regular : ∀ k ∈ ks, k.IsRegular)
    (h : atomRun depth ks = (run, rest, left)) :
    depthAfter depth (run.flatMap fun k => brackets k.chars) = some left ∧ ks = run ++ rest := by
  induction ks generalizing depth run with
  | nil =>
    cases h
    exact ⟨rfl, rfl⟩
  | cons k ks ih =>
    obtain ⟨here, regular⟩ := List.forall_mem_cons.1 regular
    obtain stop | ⟨next, step, go⟩ := atomRun_cons here.chars depth ks
    · cases stop.symm.trans h
      exact ⟨rfl, rfl⟩
    · rw [go, prepend] at h
      obtain ⟨rfl, behind⟩ := Prod.mk.inj h
      obtain ⟨inner, whole⟩ := ih regular (Prod.ext rfl behind)
      refine ⟨?_, congrArg (k :: ·) whole⟩
      rw [List.singleton_append, List.flatMap_cons, depthAfter_append, step]
      exact inner

theorem brackets_flatMap (regular : ∀ k ∈ ks, k.IsRegular) :
    brackets (ks.flatMap fun k => k.gap ++ k.chars) = ks.flatMap fun k => brackets k.chars := by
  induction ks with
  | nil => rfl
  | cons k ks ih =>
    obtain ⟨here, regular⟩ := List.forall_mem_cons.1 regular
    rw [List.flatMap_cons, brackets_append, ih regular, brackets_append,
      brackets_eq_nil fun c hc => isBracket_eq_false (here.gap c hc) (by decide), List.nil_append,
      List.flatMap_cons]

theorem brackets_span (regular : ∀ k ∈ ks, k.IsRegular) :
    brackets (span ks) = ks.flatMap fun k => brackets k.chars := by
  cases ks with
  | nil => rfl
  | cons k ks =>
    rw [span, brackets_append, brackets_flatMap (List.forall_mem_cons.1 regular).2, List.flatMap_cons]

/-- A name that reads a single token has no brackets. -/
theorem isBalanced_text (spells : k.kind.Spells k.chars) (name : k.kind = .name) :
    IsBalanced k.text.toList := by
  rw [Token.text, String.toList_ofList, IsBalanced, ← depthAfter_brackets, spells.brackets, name]
  rfl

/-- The names in formulas that are read have balanced brackets. -/
abbrev Balanced (f : Formula) : Prop := f.Proper fun name => IsBalanced name.toList

theorem balanced_atomFormula {run : List Token} (regular : ∀ k ∈ run, k.IsRegular)
    (level : depthAfter 0 (run.flatMap fun k => brackets k.chars) = some 0) :
    Balanced (atomFormula run) := by
  have whole : Balanced (.literal (squeeze (span run))) := by
    refine .literal ?_
    rw [IsBalanced, ← depthAfter_brackets, brackets_squeeze, brackets_span regular, level]
  unfold atomFormula
  split
  · next k =>
    obtain here := regular k List.mem_cons_self
    split_ifs with name number
    · exact .literal (isBalanced_text here.chars name)
    · split
      · exact .const _
      · exact whole
    · exact whole
  · exact whole

/-! ## Readers -/

/-- What a reader gives has a property, if its tokens are regular; and so are the tokens that it leaves. -/
def Gives {α : Type} (P : α → Prop) (ks : List Token) (r : Except ParseFault (α × List Token)) : Prop :=
  (∀ k ∈ ks, k.IsRegular) → ∀ a rest, r = .ok (a, rest) → P a ∧ ∀ k ∈ rest, k.IsRegular

theorem Gives.bind {α β : Type} {P : α → Prop} {Q : β → Prop}
    {r : Except ParseFault (α × List Token)}
    {next : α × List Token → Except ParseFault (β × List Token)} (h : Gives P ks r)
    (behind : ∀ a rest, P a → Gives Q rest (next (a, rest))) : Gives Q ks (r >>= next) := by
  intro regular b rest hb
  cases r with
  | error e => cases hb
  | ok v =>
    obtain ⟨a, ks'⟩ := v
    obtain ⟨ha, regular⟩ := h regular a ks' rfl
    exact behind a ks' ha regular b rest hb

theorem Gives.pure {α : Type} {P : α → Prop} {a : α} (h : P a) : Gives P ks (.ok (a, ks)) := by
  rintro regular _ _ ⟨⟩
  exact ⟨h, regular⟩

theorem Gives.error {α : Type} {P : α → Prop} {e : ParseFault} : Gives P ks (.error e) :=
  fun _ _ _ h => nomatch h

theorem gives_atom (text : String) : Gives Balanced ks (atom text ks) := by
  intro regular f rest h
  unfold atom at h
  split at h
  · next run rest' eq =>
    cases h
    obtain ⟨level, rfl⟩ := depthAfter_atomRun regular eq
    obtain ⟨here, behind⟩ := List.forall_mem_append.1 regular
    exact ⟨balanced_atomFormula here level, behind⟩
  · cases h

/-- A closing bracket is read over. -/
theorem Gives.close {text : String} {P : Formula → Prop} {f : Formula} (h : P f) :
    Gives P ks (do return (f, ← closeBracket text ks)) := by
  intro regular g rest hg
  cases ks with
  | nil => cases hg
  | cons k ks =>
    rw [closeBracket] at hg
    split_ifs at hg with closing
    · cases hg
      exact ⟨h, (List.forall_mem_cons.1 regular).2⟩
    · cases hg

theorem gives_definedName (text : String) :
    Gives (fun name => IsBalanced name.toList) ks (definedName text ks) := by
  intro regular name rest h
  cases ks with
  | nil => cases h
  | cons k ks =>
    obtain ⟨here, behind⟩ := List.forall_mem_cons.1 regular
    rw [definedName] at h
    split_ifs at h with word
    cases h
    exact ⟨isBalanced_text here.chars word, behind⟩

theorem Gives.cons {α : Type} {P : α → Prop} {r : Except ParseFault (α × List Token)} (h : Gives P ks r) :
    Gives P (k :: ks) r := fun regular => h (List.forall_mem_cons.1 regular).2

theorem gives_definedTest (text : String) : Gives Balanced ks (definedTest text ks) := by
  cases ks with
  | nil => exact .error
  | cons k ks =>
    rw [definedTest]
    split_ifs with opening
    · exact .cons ((gives_definedName text).bind fun name rest balanced => .close (.literal balanced))
    · exact (gives_definedName text).bind fun name rest balanced => .pure (.literal balanced)

/-- Whatever is read has names with balanced brackets. -/
theorem gives_readers (text : String) (steps : Nat) :
    (∀ ks, Gives Balanced ks (disjunction text steps ks)) ∧
      (∀ ks, Gives (∀ f ∈ ·, Balanced f) ks (moreDisjuncts text steps ks)) ∧
      (∀ ks, Gives Balanced ks (conjunction text steps ks)) ∧
      (∀ ks, Gives (∀ f ∈ ·, Balanced f) ks (moreConjuncts text steps ks)) ∧
      ∀ ks, Gives Balanced ks (operand text steps ks) := by
  induction steps with
  | zero => exact ⟨fun _ => .error, fun _ => .error, fun _ => .error, fun _ => .error, fun _ => .error⟩
  | succ steps ih =>
    obtain ⟨disjunct, moreDisjuncts, conjunct, moreConjuncts, operands⟩ := ih
    have none {ks : List Token} : Gives (∀ f ∈ ·, Balanced f) ks (.ok ([], ks)) :=
      .pure (List.forall_mem_nil _)
    refine ⟨fun ks => ?_, fun ks => ?_, fun ks => ?_, fun ks => ?_, fun ks => ?_⟩
    · rw [disjunction]
      exact (conjunct ks).bind fun f rest hf => (moreDisjuncts rest).bind fun fs rest hfs =>
        .pure (.disj (List.forall_mem_cons.2 ⟨hf, hfs⟩))
    · cases ks with
      | nil => exact none
      | cons k ks =>
        rw [Condition.moreDisjuncts]
        split_ifs
        · exact .cons ((conjunct ks).bind fun f rest hf => (moreDisjuncts rest).bind fun fs rest hfs =>
            .pure (List.forall_mem_cons.2 ⟨hf, hfs⟩))
        · exact none
    · rw [conjunction]
      exact (operands ks).bind fun f rest hf => (moreConjuncts rest).bind fun fs rest hfs =>
        .pure (.conj (List.forall_mem_cons.2 ⟨hf, hfs⟩))
    · cases ks with
      | nil => exact none
      | cons k ks =>
        rw [Condition.moreConjuncts]
        split_ifs
        · exact .cons ((operands ks).bind fun f rest hf => (moreConjuncts rest).bind fun fs rest hfs =>
            .pure (List.forall_mem_cons.2 ⟨hf, hfs⟩))
        · exact none
    · cases ks with
      | nil => exact .error
      | cons k ks =>
        rw [operand]
        split
        · exact .cons ((operands ks).bind fun f rest hf => .pure hf.negate)
        · exact .cons ((disjunct ks).bind fun f rest hf => .close hf)
        · exact .error
        · exact .error
        · exact .error
        · split_ifs
          · exact .cons (gives_definedTest text)
          · exact gives_atom text
        · exact gives_atom text
        · exact gives_atom text

/-- The names in a condition have balanced brackets. -/
theorem balanced_formula {f : Formula} (h : formula cs = .ok f) : Balanced f := by
  rw [formula] at h
  split_ifs at h
  have read := (gives_readers (String.ofList cs) (4 * (tokens cs).length + 4)).1 (tokens cs)
    isRegular_of_mem_tokens
  cases value : disjunction (String.ofList cs) (4 * (tokens cs).length + 4) (tokens cs) with
  | error e =>
    rw [value] at h
    cases h
  | ok v =>
    obtain ⟨g, rest⟩ := v
    rw [value] at h
    cases rest with
    | nil =>
      cases h
      exact (read f [] value).1
    | cons k ks => cases h

end Tokens

end Condition

namespace Dialect

open Condition Formula

theorem balanced_condition {line : String} {f : Formula} (h : preprocessor.condition line = .ok f) :
    Balanced f := by
  have h : conditionOf line = .ok f := h
  rw [conditionOf] at h
  cases found : (directive? (Text.trimEnd (withoutComments line.toList))).bind conditionBehind? with
  | none =>
    simp only [found] at h
    cases h
  | some v =>
    obtain ⟨cs, negated⟩ := v
    simp only [found] at h
    cases value : formula (Text.trim cs) with
    | error e =>
      rw [value] at h
      split_ifs at h <;> cases h
    | ok g =>
      rw [value] at h
      have balanced := balanced_formula value
      split_ifs at h
      · cases h
        exact balanced.negate
      · cases h
        exact balanced

/-- Of two conditions with the same text, of which the first has plain names only, the second is the same
formula exactly if its names are plain as well. -/
theorem condition_eq_iff {line line' : String} {f g : Formula}
    (hf : preprocessor.condition line = .ok f) (hg : preprocessor.condition line' = .ok g)
    (same : f.text = g.text) (plain : ∀ name ∈ f.literals, Text.IsPlain name) :
    f = g ↔ ∀ name ∈ g.literals, Text.IsPlain name := by
  have occurring {k : Formula} (plain : ∀ name ∈ k.literals, Text.IsPlain name) :
      ∀ name ∈ k.occurrences, Text.IsPlain name :=
    fun name hn => plain name (List.mem_eraseDups.2 hn)
  refine ⟨fun eq => eq ▸ plain, fun plain' => ?_⟩
  exact ((balanced_condition hf).and (occurring plain)).eq_of_text
    ((balanced_condition hg).and (occurring plain')) same

/-- The names `A` and `B` are plain and `A & B` is not, so the two conditions are told apart. -/
theorem condition_eq_iff_spaced :
    preprocessor.condition "#if A && B" = .ok (.all [.literal "A", .literal "B"]) ∧
      preprocessor.condition "#if A & B" = .ok (.literal "A & B") ∧
      (Formula.all [.literal "A", .literal "B"]).text = (Formula.literal "A & B").text ∧
      Formula.all [.literal "A", .literal "B"] ≠ .literal "A & B" := by
  have first : preprocessor.condition "#if A && B" = .ok (.all [.literal "A", .literal "B"]) := by
    decide +kernel
  have second : preprocessor.condition "#if A & B" = .ok (.literal "A & B") := by decide +kernel
  have same : (Formula.all [.literal "A", .literal "B"]).text = (Formula.literal "A & B").text := by
    decide +kernel
  refine ⟨first, second, same, fun eq => ?_⟩
  have plain := (condition_eq_iff first second same (by decide +kernel)).1 eq
  exact absurd (plain "A & B" List.mem_cons_self) (by decide +kernel)

end Dialect

end Variation
