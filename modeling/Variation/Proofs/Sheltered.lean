import Variation.Proofs.Expressions

/-!
# Which expressions are conditions

The text of an expression has no comments, is one line and has no blanks at its ends, so behind the
keyword `if` it is read as it was written. The main statement is that an expression is a condition
exactly if it is sheltered: no term that begins with a test or with an expression in brackets has an
operator in it. Of every other expression the first such operator is refused.
-/

namespace Variation

/-! ## Ends of a text -/

namespace Text

variable {cs : List Char}

theorem trimStart_eq_self (h : ∀ c ∈ cs.head?, isBlank c = false) : trimStart cs = cs := by
  cases cs with
  | nil => rfl
  | cons c cs => exact List.dropWhile_cons_of_neg (by rw [h c rfl]; exact Bool.false_ne_true)

theorem trimEnd_eq_self (h : ∀ c ∈ cs.getLast?, isBlank c = false) : trimEnd cs = cs := by
  have back : trimStart cs.reverse = cs.reverse :=
    trimStart_eq_self fun c hc => h c (by rwa [List.head?_reverse] at hc)
  rw [trimEnd]
  show (trimStart cs.reverse).reverse = cs
  rw [back, List.reverse_reverse]

end Text

namespace Condition

variable {k : Token} {ks before behind : List Token} {c : Char} {cs : List Char}

theorem isBlank_of_isAlphanum (h : c.isAlphanum = true) : Text.isBlank c = false := by
  have ranges : ((65 ≤ c.toNat ∧ c.toNat ≤ 90) ∨ (97 ≤ c.toNat ∧ c.toNat ≤ 122)) ∨
      (48 ≤ c.toNat ∧ c.toNat ≤ 57) := by
    simpa [Char.isAlphanum, isAlpha_eq, Char.isDigit, UInt32.le_iff_toNat_le] using h
  simp only [Text.isBlank, Bool.or_eq_false_iff, Bool.and_eq_false_iff, beq_eq_false_iff_ne,
    decide_eq_false_iff_not]
  omega

/-- No token but an operator has a blank in it. -/
theorem TokenKind.Spells.isBlank_eq_false {kind : TokenKind} (h : kind.Spells cs)
    (word : kind ≠ .other) (mem : c ∈ cs) : Text.isBlank c = false := by
  have marks : ['|', '&', '!', '(', ')', '_', '.'].all (Text.isBlank · == false) = true := by decide
  have named {x : Char} (h : continuesName x = true ∨ continuesNumber x = true) :
      Text.isBlank x = false := by
    simp only [continuesName, continuesNumber, Bool.or_eq_true, beq_iff_eq] at h
    obtain (h | rfl) | (h | rfl) := h
    · exact isBlank_of_isAlphanum h
    · decide
    · exact isBlank_of_isAlphanum h
    · decide
  match kind, cs, h with
  | .or, _, rfl | .and, _, rfl | .not, _, rfl | .opening, _, rfl | .closing, _, rfl =>
    exact beq_iff_eq.1 (List.all_eq_true.1 marks c (by revert mem; simp +contextual))
  | .name, x :: cs, ⟨first, more⟩ =>
    obtain rfl | mem := List.mem_cons.1 mem
    · refine named (.inl ?_)
      simp only [beginsName, continuesName, Char.isAlphanum, Bool.or_eq_true] at first ⊢
      exact first.imp_left .inl
    · exact named (.inl (more c mem))
  | .number, x :: cs, ⟨first, more⟩ =>
    obtain rfl | mem := List.mem_cons.1 mem
    · refine named (.inr ?_)
      simp [continuesNumber, Char.isAlphanum, first]
    · exact named (.inr (more c mem))

/-- Tokens of which neither the first nor the last is an operator. -/
structure Framed (ks : List Token) : Prop where
  front : ∃ k ∈ ks.head?, k.kind ≠ .other
  back : ∃ k ∈ ks.getLast?, k.kind ≠ .other

theorem Framed.single (h : k.kind ≠ .other) : Framed [k] := ⟨⟨k, rfl, h⟩, k, rfl, h⟩

theorem Framed.append {w : List Token} (first : Framed before) (last : Framed behind) :
    Framed (before ++ (w ++ behind)) := by
  obtain ⟨k, hk, front⟩ := first.front
  obtain ⟨k', hk', back⟩ := last.back
  have hk : before.head? = some k := hk
  have hk' : behind.getLast? = some k' := hk'
  refine ⟨⟨k, ?_, front⟩, k', ?_, back⟩
  · rw [List.head?_append, hk]
    rfl
  · rw [List.getLast?_append, List.getLast?_append, hk']
    rfl

theorem Operand.framed : (o : Operand) → Framed o.tokens
  | .name k => .single (by simp)
  | .number gap chars => .single (by simp)
  | .call k gap args gap' => by
    have frame := (Framed.single (k := k.token) (by simp)).append (w := .opening gap :: args.tokens)
      (Framed.single (k := .closing gap') (by simp))
    simpa [Operand.tokens] using frame
  | .test gap k =>
    (Framed.single (k := .defined gap) (by simp)).append (w := [])
      (Framed.single (k := k.token) (by simp))
  | .testWithin gap gap' k gap'' =>
    (Framed.single (k := .defined gap) (by simp)).append (w := [.opening gap', k.token])
      (Framed.single (k := .closing gap'') (by simp))
  | .brackets gap inner gap' =>
    (Framed.single (k := .opening gap) (by simp)).append (w := inner.tokens)
      (Framed.single (k := .closing gap') (by simp))
  | .not gap body => (Framed.single (k := .bang gap) (by simp)).append (w := []) body.framed

theorem Term.framed : (t : Term) → Framed t.tokens
  | .single o => o.framed
  | .join o gap chars rest => o.framed.append (w := [⟨.other, gap, chars⟩]) rest.framed

theorem MoreTerms.framed : (ts : MoreTerms) → ∀ {ks}, Framed ks → Framed (ks ++ ts.tokens)
  | .nil, ks, h => by rwa [MoreTerms.tokens, List.append_nil]
  | .cons gap t others, ks, h => by
    have both := others.framed (h.append (w := [.both gap]) t.framed)
    simpa [MoreTerms.tokens] using both

theorem Clause.framed : (c : Clause) → Framed c.tokens
  | .mk first others => others.framed first.framed

theorem MoreClauses.framed : (cs : MoreClauses) → ∀ {ks}, Framed ks → Framed (ks ++ cs.tokens)
  | .nil, ks, h => by rwa [MoreClauses.tokens, List.append_nil]
  | .cons gap c others, ks, h => by
    have either := others.framed (h.append (w := [.either gap]) c.framed)
    simpa [MoreClauses.tokens] using either

theorem Expression.framed : (e : Expression) → Framed e.tokens
  | .mk first others => others.framed first.framed

/-- The text of an expression has no blanks at its ends. -/
theorem Framed.head?_written (h : Framed ks) (spelled : Spelled ks)
    (front : ∀ k ∈ ks.head?, k.gap = []) : ∃ c ∈ (written ks).head?, Text.isBlank c = false := by
  obtain ⟨k, hk, word⟩ := h.front
  cases ks with
  | nil => cases hk
  | cons k' ks =>
    obtain rfl : k' = k := Option.some.inj hk
    have lawful := spelled.cons.1
    obtain ⟨c, rest, chars, -⟩ := lawful.chars.exists_cons
    rw [written_cons, front k' rfl, chars]
    exact ⟨c, rfl, lawful.chars.isBlank_eq_false word (by rw [chars]; exact List.mem_cons_self)⟩

theorem Framed.getLast?_written (h : Framed ks) (spelled : Spelled ks) :
    ∀ c ∈ (written ks).getLast?, Text.isBlank c = false := by
  obtain ⟨k, hk, word⟩ := h.back
  obtain ⟨before, rfl⟩ := List.getLast?_eq_some_iff.1 hk
  have lawful := spelled.lawful k (by simp)
  intro c hc
  have mem : c ∈ k.chars.getLast? := by
    obtain ⟨x, rest, chars, -⟩ := lawful.chars.exists_cons
    obtain ⟨y, hy⟩ : ∃ y, k.chars.getLast? = some y := by
      rw [chars]
      exact ⟨_, List.getLast?_cons⟩
    rw [written, List.flatMap_append, List.flatMap_singleton, List.getLast?_append,
      List.getLast?_append, hy] at hc
    rwa [hy]
  exact lawful.chars.isBlank_eq_false word (List.mem_of_getLast? mem)

/-- No token goes on over the end of a line. -/
theorem TokenKind.Spells.notMem {kind : TokenKind} (h : kind.Spells cs) : '\n' ∉ cs := by
  intro mem
  by_cases word : kind = .other
  · subst word
    match cs, h with
    | [c], ⟨_, plain⟩ =>
      obtain rfl := List.mem_singleton.1 mem
      exact absurd plain (by decide)
    | a :: b :: cs, double =>
      have none : ∀ cs ∈ doubles, '\n' ∉ cs := by decide
      exact none _ double mem
  · exact absurd (h.isBlank_eq_false word mem) (by decide)

/-- A text that is written token by token is one line. -/
theorem notMem_written (h : Spelled ks) : '\n' ∉ written ks := by
  intro mem
  obtain ⟨k, hk, mem⟩ := List.mem_flatMap.1 mem
  have lawful := h.lawful k hk
  obtain mem | mem := List.mem_append.1 mem
  · exact (lawful.gap _ mem).2 rfl
  · exact lawful.chars.notMem mem

/-! ## Shelter -/

mutual

/-- Whether no operator stands behind an operand that is read by its structure. -/
def Operand.isSheltered : Operand → Bool
  | .brackets _ inner _ => inner.isSheltered
  | .not _ body => body.isSheltered
  | .name _ | .number .. | .call .. | .test .. | .testWithin .. => true

def Term.isSheltered : Term → Bool
  | .single o => o.isSheltered
  | .join o _ _ _ => !o.isStructural

def Clause.isSheltered : Clause → Bool
  | .mk first others => first.isSheltered && others.isSheltered

def MoreTerms.isSheltered : MoreTerms → Bool
  | .nil => true
  | .cons _ t others => t.isSheltered && others.isSheltered

/-- Whether no term that begins with a test or with an expression in brackets has an operator. -/
def Expression.isSheltered : Expression → Bool
  | .mk first others => first.isSheltered && others.isSheltered

def MoreClauses.isSheltered : MoreClauses → Bool
  | .nil => true
  | .cons _ c others => c.isSheltered && others.isSheltered

end

section IsOk

variable {ε α β γ : Type} {v : Except ε α} {w : Except ε β}

theorem isOk_map (g : α → β) : (do return g (← v) : Except ε β).isOk = v.isOk := by
  cases v <;> rfl

theorem isOk_seq (g : α → β → γ) :
    (do return g (← v) (← w) : Except ε γ).isOk = (v.isOk && w.isOk) := by
  cases v <;> cases w <;> rfl

theorem isOk_bind_error (e : ε) : (v >>= fun _ => (.error e : Except ε β)).isOk = false := by
  cases v <;> rfl

end IsOk

mutual

theorem Operand.isOk_formula : (o : Operand) → o.formula.isOk = o.isSheltered
  | .name _ | .number .. | .call .. | .test .. | .testWithin .. => rfl
  | .brackets _ inner _ => inner.isOk_formula
  | .not _ body => (isOk_map _).trans body.isOk_formula

theorem Term.isOk_formula : (t : Term) → t.formula.isOk = t.isSheltered
  | .single o => o.isOk_formula
  | .join o gap chars rest => by
    rw [Term.formula, Term.isSheltered]
    cases o.isStructural with
    | true => exact isOk_bind_error _
    | false => rfl

theorem Clause.isOk_formula : (c : Clause) → c.formula.isOk = c.isSheltered
  | .mk first others => by
    rw [Clause.formula, Clause.isSheltered, ← first.isOk_formula, ← others.isOk_formulas]
    exact isOk_seq _

theorem MoreTerms.isOk_formulas : (ts : MoreTerms) → ts.formulas.isOk = ts.isSheltered
  | .nil => rfl
  | .cons gap t others => by
    rw [MoreTerms.formulas, MoreTerms.isSheltered, ← t.isOk_formula, ← others.isOk_formulas]
    exact isOk_seq _

/-- An expression has a formula exactly if it is sheltered. -/
theorem Expression.isOk_formula : (e : Expression) → e.formula.isOk = e.isSheltered
  | .mk first others => by
    rw [Expression.formula, Expression.isSheltered, ← first.isOk_formula, ← others.isOk_formulas]
    exact isOk_seq _

theorem MoreClauses.isOk_formulas : (cs : MoreClauses) → cs.formulas.isOk = cs.isSheltered
  | .nil => rfl
  | .cons gap c others => by
    rw [MoreClauses.formulas, MoreClauses.isSheltered, ← c.isOk_formula, ← others.isOk_formulas]
    exact isOk_seq _

end

/-! ## Conditions -/

/-- The text of an expression is read as the formula of the expression, or it is refused at the token
that is not expected. -/
theorem formula_written (e : Expression) (h : Spelled e.tokens) :
    formula (written e.tokens) =
      e.formula.mapError (unexpected (String.ofList (written e.tokens))) := by
  have full : e.tokens.isEmpty = false := by
    obtain ⟨k, hk, -⟩ := e.framed.front
    cases hs : e.tokens with
    | nil => rw [hs] at hk; cases hk
    | cons => rfl
  have read : Yields (String.ofList (written e.tokens)) [] e.formula (disjunction
      (String.ofList (written e.tokens)) (4 * e.tokens.length + 4) (e.tokens ++ [])) :=
    disjunction_expression e (fun k hk => nomatch hk) (Nat.le_refl _)
  rw [List.append_nil] at read
  rw [formula, tokens_written h]
  simp only [full, Bool.false_eq_true, if_false]
  cases value : e.formula with
  | ok f =>
    rw [value] at read
    rw [show disjunction _ _ _ = _ from read]
    rfl
  | error k =>
    rw [value] at read
    obtain ⟨-, read | ⟨f, ks, read⟩⟩ := read <;> rw [read] <;> rfl

end Condition

namespace Dialect

open Condition

/-- What follows the keywords `if` and `elif` is their condition. -/
theorem conditionOf_branch {word : String} {cs : List Char} (hw : word = "if" ∨ word = "elif")
    (bare : withoutComments cs = cs) (line : '\n' ∉ cs)
    (front : ∃ c ∈ cs.head?, Text.isBlank c = false)
    (back : ∀ c ∈ cs.getLast?, Text.isBlank c = false) :
    conditionOf ("#" ++ word ++ " " ++ String.ofList cs) = formula cs := by
  obtain ⟨c, hc, solid⟩ := front
  have start : Text.trimStart cs = cs := Text.trimStart_eq_self fun x hx => by
    obtain rfl := Option.some.inj (hc.symm.trans hx)
    exact solid
  have text : conditionText? (' ' :: cs) = some cs := by
    rw [conditionText?, if_pos (by decide)]
    simp [start, line]
  have whole : Text.trimEnd (withoutComments ("#" ++ word ++ " " ++ String.ofList cs).toList) =
      '#' :: (word.toList ++ ' ' :: cs) := by
    have chars : ("#" ++ word ++ " " ++ String.ofList cs).toList =
        '#' :: (word.toList ++ [' ']) ++ cs := by simp
    have plain : '/' ∉ '#' :: (word.toList ++ [' ']) := by
      obtain rfl | rfl := hw <;> decide
    rw [chars, withoutComments_append plain, bare]
    refine (Text.trimEnd_eq_self fun x hx => back x ?_).trans (by simp)
    rwa [List.getLast?_append_of_ne_nil _ (by rintro rfl; cases hc)] at hx
  have behind : (directive? ('#' :: (word.toList ++ ' ' :: cs))).bind conditionBehind? =
      some (cs, false) := by
    -- the keywords are spelled out only once they stand alone
    obtain rfl | rfl := hw
    · show conditionBehind? ('i' :: 'f' :: ' ' :: cs) = some (cs, false)
      simp only [conditionBehind?, conditionWords, List.findSome?_cons]
      simp only [String.reduceToList, Text.after?, Char.reduceEq, if_true, if_false,
        Option.bind_eq_bind, Option.bind_none, Option.bind_some, Option.pure_def, text]
    · show conditionBehind? ('e' :: 'l' :: 'i' :: 'f' :: ' ' :: cs) = some (cs, false)
      simp only [conditionBehind?, conditionWords, List.findSome?_cons]
      simp only [String.reduceToList, Text.after?, Char.reduceEq, if_true, if_false,
        Option.bind_eq_bind, Option.bind_none, Option.bind_some, Option.pure_def, text]
  have trimmed : Text.trim cs = cs := by rw [Text.trim, start, Text.trimEnd_eq_self back]
  have full : cs.isEmpty = false := by
    cases cs with
    | nil => cases hc
    | cons => rfl
  rw [conditionOf]
  simp only [whole, behind, trimmed, full, Bool.false_eq_true, if_false]
  cases formula cs <;> rfl

/-- What follows the keyword `if` is its condition. -/
theorem conditionOf_if {cs : List Char} (bare : withoutComments cs = cs) (line : '\n' ∉ cs)
    (front : ∃ c ∈ cs.head?, Text.isBlank c = false)
    (back : ∀ c ∈ cs.getLast?, Text.isBlank c = false) :
    conditionOf ("#if " ++ String.ofList cs) = formula cs := by
  have whole : conditionOf ("#" ++ "if" ++ " " ++ String.ofList cs) = formula cs :=
    conditionOf_branch (.inl rfl) bare line front back
  exact whole

/-- An expression behind `#if` gives its formula, or is refused at the token that is not expected. It is
a condition exactly if no term that begins with a test or with an expression in brackets has an operator
in it. -/
theorem condition_written (e : Expression) (h : Spelled e.tokens)
    (front : ∀ k ∈ e.tokens.head?, k.gap = []) :
    preprocessor.condition ("#if " ++ String.ofList (written e.tokens)) =
        e.formula.mapError (unexpected (String.ofList (written e.tokens))) ∧
      ((∃ f, preprocessor.condition ("#if " ++ String.ofList (written e.tokens)) = .ok f) ↔
        e.isSheltered = true) := by
  have read : preprocessor.condition ("#if " ++ String.ofList (written e.tokens)) =
      e.formula.mapError (unexpected (String.ofList (written e.tokens))) :=
    (conditionOf_if (withoutComments_written h) (notMem_written h)
      (e.framed.head?_written h front) (e.framed.getLast?_written h)).trans (formula_written e h)
  refine ⟨read, ?_⟩
  rw [read, ← e.isOk_formula]
  cases e.formula with
  | ok f => exact ⟨fun _ => rfl, fun _ => ⟨f, rfl⟩⟩
  | error k => exact ⟨fun ⟨f, h⟩ => (nomatch h), fun h => (nomatch h)⟩

/-- The expression `HAS(X) || (A) > 0`. -/
def callOrComparison : Expression :=
  let call := Operand.call ⟨[], ['H', 'A', 'S'], by decide⟩ []
    (.token ⟨.name, [], ['X']⟩ (by decide) .nil) []
  let name := Expression.mk (.mk (.single (.name ⟨[], ['A'], by decide⟩)) .nil) .nil
  let comparison := Term.join (.brackets [' '] name []) [' '] ['>'] (.single (.number [' '] ['0']))
  .mk (.mk (.single call) .nil) (.cons [' '] (.mk comparison .nil) .nil)

theorem condition_written_bracketed :
    Spelled callOrComparison.tokens ∧ (∀ k ∈ callOrComparison.tokens.head?, k.gap = []) ∧
      preprocessor.condition "#if HAS(X) || (A) > 0" =
        .error (.malformedFormula "unexpected '>' in 'HAS(X) || (A) > 0'") := by
  have spelled : Spelled callOrComparison.tokens := by decide +kernel
  have front : ∀ k ∈ callOrComparison.tokens.head?, k.gap = [] := by
    intro k hk
    obtain rfl := Option.some.inj hk
    rfl
  have text : String.ofList (written callOrComparison.tokens) = "HAS(X) || (A) > 0" := by decide +kernel
  have read := (condition_written callOrComparison spelled front).1
  rw [text] at read
  exact ⟨spelled, front, read⟩

end Dialect

end Variation
