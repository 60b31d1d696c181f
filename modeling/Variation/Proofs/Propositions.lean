import Variation.Proofs.Sheltered

/-!
# Conditions keep their meaning

A proposition is built from names, tests, numbers, `!`, `&&` and `||`. It is written with at least the
brackets that are needed for an operand, a conjunction or a disjunction at its place, and with blanks
wherever they are wanted. What is read from it behind `#if` or `#elif` is a formula that is true under the
same assignments.
-/

namespace Variation

namespace Condition

/-- A boolean expression over names. -/
inductive Proposition where
  | name (k : String)
  | test (k : String)
  | number (n : Nat)
  | not (p : Proposition)
  | and (p q : Proposition)
  | or (p q : Proposition)

namespace Proposition

/-- The truth value under an assignment of the names: a name and a test of it have the same value, and a
number is true unless it is zero. -/
def holds (v : String → Bool) : Proposition → Bool
  | name k => v k
  | test k => v k
  | number n => n != 0
  | not p => !p.holds v
  | and p q => p.holds v && q.holds v
  | or p q => p.holds v || q.holds v

/-- The places in an expression, from the tightest. -/
inductive Place where
  | operand
  | conjunction
  | disjunction

/-- The tokens with which a proposition may be written at a place. Brackets are needed where a place is
tighter than the operator, and allowed everywhere. -/
inductive Writes : Place → Proposition → List Token → Prop where
  | name (k : Name) : Writes .operand (.name (String.ofList k.chars)) [k.token]
  | test (gap : List Char) (k : Name) :
      Writes .operand (.test (String.ofList k.chars)) [.defined gap, k.token]
  | testWithin (gap gap' : List Char) (k : Name) (gap'' : List Char) :
    Writes .operand (.test (String.ofList k.chars)) [.defined gap, .opening gap', k.token, .closing gap'']
  | number (gap digits : List Char) (full : digits ≠ [])
    (decimal : ∀ c ∈ digits, c.isDigit = true)
    (small : Nat.ofDigitChars 10 digits 0 < 18446744073709551616) :
    Writes .operand (.number (Nat.ofDigitChars 10 digits 0)) [⟨.number, gap, digits⟩]
  | not (gap : List Char) {p : Proposition} {ks : List Token} (h : Writes .operand p ks) :
    Writes .operand (.not p) (.bang gap :: ks)
  | brackets (gap : List Char) {p : Proposition} {ks : List Token} (h : Writes .disjunction p ks)
    (gap' : List Char) : Writes .operand p (.opening gap :: (ks ++ [.closing gap']))
  | operand {p : Proposition} {ks : List Token} (h : Writes .operand p ks) : Writes .conjunction p ks
  | and {p q : Proposition} {ks ks' : List Token} (hp : Writes .conjunction p ks) (gap : List Char)
    (hq : Writes .conjunction q ks') : Writes .conjunction (.and p q) (ks ++ .both gap :: ks')
  | conjunction {p : Proposition} {ks : List Token} (h : Writes .conjunction p ks) :
    Writes .disjunction p ks
  | or {p q : Proposition} {ks ks' : List Token} (hp : Writes .disjunction p ks) (gap : List Char)
    (hq : Writes .disjunction q ks') : Writes .disjunction (.or p q) (ks ++ .either gap :: ks')

end Proposition

/-! ## Numbers -/

section Numbers

variable {c : Char} {cs : List Char} {n : Nat}

theorem digit?_of_isDigit (h : c.isDigit = true) : Text.digit? 10 c = some (c.toNat - '0'.toNat) := by
  have bounds : 48 ≤ c.toNat ∧ c.toNat ≤ 57 := by
    simpa [Char.isDigit, UInt32.le_iff_toNat_le] using h
  have small : c.toNat - '0'.toNat < 10 := by
    show c.toNat - 48 < 10
    omega
  rw [Text.digit?, Text.digitValue?, if_pos h, Option.filter_some, if_pos (decide_eq_true small)]

/-- Decimal digits write the number that they stand for. -/
theorem numeral?_of_digits (full : cs ≠ []) (decimal : ∀ c ∈ cs, c.isDigit = true) :
    Text.numeral? 10 cs = some (Nat.ofDigitChars 10 cs 0) := by
  have run (n : Nat) : cs.foldlM (fun value c => do return value * 10 + (← Text.digit? 10 c)) n =
      some (Nat.ofDigitChars 10 cs n) := by
    clear full
    induction cs generalizing n with
    | nil => rfl
    | cons c cs ih =>
      obtain ⟨here, decimal⟩ := List.forall_mem_cons.1 decimal
      rw [List.foldlM_cons, digit?_of_isDigit here, Nat.ofDigitChars_cons, Nat.mul_comm 10 n]
      exact ih decimal _
  rw [Text.numeral?, List.isEmpty_eq_false_iff.2 full, if_neg Bool.false_ne_true]
  exact run 0

theorem withoutTypeLetters_of_digits (decimal : ∀ c ∈ cs, c.isDigit = true) :
    withoutTypeLetters cs = cs := by
  have back : cs.reverse.dropWhile (fun c => c == 'u' || c == 'U' || c == 'l' || c == 'L') =
      cs.reverse := by
    cases hs : cs.reverse with
    | nil => rfl
    | cons c rest =>
      have digit : c.isDigit = true := decimal c (List.mem_reverse.1 (hs ▸ List.mem_cons_self))
      refine List.dropWhile_cons_of_neg fun letter => ?_
      simp only [Bool.or_eq_true, beq_iff_eq, or_assoc] at letter
      obtain rfl | rfl | rfl | rfl := letter <;> exact absurd digit (by decide)
  rw [withoutTypeLetters, back, List.reverse_reverse]

/-- Decimal digits are an integer constant, if their number is small enough. -/
theorem integer?_of_digits (full : cs ≠ []) (decimal : ∀ c ∈ cs, c.isDigit = true)
    (small : Nat.ofDigitChars 10 cs 0 < 18446744073709551616) :
    integer? cs = some (Nat.ofDigitChars 10 cs 0) := by
  have plain : constant? 10 cs = some (Nat.ofDigitChars 10 cs 0) := by
    rw [constant?, numeral?_of_digits full decimal, Option.filter_some,
      if_pos (decide_eq_true small)]
  rw [integer?, withoutTypeLetters_of_digits decimal]
  split
  · exact absurd (decimal 'x' (by simp)) (by decide)
  · exact absurd (decimal 'X' (by simp)) (by decide)
  · exact plain

end Numbers

/-! ## Lists that are joined -/

/-- Adds a term and its followers behind the followers of a term. -/
def MoreTerms.append : MoreTerms → List Char → Term → MoreTerms → MoreTerms
  | .nil, gap, t, more => .cons gap t more
  | .cons gap' t' others, gap, t, more => .cons gap' t' (others.append gap t more)

/-- Adds a clause and its followers behind the followers of a clause. -/
def MoreClauses.append : MoreClauses → List Char → Clause → MoreClauses → MoreClauses
  | .nil, gap, c, more => .cons gap c more
  | .cons gap' c' others, gap, c, more => .cons gap' c' (others.append gap c more)

theorem MoreTerms.tokens_append (gap : List Char) (t : Term) : (ts more : MoreTerms) →
    (ts.append gap t more).tokens = ts.tokens ++ .both gap :: (t.tokens ++ more.tokens)
  | .nil, _ => rfl
  | .cons gap' t' others, more => by
    rw [MoreTerms.append, MoreTerms.tokens, tokens_append gap t others more, MoreTerms.tokens,
      List.cons_append, List.append_assoc]

theorem MoreClauses.tokens_append (gap : List Char) (c : Clause) : (cs more : MoreClauses) →
    (cs.append gap c more).tokens = cs.tokens ++ .either gap :: (c.tokens ++ more.tokens)
  | .nil, _ => rfl
  | .cons gap' c' others, more => by
    rw [MoreClauses.append, MoreClauses.tokens, tokens_append gap c others more, MoreClauses.tokens,
      List.cons_append, List.append_assoc]

/-- A list that begins with what a first reading gives. -/
theorem ok_cons_iff {ε α : Type} {v : Except ε α} {w : Except ε (List α)} {as : List α} :
    (do return (← v) :: (← w) : Except ε (List α)) = .ok as ↔
      ∃ a bs, v = .ok a ∧ w = .ok bs ∧ as = a :: bs := by
  cases v <;> cases w <;> simp [bind, Except.bind, pure, Except.pure, eq_comm]

theorem MoreTerms.formulas_append {gap : List Char} {t : Term} {more : MoreTerms} {f : Formula}
    {fs : List Formula} (ht : t.formula = .ok f) (hm : more.formulas = .ok fs) :
    (ts : MoreTerms) → ∀ {gs}, ts.formulas = .ok gs →
      (ts.append gap t more).formulas = .ok (gs ++ f :: fs)
  | .nil, gs, h => by
    cases h
    exact ok_cons_iff.2 ⟨f, fs, ht, hm, rfl⟩
  | .cons gap' t' others, gs, h => by
    obtain ⟨g, gs', first, rest, rfl⟩ := ok_cons_iff.1 h
    exact ok_cons_iff.2 ⟨g, _, first, formulas_append ht hm others rest, rfl⟩

theorem MoreClauses.formulas_append {gap : List Char} {c : Clause} {more : MoreClauses} {f : Formula}
    {fs : List Formula} (hc : c.formula = .ok f) (hm : more.formulas = .ok fs) :
    (cs : MoreClauses) → ∀ {gs}, cs.formulas = .ok gs →
      (cs.append gap c more).formulas = .ok (gs ++ f :: fs)
  | .nil, gs, h => by
    cases h
    exact ok_cons_iff.2 ⟨f, fs, hc, hm, rfl⟩
  | .cons gap' c' others, gs, h => by
    obtain ⟨g, gs', first, rest, rfl⟩ := ok_cons_iff.1 h
    exact ok_cons_iff.2 ⟨g, _, first, formulas_append hc hm others rest, rfl⟩

/-! ## Reading -/

namespace Proposition

/-- What is read at a place from tokens: an operand, a list of terms or a list of clauses, with formulas that
say what a proposition says. -/
def Read : Place → Proposition → List Token → Prop
  | .operand, p, ks => ∃ (o : Operand) (f : Formula), o.tokens = ks ∧ o.formula = .ok f ∧
      ∀ v, f.holds v = p.holds v
  | .conjunction, p, ks => ∃ (t : Term) (ts : MoreTerms) (f : Formula) (fs : List Formula),
      t.tokens ++ ts.tokens = ks ∧ t.formula = .ok f ∧ ts.formulas = .ok fs ∧
        ∀ v, ((f :: fs).all fun g => g.holds v) = p.holds v
  | .disjunction, p, ks => ∃ (c : Clause) (cs : MoreClauses) (f : Formula) (fs : List Formula),
      c.tokens ++ cs.tokens = ks ∧ c.formula = .ok f ∧ cs.formulas = .ok fs ∧
        ∀ v, ((f :: fs).any fun g => g.holds v) = p.holds v

/-- What is written at a place is read there. -/
theorem Writes.read {place : Place} {p : Proposition} {ks : List Token} (h : Writes place p ks) :
    Read place p ks := by
  induction h with
  | name k => exact ⟨.name k, _, rfl, rfl, fun v => rfl⟩
  | test gap k => exact ⟨.test gap k, _, rfl, rfl, fun v => rfl⟩
  | testWithin gap gap' k gap'' => exact ⟨.testWithin gap gap' k gap'', _, rfl, rfl, fun v => rfl⟩
  | number gap digits full decimal small =>
    refine ⟨.number gap digits, .const _, rfl, ?_, fun v => rfl⟩
    rw [Operand.formula, integer?_of_digits full decimal small]
  | not gap _ ih =>
    obtain ⟨o, f, rfl, read, same⟩ := ih
    refine ⟨.not gap o, f.negate, rfl, ?_, fun v => ?_⟩
    · rw [Operand.formula, read]
      rfl
    · rw [Formula.holds_negate, same, holds]
  | brackets gap _ gap' ih =>
    obtain ⟨c, cs, f, fs, rfl, first, rest, same⟩ := ih
    refine ⟨.brackets gap (.mk c cs) gap', Formula.disj (f :: fs), rfl, ?_, fun v => ?_⟩
    · rw [Operand.formula, Expression.formula, first, rest]
      rfl
    · rw [Formula.holds_disj, same]
  | operand _ ih =>
    obtain ⟨o, f, rfl, read, same⟩ := ih
    refine ⟨.single o, .nil, f, [], List.append_nil _, read, rfl, fun v => ?_⟩
    rw [List.all_cons, List.all_nil, Bool.and_true, same]
  | and _ gap _ ihp ihq =>
    obtain ⟨t, ts, f, fs, rfl, first, rest, same⟩ := ihp
    obtain ⟨t', ts', g, gs, rfl, first', rest', same'⟩ := ihq
    refine ⟨t, ts.append gap t' ts', f, fs ++ g :: gs, ?_, first,
      MoreTerms.formulas_append first' rest' ts rest, fun v => ?_⟩
    · rw [MoreTerms.tokens_append, List.append_assoc]
    · rw [← List.cons_append, List.all_append, same, same', holds]
  | conjunction _ ih =>
    obtain ⟨t, ts, f, fs, rfl, first, rest, same⟩ := ih
    refine ⟨.mk t ts, .nil, Formula.conj (f :: fs), [], List.append_nil _, ?_, rfl, fun v => ?_⟩
    · rw [Clause.formula, first, rest]
      rfl
    · rw [List.any_cons, List.any_nil, Bool.or_false, Formula.holds_conj, same]
  | or _ gap _ ihp ihq =>
    obtain ⟨c, cs, f, fs, rfl, first, rest, same⟩ := ihp
    obtain ⟨c', cs', g, gs, rfl, first', rest', same'⟩ := ihq
    refine ⟨c, cs.append gap c' cs', f, fs ++ g :: gs, ?_, first,
      MoreClauses.formulas_append first' rest' cs rest, fun v => ?_⟩
    · rw [MoreClauses.tokens_append, List.append_assoc]
    · rw [← List.cons_append, List.any_append, same, same', holds]

/-- What is written as a disjunction is the text of an expression that says the same. -/
theorem Writes.exists_expression {p : Proposition} {ks : List Token} (h : Writes .disjunction p ks) :
    ∃ (e : Expression) (f : Formula), e.tokens = ks ∧ e.formula = .ok f ∧
      ∀ v, f.holds v = p.holds v := by
  obtain ⟨c, cs, f, fs, rfl, first, rest, same⟩ := h.read
  refine ⟨.mk c cs, Formula.disj (f :: fs), rfl, ?_, fun v => ?_⟩
  · rw [Expression.formula, first, rest]
    rfl
  · rw [Formula.holds_disj, same]

end Proposition

end Condition

namespace Dialect

open Condition

/-- A proposition that is written behind `#if` or `#elif` is a condition with the same truth values. -/
theorem condition_proposition {word : String} {p : Proposition} {ks : List Token}
    (hw : word = "if" ∨ word = "elif") (writes : p.Writes .disjunction ks) (spelled : Spelled ks)
    (front : ∀ k ∈ ks.head?, k.gap = []) :
    ∃ f, preprocessor.condition ("#" ++ word ++ " " ++ String.ofList (written ks)) = .ok f ∧
      ∀ v, f.holds v = p.holds v := by
  obtain ⟨e, f, rfl, read, same⟩ := writes.exists_expression
  refine ⟨f, ?_, same⟩
  show conditionOf _ = _
  rw [conditionOf_branch hw (withoutComments_written spelled) (notMem_written spelled)
    (e.framed.head?_written spelled front) (e.framed.getLast?_written spelled),
    formula_written e spelled, read]
  rfl

/-- The tokens of `!((A)&&defined B) || 0`. -/
def negatedConjunction : List Token :=
  let name : Token := ⟨.name, [], ['A']⟩
  let test := [.defined [], ⟨.name, [' '], ['B']⟩]
  let inner := .opening [] :: ([name] ++ [.closing []]) ++ .both [] :: test
  .bang [] :: .opening [] :: (inner ++ [.closing []]) ++ .either [' '] :: [⟨.number, [' '], ['0']⟩]

theorem writes_negatedConjunction : Proposition.Writes .disjunction
    (.or (.not (.and (.name "A") (.test "B"))) (.number 0)) negatedConjunction := by
  have name : Proposition.Writes .operand (.name "A") [⟨.name, [], ['A']⟩] :=
    .name ⟨[], ['A'], by decide⟩
  have test : Proposition.Writes .operand (.test "B") [.defined [], ⟨.name, [' '], ['B']⟩] :=
    .test [] ⟨[' '], ['B'], by decide⟩
  have zero : Proposition.Writes .operand (.number 0) [⟨.number, [' '], ['0']⟩] :=
    .number [' '] ['0'] (List.cons_ne_nil _ _) (List.forall_mem_singleton.2 rfl) (by decide)
  have inner := (Proposition.Writes.brackets [] (.conjunction (.operand name)) []).operand.and []
    test.operand
  exact (Proposition.Writes.not [] (.brackets [] (.conjunction inner) [])).operand.conjunction.or [' ']
    (.conjunction zero.operand)

theorem condition_proposition_negated :
    Spelled negatedConjunction ∧ (∀ k ∈ negatedConjunction.head?, k.gap = []) ∧
      ∃ f, preprocessor.condition "#elif !((A)&&defined B) || 0" = .ok f ∧
        ∀ v, f.holds v = (!(v "A" && v "B") || false) := by
  have spelled : Spelled negatedConjunction := by decide +kernel
  have front : ∀ k ∈ negatedConjunction.head?, k.gap = [] := by
    intro k hk
    obtain rfl := Option.some.inj hk
    rfl
  have text : String.ofList (written negatedConjunction) = "!((A)&&defined B) || 0" := by
    decide +kernel
  obtain ⟨f, read, same⟩ :=
    condition_proposition (.inr rfl) writes_negatedConjunction spelled front
  rw [text] at read
  exact ⟨spelled, front, f, read, same⟩

end Dialect

end Variation
