import Variation.Dialect
import Variation.Proofs.Lexed

/-!
# Conditions of the preprocessor

An expression joins clauses by `||`, terms by `&&` and operands by arithmetic operators and comparisons;
an operand is a name, a number, a call, a test that a name is defined or an expression in brackets, and
may be negated. A term is read by its first operand. If that is a name, a number or a call, what follows
it in the term goes into the name of one literal. If it is a test or stands in brackets, it is read by
its structure, and the operator behind it is refused. So an expression is read exactly if no such operand
begins a term with an operator in it, and else the first operator of that kind is what was not expected.
-/

namespace Variation.Condition

/-! ## Expressions -/

/-- A name but `defined`. -/
structure Name where
  gap : List Char
  chars : List Char
  plain : String.ofList chars ≠ "defined"

/-- The tokens of a call between its brackets: any, with their own brackets closed. -/
inductive Arguments where
  | nil
  | token (k : Token) (plain : k.kind ≠ .opening ∧ k.kind ≠ .closing) (rest : Arguments)
  | group (gap : List Char) (inner : Arguments) (gap' : List Char) (rest : Arguments)

mutual

/-- An operand, with the blanks in front of each of its tokens. -/
inductive Operand where
  | name (k : Name)
  | number (gap chars : List Char)
  | call (k : Name) (gap : List Char) (args : Arguments) (gap' : List Char)
  | test (gap : List Char) (k : Name)
  | testWithin (gap gap' : List Char) (k : Name) (gap'' : List Char)
  | brackets (gap : List Char) (inner : Expression) (gap' : List Char)
  | not (gap : List Char) (body : Operand)

/-- Operands that are joined by arithmetic operators and comparisons. -/
inductive Term where
  | single (o : Operand)
  | join (o : Operand) (gap chars : List Char) (rest : Term)

/-- Terms that are joined by `&&`. -/
inductive Clause where
  | mk (first : Term) (others : MoreTerms)

inductive MoreTerms where
  | nil
  | cons (gap : List Char) (t : Term) (others : MoreTerms)

/-- Clauses that are joined by `||`. -/
inductive Expression where
  | mk (first : Clause) (others : MoreClauses)

inductive MoreClauses where
  | nil
  | cons (gap : List Char) (c : Clause) (others : MoreClauses)

end

namespace Token

def opening (gap : List Char) : Token := ⟨.opening, gap, ['(']⟩
def closing (gap : List Char) : Token := ⟨.closing, gap, [')']⟩
def bang (gap : List Char) : Token := ⟨.not, gap, ['!']⟩
def both (gap : List Char) : Token := ⟨.and, gap, ['&', '&']⟩
def either (gap : List Char) : Token := ⟨.or, gap, ['|', '|']⟩
def defined (gap : List Char) : Token := ⟨.name, gap, "defined".toList⟩

end Token

/-- The token of a name. -/
def Name.token (k : Name) : Token := ⟨.name, k.gap, k.chars⟩

@[simp] theorem Token.kind_opening (gap : List Char) : (opening gap).kind = .opening := rfl
@[simp] theorem Token.kind_closing (gap : List Char) : (closing gap).kind = .closing := rfl
@[simp] theorem Token.kind_bang (gap : List Char) : (bang gap).kind = .not := rfl
@[simp] theorem Token.kind_both (gap : List Char) : (both gap).kind = .and := rfl
@[simp] theorem Token.kind_either (gap : List Char) : (either gap).kind = .or := rfl
@[simp] theorem Token.kind_defined (gap : List Char) : (defined gap).kind = .name := rfl
@[simp] theorem Name.kind_token (k : Name) : k.token.kind = .name := rfl

def Arguments.tokens : Arguments → List Token
  | nil => []
  | token k _ rest => k :: rest.tokens
  | group gap inner gap' rest => .opening gap :: (inner.tokens ++ .closing gap' :: rest.tokens)

mutual

def Operand.tokens : Operand → List Token
  | .name k => [k.token]
  | .number gap chars => [⟨.number, gap, chars⟩]
  | .call k gap args gap' => k.token :: .opening gap :: (args.tokens ++ [.closing gap'])
  | .test gap k => [.defined gap, k.token]
  | .testWithin gap gap' k gap'' => [.defined gap, .opening gap', k.token, .closing gap'']
  | .brackets gap inner gap' => .opening gap :: (inner.tokens ++ [.closing gap'])
  | .not gap body => .bang gap :: body.tokens

def Term.tokens : Term → List Token
  | .single o => o.tokens
  | .join o gap chars rest => o.tokens ++ ⟨.other, gap, chars⟩ :: rest.tokens

def Clause.tokens : Clause → List Token
  | .mk first others => first.tokens ++ others.tokens

def MoreTerms.tokens : MoreTerms → List Token
  | .nil => []
  | .cons gap t others => .both gap :: (t.tokens ++ others.tokens)

def Expression.tokens : Expression → List Token
  | .mk first others => first.tokens ++ others.tokens

def MoreClauses.tokens : MoreClauses → List Token
  | .nil => []
  | .cons gap c others => .either gap :: (c.tokens ++ others.tokens)

end

/-! ## What is read -/

/-- Whether an operand is read by its structure: a test, or an expression in brackets. -/
def Operand.isStructural : Operand → Bool
  | name _ | number .. | call .. => false
  | test .. | testWithin .. | brackets .. => true
  | not _ body => body.isStructural

/-- The literal of an operand and the tokens behind it, negated as often as the operand is. -/
def Operand.literal : Operand → List Token → Formula
  | not _ body, ks => (body.literal ks).negate
  | o, ks => .literal (Text.squeeze (span (o.tokens ++ ks)))

mutual

/-- The formula of an operand, or the first token that is not expected. -/
def Operand.formula : Operand → Except Token Formula
  | .name k => .ok (.literal (String.ofList k.chars))
  | .number _ chars => .ok (match integer? chars with
      | some value => .const (value != 0)
      | none => .literal (Text.squeeze chars))
  | .call k gap args gap' => .ok ((Operand.call k gap args gap').literal [])
  | .test _ k => .ok (.literal (String.ofList k.chars))
  | .testWithin _ _ k _ => .ok (.literal (String.ofList k.chars))
  | .brackets _ inner _ => inner.formula
  | .not _ body => do return (← body.formula).negate

/-- An operator behind an operand that is read by its structure is not expected. -/
def Term.formula : Term → Except Token Formula
  | .single o => o.formula
  | .join o gap chars rest =>
    if o.isStructural then o.formula >>= fun _ => .error ⟨.other, gap, chars⟩
    else .ok (o.literal (⟨.other, gap, chars⟩ :: rest.tokens))

def Clause.formula : Clause → Except Token Formula
  | .mk first others => do return .conj ((← first.formula) :: (← others.formulas))

def MoreTerms.formulas : MoreTerms → Except Token (List Formula)
  | .nil => .ok []
  | .cons _ t others => do return (← t.formula) :: (← others.formulas)

/-- The formula of an expression, or the first token that is not expected. -/
def Expression.formula : Expression → Except Token Formula
  | .mk first others => do return .disj ((← first.formula) :: (← others.formulas))

def MoreClauses.formulas : MoreClauses → Except Token (List Formula)
  | .nil => .ok []
  | .cons _ c others => do return (← c.formula) :: (← others.formulas)

end

/-! ## Runs of tokens -/

/-- What a run gives if tokens come in front of it. -/
def prepend (ks : List Token) (r : List Token × List Token × Nat) : List Token × List Token × Nat :=
  (ks ++ r.1, r.2)

@[simp] theorem prepend_prepend (ks ks' : List Token) (r : List Token × List Token × Nat) :
    prepend ks (prepend ks' r) = prepend (ks ++ ks') r := by
  simp [prepend]

section Runs

variable {k : Token} {more : List Token} {depth : Nat} {gap : List Char}

theorem atomRun_opening : atomRun depth (.opening gap :: more) =
    prepend [.opening gap] (atomRun (depth + 1) more) := rfl

theorem atomRun_closing : atomRun (depth + 1) (.closing gap :: more) =
    prepend [.closing gap] (atomRun depth more) := rfl

/-- A token that ends no run goes into it. -/
theorem atomRun_plain (h : k.kind ∉ [TokenKind.or, .and, .opening, .closing]) :
    atomRun depth (k :: more) = prepend [k] (atomRun depth more) := by
  obtain ⟨kind, gap, chars⟩ := k
  cases kind <;> first | rfl | simp at h

/-- Within brackets an operator goes into a run. -/
theorem atomRun_within (h : k.kind ≠ .opening ∧ k.kind ≠ .closing) :
    atomRun (depth + 1) (k :: more) = prepend [k] (atomRun (depth + 1) more) := by
  obtain ⟨kind, gap, chars⟩ := k
  cases kind <;> first | rfl | simp at h

/-- What stands between the brackets of a call goes into a run. -/
theorem atomRun_arguments (args : Arguments) (depth : Nat) (more : List Token) :
    atomRun (depth + 1) (args.tokens ++ more) =
      prepend args.tokens (atomRun (depth + 1) more) := by
  induction args generalizing depth more with
  | nil => rfl
  | token k plain rest ih =>
    rw [Arguments.tokens, List.cons_append, atomRun_within plain, ih]
    simp
  | group gap inner gap' rest ihi ihr =>
    rw [Arguments.tokens, List.cons_append, List.append_assoc, List.cons_append, atomRun_opening,
      ihi, atomRun_closing, ihr]
    simp

mutual

/-- An operand goes into a run as a whole. -/
theorem atomRun_operand : (o : Operand) → (depth : Nat) → (more : List Token) →
    atomRun depth (o.tokens ++ more) = prepend o.tokens (atomRun depth more)
  | .name k, depth, more | .number gap chars, depth, more => by
    rw [Operand.tokens, List.singleton_append, atomRun_plain (by simp)]
  | .call k gap args gap', depth, more => by
    simp only [Operand.tokens, List.cons_append, List.append_assoc, List.nil_append]
    rw [atomRun_plain (by simp), atomRun_opening, atomRun_arguments, atomRun_closing]
    simp
  | .test gap k, depth, more => by
    simp only [Operand.tokens, List.cons_append, List.nil_append]
    rw [atomRun_plain (by simp), atomRun_plain (by simp)]
    simp
  | .testWithin gap gap' k gap'', depth, more => by
    simp only [Operand.tokens, List.cons_append, List.nil_append]
    rw [atomRun_plain (by simp), atomRun_opening,
      atomRun_plain (by simp), atomRun_closing]
    simp
  | .brackets gap inner gap', depth, more => by
    simp only [Operand.tokens, List.cons_append, List.append_assoc, List.nil_append]
    rw [atomRun_opening, atomRun_expression inner, atomRun_closing]
    simp
  | .not gap body, depth, more => by
    rw [Operand.tokens, List.cons_append, atomRun_plain (by simp), atomRun_operand body]
    simp

theorem atomRun_term : (t : Term) → (depth : Nat) → (more : List Token) →
    atomRun depth (t.tokens ++ more) = prepend t.tokens (atomRun depth more)
  | .single o, depth, more => atomRun_operand o depth more
  | .join o gap chars rest, depth, more => by
    rw [Term.tokens, List.append_assoc, List.cons_append, atomRun_operand, atomRun_plain (by simp),
      atomRun_term rest]
    simp

theorem atomRun_clause : (c : Clause) → (depth : Nat) → (more : List Token) →
    atomRun (depth + 1) (c.tokens ++ more) = prepend c.tokens (atomRun (depth + 1) more)
  | .mk first others, depth, more => by
    rw [Clause.tokens, List.append_assoc, atomRun_term, atomRun_moreTerms others, prepend_prepend]

theorem atomRun_moreTerms : (ts : MoreTerms) → (depth : Nat) → (more : List Token) →
    atomRun (depth + 1) (ts.tokens ++ more) = prepend ts.tokens (atomRun (depth + 1) more)
  | .nil, depth, more => rfl
  | .cons gap t others, depth, more => by
    rw [MoreTerms.tokens, List.cons_append, List.append_assoc, atomRun_within (by simp),
      atomRun_term, atomRun_moreTerms others]
    simp

theorem atomRun_expression : (e : Expression) → (depth : Nat) → (more : List Token) →
    atomRun (depth + 1) (e.tokens ++ more) = prepend e.tokens (atomRun (depth + 1) more)
  | .mk first others, depth, more => by
    rw [Expression.tokens, List.append_assoc, atomRun_clause, atomRun_moreClauses others,
      prepend_prepend]

theorem atomRun_moreClauses : (cs : MoreClauses) → (depth : Nat) → (more : List Token) →
    atomRun (depth + 1) (cs.tokens ++ more) = prepend cs.tokens (atomRun (depth + 1) more)
  | .nil, depth, more => rfl
  | .cons gap c others, depth, more => by
    rw [MoreClauses.tokens, List.cons_append, List.append_assoc, atomRun_within (by simp),
      atomRun_clause, atomRun_moreClauses others]
    simp

end

/-- Whether tokens end here, or go on with one of some kinds. -/
def Follows (kinds : List TokenKind) (ks : List Token) : Prop := ∀ k ∈ ks.head?, k.kind ∈ kinds

/-- A run ends in front of an operator and of a closing bracket. -/
theorem atomRun_follows (h : Follows [.or, .and, .closing] more) : atomRun 0 more = ([], more, 0) := by
  cases more with
  | nil => rfl
  | cons k more =>
    obtain ⟨kind, gap, chars⟩ := k
    have kinds : kind ∈ [TokenKind.or, .and, .closing] := h _ rfl
    simp only [List.mem_cons, List.not_mem_nil, or_false] at kinds
    obtain rfl | rfl | rfl := kinds <;> rfl

end Runs

/-! ## Reading -/

section Readers

variable {α β : Type} {text : String} {v : Except Token α} {rest more : List Token} {steps : Nat}
  {kinds : List TokenKind} {k : Token}

theorem Follows.mono {kinds' : List TokenKind} (h : Follows kinds more) (sub : kinds ⊆ kinds') :
    Follows kinds' more := fun k hk => sub (h k hk)

/-- A reader gives what is expected and leaves a rest, or it fails at a token that is not expected, or
stops in front of it. -/
def Yields (text : String) (rest : List Token) :
    Except Token α → Except ParseFault (α × List Token) → Prop
  | .ok a, r => r = .ok (a, rest)
  | .error k, r => k.kind = .other ∧
      (r = .error (unexpected text k) ∨ ∃ a ks, r = .ok (a, k :: ks))

theorem Yields.bind {w : α → Except Token β} {r : Except ParseFault (α × List Token)}
    {next : α × List Token → Except ParseFault (β × List Token)} (h : Yields text rest v r)
    (ok : ∀ a, v = .ok a → Yields text more (w a) (next (a, rest)))
    (stuck : ∀ a k ks, k.kind = .other → next (a, k :: ks) = .error (unexpected text k) ∨
      ∃ b ks', next (a, k :: ks) = .ok (b, k :: ks')) :
    Yields text more (v >>= w) (r >>= next) := by
  cases v with
  | ok a =>
    obtain rfl : r = .ok (a, rest) := h
    exact ok a rfl
  | error k =>
    obtain ⟨kind, rfl | ⟨a, ks, rfl⟩⟩ := h
    · exact ⟨kind, .inl rfl⟩
    · exact ⟨kind, stuck a k ks kind⟩

/-- What is read first and what is read behind it are put together. -/
theorem Yields.seq {γ : Type} {w : Except Token (List β)} {r : Except ParseFault (α × List Token)}
    {tail : List Token → Except ParseFault (List β × List Token)} (g : α → List β → γ)
    (h : Yields text rest v r) (behind : Yields text more w (tail rest))
    (stuck : ∀ k ks, k.kind = .other → tail (k :: ks) = .ok ([], k :: ks)) :
    Yields text more (do let a ← v; let bs ← w; return g a bs)
      (do let (a, ks) ← r; let (bs, ks) ← tail ks; return (g a bs, ks)) := by
  refine h.bind (fun a _ => behind.bind (fun _ _ => rfl) fun _ _ _ _ => .inr ⟨_, _, rfl⟩)
    fun a k ks kind => .inr ⟨g a [], ks, ?_⟩
  show (tail (k :: ks) >>= _) = _
  rw [stuck k ks kind]
  rfl

/-- What a reader stops in front of is not expected behind it. -/
theorem Yields.stops {r : Except ParseFault (α × List Token)} (h : Yields text (k :: rest) v r)
    (kind : k.kind = .other) : Yields text more (v >>= fun _ => (.error k : Except Token α)) r := by
  cases v with
  | ok a => exact ⟨kind, .inr ⟨a, rest, h⟩⟩
  | error k' => exact h

/-- What a reader gives may be changed. -/
theorem Yields.map {r : Except ParseFault (α × List Token)} (h : Yields text rest v r) (g : α → β) :
    Yields text rest (do return g (← v)) (do let (a, ks) ← r; return (g a, ks)) :=
  h.bind (fun _ _ => rfl) fun _ _ _ _ => .inr ⟨_, _, rfl⟩

/-- The formula of an operand that is not read by its structure and of the tokens behind it. -/
def Operand.atom : Operand → List Token → Formula
  | not _ body, ks => (body.atom ks).negate
  | o, ks => atomFormula (o.tokens ++ ks)

theorem atomFormula_of_two (h : 2 ≤ more.length) :
    atomFormula more = .literal (Text.squeeze (span more)) := by
  match more, h with
  | _ :: _ :: _, _ => rfl

theorem Operand.tokens_ne_nil (o : Operand) : o.tokens ≠ [] := by
  cases o <;> simp [Operand.tokens]

theorem Operand.two_le_length {ks : List Token} (o : Operand) (full : ks ≠ []) :
    2 ≤ (o.tokens ++ ks).length := by
  have first := List.length_pos_iff.2 o.tokens_ne_nil
  have behind := List.length_pos_iff.2 full
  rw [List.length_append]
  omega

/-- With tokens behind it an operand gives a literal. -/
theorem Operand.atom_eq_literal {ks : List Token} (full : ks ≠ []) :
    (o : Operand) → o.atom ks = o.literal ks
  | .not _ body => congrArg Formula.negate (body.atom_eq_literal full)
  | .name _ | .number .. | .call .. | .test .. | .testWithin .. | .brackets .. =>
    atomFormula_of_two (Operand.two_le_length _ full)

/-- Alone an operand gives its own formula. -/
theorem Operand.formula_eq_atom : (o : Operand) → o.isStructural = false → o.formula = .ok (o.atom [])
  | .name k, _ => rfl
  | .number gap chars, _ => by
    have whole : span [⟨.number, gap, chars⟩] = chars := List.append_nil chars
    rw [Operand.formula, Operand.atom]
    · simp only [Operand.tokens, List.append_nil, atomFormula, whole]
      rfl
    · rintro _ _ ⟨⟩
  | .call k gap args gap', _ => by
    refine congrArg Except.ok (atomFormula_of_two ?_).symm
    simp [Operand.tokens]
  | .not gap body, h => by
    rw [Operand.formula, body.formula_eq_atom h]
    rfl

/-- A run from an operand on is read as one atom. -/
theorem atom_operand {ks : List Token} (run : atomRun 0 (ks ++ more) = (ks, more, 0)) (o : Operand) :
    atom text (o.tokens ++ (ks ++ more)) = .ok (atomFormula (o.tokens ++ ks), more) := by
  rw [atom, atomRun_operand, run, prepend]

theorem operand_name (k : Name) :
    operand text (steps + 1) (k.token :: more) = atom text (k.token :: more) := by
  rw [operand]
  exact if_neg k.plain

/-- An operand that is not read by its structure is read together with the run of tokens behind it. -/
theorem operand_atom {ks : List Token} (run : atomRun 0 (ks ++ more) = (ks, more, 0)) :
    (o : Operand) → o.isStructural = false → ∀ {steps}, o.tokens.length ≤ steps →
      operand text steps (o.tokens ++ (ks ++ more)) = .ok (o.atom ks, more)
  | .name k, _, steps + 1, _ => (operand_name k).trans (atom_operand run (.name k))
  | .number gap chars, _, steps + 1, _ => atom_operand run (.number gap chars)
  | .call k gap args gap', _, steps + 1, _ =>
    (operand_name k).trans (atom_operand run (.call k gap args gap'))
  | .not gap body, h, steps + 1, enough => by
    simp only [Operand.tokens, List.length_cons, List.cons_append] at enough ⊢
    rw [operand]
    show (operand text steps (body.tokens ++ (ks ++ more)) >>= _) = _
    rw [operand_atom run body h (by omega)]
    rfl

theorem follows_cons {ks : List Token} (h : k.kind ∈ kinds) : Follows kinds (k :: ks) := by
  intro k' hk
  obtain rfl := Option.some.inj hk
  exact h

theorem MoreTerms.follows (ts : MoreTerms) (h : Follows [.or, .closing] more) :
    Follows [.or, .and, .closing] (ts.tokens ++ more) := by
  cases ts with
  | nil => exact h.mono (by decide)
  | cons gap t others => exact follows_cons (by simp)

theorem MoreClauses.follows (cs : MoreClauses) (h : Follows [.closing] more) :
    Follows [.or, .closing] (cs.tokens ++ more) := by
  cases cs with
  | nil => exact h.mono (by decide)
  | cons gap c others => exact follows_cons (by simp)

theorem moreConjuncts_nil (h : Follows [.or, .closing, .other] more) :
    moreConjuncts text (steps + 1) more = .ok ([], more) := by
  cases more with
  | nil => rfl
  | cons k more =>
    have kind : k.kind ≠ .and := fun e => absurd (e ▸ h k rfl) (by decide)
    rw [moreConjuncts, if_neg kind]
    rfl

theorem moreDisjuncts_nil (h : Follows [.closing, .other] more) :
    moreDisjuncts text (steps + 1) more = .ok ([], more) := by
  cases more with
  | nil => rfl
  | cons k more =>
    have kind : k.kind ≠ .or := fun e => absurd (e ▸ h k rfl) (by decide)
    rw [moreDisjuncts, if_neg kind]
    rfl

/-- No more operands are read in front of another operator. -/
theorem moreConjuncts_stuck (k : Token) (ks : List Token) (h : k.kind = .other) :
    moreConjuncts text (steps + 1) (k :: ks) = .ok ([], k :: ks) :=
  moreConjuncts_nil (follows_cons (by rw [h]; decide))

theorem moreDisjuncts_stuck (k : Token) (ks : List Token) (h : k.kind = .other) :
    moreDisjuncts text (steps + 1) (k :: ks) = .ok ([], k :: ks) :=
  moreDisjuncts_nil (follows_cons (by rw [h]; decide))

/-- A test says that a name is defined. -/
theorem operand_test (gap : List Char) (k : Name) :
    operand text (steps + 1) ((Operand.test gap k).tokens ++ more) =
      .ok (.literal (String.ofList k.chars), more) := by
  simp only [Operand.tokens, List.cons_append, List.nil_append]
  rw [operand]
  exact if_pos rfl

theorem operand_testWithin (gap gap' : List Char) (k : Name) (gap'' : List Char) :
    operand text (steps + 1) ((Operand.testWithin gap gap' k gap'').tokens ++ more) =
      .ok (.literal (String.ofList k.chars), more) := by
  simp only [Operand.tokens, List.cons_append, List.nil_append]
  rw [operand]
  exact if_pos rfl

theorem closeBracket_stuck (k : Token) (ks : List Token) (h : k.kind = .other) :
    closeBracket text (k :: ks) = .error (unexpected text k) :=
  if_neg (by rw [h]; decide)

mutual

/-- An operand that is read by its structure is read alone. -/
theorem operand_structural : (o : Operand) → o.isStructural = true → ∀ {n r},
    4 * o.tokens.length ≤ n →
      Yields text r o.formula (operand text n (o.tokens ++ r))
  | .test gap k, _, steps + 1, more, _ => operand_test gap k
  | .testWithin gap gap' k gap'', _, steps + 1, more, _ => operand_testWithin gap gap' k gap''
  | .brackets gap inner gap', _, steps + 1, more, enough => by
    simp only [Operand.tokens, List.length_cons, List.length_append, List.length_nil,
      List.cons_append, List.append_assoc, List.nil_append] at enough ⊢
    have read := disjunction_expression inner (r := .closing gap' :: more) (n := steps)
      (follows_cons List.mem_cons_self) (by omega)
    rw [operand]
    show Yields text more inner.formula (disjunction text steps _ >>= _)
    rw [← bind_pure inner.formula]
    refine read.bind (fun f _ => rfl) fun f k ks kind => .inl ?_
    show (closeBracket text (k :: ks) >>= _) = _
    rw [closeBracket_stuck k ks kind]
    rfl
  | .not gap body, h, steps + 1, more, enough => by
    simp only [Operand.tokens, List.length_cons, List.cons_append] at enough ⊢
    rw [operand, Operand.formula]
    exact (operand_structural body h (by omega)).map Formula.negate

/-- A term is read by its first operand. -/
theorem operand_term : (t : Term) → ∀ {n r}, Follows [.or, .and, .closing] r →
    4 * t.tokens.length ≤ n →
      Yields text r t.formula (operand text n (t.tokens ++ r))
  | .single o, steps, more, follows, enough => by
    rw [Term.tokens] at enough ⊢
    cases h : o.isStructural with
    | true => exact operand_structural o h enough
    | false =>
      rw [Term.formula, o.formula_eq_atom h]
      have run : atomRun 0 ([] ++ more) = ([], more, 0) := atomRun_follows follows
      exact operand_atom run o h (by omega)
  | .join o gap chars rest, steps, more, follows, enough => by
    simp only [Term.tokens, List.length_append, List.length_cons, List.append_assoc,
      List.cons_append] at enough ⊢
    rw [Term.formula]
    cases h : o.isStructural with
    | true => exact (operand_structural o h (by omega)).stops rfl
    | false =>
      have run : atomRun 0 ((⟨.other, gap, chars⟩ :: rest.tokens) ++ more) =
          (⟨.other, gap, chars⟩ :: rest.tokens, more, 0) := by
        rw [List.cons_append, atomRun_plain (by simp), atomRun_term, atomRun_follows follows]
        simp [prepend]
      rw [← o.atom_eq_literal (List.cons_ne_nil _ _)]
      exact operand_atom run o h (by omega)

theorem conjunction_clause : (c : Clause) → ∀ {n r}, Follows [.or, .closing] r →
    4 * c.tokens.length + 2 ≤ n →
      Yields text r c.formula (conjunction text n (c.tokens ++ r))
  | .mk first others, steps, more, follows, enough => by
    obtain ⟨steps, rfl⟩ : ∃ s, steps = s + 2 := ⟨steps - 2, by omega⟩
    simp only [Clause.tokens, List.length_append, List.append_assoc] at enough ⊢
    have read := operand_term first (n := steps + 1) (others.follows follows) (by omega)
    have behind := moreConjuncts_moreTerms others (n := steps + 1) follows (by omega)
    rw [conjunction, Clause.formula]
    exact read.seq (fun f fs => Formula.conj (f :: fs)) behind moreConjuncts_stuck

/-- The terms of a clause are read one behind the other. -/
theorem moreConjuncts_moreTerms : (ts : MoreTerms) → ∀ {n r}, Follows [.or, .closing] r →
    4 * ts.tokens.length + 1 ≤ n →
      Yields text r ts.formulas (moreConjuncts text n (ts.tokens ++ r))
  | .nil, steps + 1, more, follows, enough => moreConjuncts_nil (follows.mono (by decide))
  | .cons gap t others, steps, more, follows, enough => by
    simp only [MoreTerms.tokens, List.length_cons, List.length_append, List.cons_append,
      List.append_assoc] at enough ⊢
    obtain ⟨steps, rfl⟩ : ∃ s, steps = s + 2 := ⟨steps - 2, by omega⟩
    have read := operand_term t (n := steps + 1) (others.follows follows) (by omega)
    have behind := moreConjuncts_moreTerms others (n := steps + 1) follows (by omega)
    rw [moreConjuncts, if_pos (Token.kind_both gap), MoreTerms.formulas]
    exact read.seq List.cons behind moreConjuncts_stuck

theorem disjunction_expression : (e : Expression) → ∀ {n r}, Follows [.closing] r →
    4 * e.tokens.length + 4 ≤ n →
      Yields text r e.formula (disjunction text n (e.tokens ++ r))
  | .mk first others, steps, more, follows, enough => by
    obtain ⟨steps, rfl⟩ : ∃ s, steps = s + 2 := ⟨steps - 2, by omega⟩
    simp only [Expression.tokens, List.length_append, List.append_assoc] at enough ⊢
    have read := conjunction_clause first (n := steps + 1) (others.follows follows) (by omega)
    have behind := moreDisjuncts_moreClauses others (n := steps + 1) follows (by omega)
    rw [disjunction, Expression.formula]
    exact read.seq (fun f fs => Formula.disj (f :: fs)) behind moreDisjuncts_stuck

/-- The clauses of an expression are read one behind the other. -/
theorem moreDisjuncts_moreClauses : (cs : MoreClauses) → ∀ {n r}, Follows [.closing] r →
    4 * cs.tokens.length + 1 ≤ n →
      Yields text r cs.formulas (moreDisjuncts text n (cs.tokens ++ r))
  | .nil, steps + 1, more, follows, enough => moreDisjuncts_nil (follows.mono (by decide))
  | .cons gap c others, steps, more, follows, enough => by
    simp only [MoreClauses.tokens, List.length_cons, List.length_append, List.cons_append,
      List.append_assoc] at enough ⊢
    obtain ⟨steps, rfl⟩ : ∃ s, steps = s + 2 := ⟨steps - 2, by omega⟩
    have read := conjunction_clause c (n := steps + 1) (others.follows follows) (by omega)
    have behind := moreDisjuncts_moreClauses others (n := steps + 1) follows (by omega)
    rw [moreDisjuncts, if_pos (Token.kind_either gap), MoreClauses.formulas]
    exact read.seq List.cons behind moreDisjuncts_stuck

end

end Readers

end Variation.Condition
