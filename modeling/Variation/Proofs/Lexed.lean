import Variation.Condition.Comment
import Variation.Condition.Token
import Mathlib.Data.List.Chain

/-!
# Tokens that were written

A text that is written token by token is cut into the same tokens again, if every token has characters
of its kind and none goes on with what is written behind it. Such a text has no comments, since the two
characters that open one are the end of a token and the beginning of the next.
-/

namespace Variation.Condition

/-- The operators of two characters but `||` and `&&`. -/
def doubles : List (List Char) :=
  [['!', '='], ['=', '='], ['<', '='], ['>', '='], ['<', '<'], ['>', '>']]

/-- Whether characters are those of a token of a kind. -/
def TokenKind.Spells : TokenKind → List Char → Prop
  | or, cs => cs = ['|', '|']
  | and, cs => cs = ['&', '&']
  | not, cs => cs = ['!']
  | opening, cs => cs = ['(']
  | closing, cs => cs = [')']
  | name, c :: cs => beginsName c = true ∧ ∀ x ∈ cs, continuesName x = true
  | number, c :: cs => c.isDigit = true ∧ ∀ x ∈ cs, continuesNumber x = true
  | other, [c] => c ∉ ['!', '(', ')'] ∧ (isGap c || beginsName c || c.isDigit) = false
  | other, cs => cs ∈ doubles
  | name, [] | number, [] => False

namespace Token

/-- Whether a token would go on with a character, or open a comment with it. -/
def Fuses (k : Token) (c : Char) : Prop :=
  match k.kind with
  | .name => continuesName c = true
  | .number => continuesNumber c = true
  | .not => c = '='
  | .other => k.chars ++ [c] ∈ ['|', '|'] :: ['&', '&'] :: ['/', '/'] :: ['/', '*'] :: doubles
  | _ => False

/-- A token of one line, with blanks in front of it and characters of its kind. -/
structure Lawful (k : Token) : Prop where
  gap : ∀ c ∈ k.gap, isGap c = true ∧ c ≠ '\n'
  chars : k.kind.Spells k.chars

/-- The second token can be written behind the first one. -/
def Apart (k next : Token) : Prop := ∀ c ∈ (next.gap ++ next.chars).head?, ¬ k.Fuses c

end Token

/-- The text of tokens, with the blanks in front of each. -/
def written (ks : List Token) : List Char := ks.flatMap fun k => k.gap ++ k.chars

/-- Tokens that can be written one behind the other. -/
structure Spelled (ks : List Token) : Prop where
  lawful : ∀ k ∈ ks, k.Lawful
  apart : ks.IsChain Token.Apart

instance (kind : TokenKind) (cs : List Char) : Decidable (kind.Spells cs) :=
  match kind, cs with
  | .or, cs => inferInstanceAs (Decidable (cs = _))
  | .and, cs => inferInstanceAs (Decidable (cs = _))
  | .not, cs => inferInstanceAs (Decidable (cs = _))
  | .opening, cs => inferInstanceAs (Decidable (cs = _))
  | .closing, cs => inferInstanceAs (Decidable (cs = _))
  | .name, c :: cs =>
    @instDecidableAnd (beginsName c = true) _ inferInstance
      (List.decidableBAll (continuesName · = true) cs)
  | .number, c :: cs =>
    @instDecidableAnd (c.isDigit = true) _ inferInstance
      (List.decidableBAll (continuesNumber · = true) cs)
  | .other, [c] => inferInstanceAs (Decidable (c ∉ ['!', '(', ')'] ∧ _ = false))
  | .other, [] => inferInstanceAs (Decidable ([] ∈ doubles))
  | .other, a :: b :: cs => inferInstanceAs (Decidable (a :: b :: cs ∈ doubles))
  | .name, [] | .number, [] => inferInstanceAs (Decidable False)

instance : (k : Token) → (c : Char) → Decidable (k.Fuses c)
  | ⟨.name, _, _⟩, c => inferInstanceAs (Decidable (continuesName c = true))
  | ⟨.number, _, _⟩, c => inferInstanceAs (Decidable (continuesNumber c = true))
  | ⟨.not, _, _⟩, c => inferInstanceAs (Decidable (c = '='))
  | ⟨.other, _, chars⟩, c => inferInstanceAs (Decidable (chars ++ [c] ∈ _))
  | ⟨.or, _, _⟩, _ | ⟨.and, _, _⟩, _ | ⟨.opening, _, _⟩, _ | ⟨.closing, _, _⟩, _ =>
    inferInstanceAs (Decidable False)

instance (k : Token) : Decidable k.Lawful :=
  have := List.decidableBAll (fun c => isGap c = true ∧ c ≠ '\n') k.gap
  decidable_of_iff ((∀ c ∈ k.gap, isGap c = true ∧ c ≠ '\n') ∧ k.kind.Spells k.chars)
    ⟨fun ⟨gap, chars⟩ => ⟨gap, chars⟩, fun ⟨gap, chars⟩ => ⟨gap, chars⟩⟩

instance : DecidableRel Token.Apart := fun k next =>
  Option.decidableForallMem (p := fun c => ¬ k.Fuses c) (next.gap ++ next.chars).head?

instance (ks : List Token) : Decidable (Spelled ks) :=
  decidable_of_iff ((∀ k ∈ ks, k.Lawful) ∧ ks.IsChain Token.Apart)
    ⟨fun ⟨lawful, apart⟩ => ⟨lawful, apart⟩, fun ⟨lawful, apart⟩ => ⟨lawful, apart⟩⟩

variable {k : Token} {ks : List Token} {c : Char} {cs rest : List Char}

theorem written_cons : written (k :: ks) = k.gap ++ (k.chars ++ written ks) := by
  rw [written, List.flatMap_cons, List.append_assoc, written]

/-- A blank neither goes on with a token nor begins one. -/
theorem plain_of_isGap (h : isGap c = true) :
    beginsName c = false ∧ c.isDigit = false ∧ continuesName c = false ∧ continuesNumber c = false ∧
      c ∉ ['|', '&', '!', '(', ')', '=', '<', '>', '/', '*'] := by
  have listed : c = ' ' ∨ c = '\t' ∨ c = '\n' ∨ c = '\x0c' ∨ c = '\r' := by
    simpa [isGap, or_assoc] using h
  obtain rfl | rfl | rfl | rfl | rfl := listed <;> decide

/-- The characters of a token do not begin with a blank. -/
theorem TokenKind.Spells.exists_cons {kind : TokenKind} (h : kind.Spells cs) :
    ∃ c rest, cs = c :: rest ∧ isGap c = false := by
  have solid {c : Char} (h : beginsName c = true ∨ c.isDigit = true) : isGap c = false := by
    by_contra gap
    obtain ⟨name, digit, -⟩ := plain_of_isGap (Bool.not_eq_false _ ▸ gap)
    rw [name, digit] at h
    simp at h
  match kind, cs, h with
  | .or, _, rfl | .and, _, rfl | .not, _, rfl | .opening, _, rfl | .closing, _, rfl =>
    exact ⟨_, _, rfl, by decide⟩
  | .name, c :: cs, ⟨first, _⟩ => exact ⟨c, cs, rfl, solid (.inl first)⟩
  | .number, c :: cs, ⟨first, _⟩ => exact ⟨c, cs, rfl, solid (.inr first)⟩
  | .other, [c], ⟨_, plain⟩ =>
    simp only [Bool.or_eq_false_iff] at plain
    exact ⟨c, [], rfl, plain.1.1⟩
  | .other, a :: b :: cs, double =>
    have double : a :: b :: cs ∈ doubles := double
    refine ⟨a, b :: cs, rfl, ?_⟩
    simp only [doubles, List.mem_cons, List.cons.injEq, List.not_mem_nil, or_false] at double
    obtain ⟨rfl, -⟩ | ⟨rfl, -⟩ | ⟨rfl, -⟩ | ⟨rfl, -⟩ | ⟨rfl, -⟩ | ⟨rfl, -⟩ := double <;> decide

theorem Spelled.cons (h : Spelled (k :: ks)) :
    k.Lawful ∧ (∀ c ∈ (written ks).head?, ¬ k.Fuses c) ∧ Spelled ks := by
  obtain ⟨here, lawful⟩ := List.forall_mem_cons.1 h.lawful
  obtain ⟨apart, chain⟩ := List.isChain_cons.1 h.apart
  refine ⟨here, fun c hc => ?_, lawful, chain⟩
  cases ks with
  | nil => cases hc
  | cons next ks =>
    obtain ⟨x, rest, chars, -⟩ := (lawful next List.mem_cons_self).chars.exists_cons
    refine apart next rfl c ?_
    rw [written_cons, ← List.append_assoc, List.head?_append_of_ne_nil _ (by simp [chars])] at hc
    exact hc

/-! ## Cutting -/

theorem takeWhile_append_stop {p : Char → Bool} (inside : ∀ x ∈ cs, p x = true)
    (stop : ∀ x ∈ rest.head?, p x = false) : (cs ++ rest).takeWhile p = cs := by
  have none : rest.takeWhile p = [] := by
    cases rest with
    | nil => rfl
    | cons x rest => rw [List.takeWhile_cons, stop x rfl, if_neg Bool.false_ne_true]
  rw [List.takeWhile_append_of_pos inside, none, List.append_nil]

/-- A token that begins with no character of an operator of several characters is told by that character
and by what goes on with it. -/
theorem nextToken_of_notMem (h : c ∉ ['|', '&', '!', '=', '<', '>', '(', ')']) : nextToken (c :: cs) =
    if beginsName c then (.name, 1 + (cs.takeWhile continuesName).length)
    else if c.isDigit then (.number, 1 + (cs.takeWhile continuesNumber).length)
    else (.other, 1) := by
  unfold nextToken
  split <;> simp_all

theorem notMem_of_begins (h : beginsName c = true ∨ c.isDigit = true) :
    c ∉ ['|', '&', '!', '=', '<', '>', '(', ')', '/'] := by
  intro mem
  simp only [List.mem_cons, List.not_mem_nil, or_false] at mem
  obtain rfl | rfl | rfl | rfl | rfl | rfl | rfl | rfl | rfl := mem <;> exact absurd h (by decide)

/-- The ranges of the letters. -/
theorem isAlpha_eq (c : Char) : c.isAlpha =
    (decide (c.val ≥ 65 ∧ c.val ≤ 90) || (decide (c.val ≥ 97) && decide (c.val ≤ 122))) := rfl

/-- A digit does not begin a name. -/
theorem beginsName_of_isDigit (h : c.isDigit = true) : beginsName c = false := by
  have bounds : 48 ≤ c.toNat ∧ c.toNat ≤ 57 := by
    simpa [Char.isDigit, UInt32.le_iff_toNat_le] using h
  have mark : c ≠ '_' := by
    rintro rfl
    exact absurd h (by decide)
  have letter : c.isAlpha = false := by
    simp only [isAlpha_eq, UInt32.le_iff_toNat_le, ge_iff_le]
    simpa using (by omega : ((65 ≤ c.toNat → 90 < c.toNat) ∧ (97 ≤ c.toNat → 122 < c.toNat)))
  rw [beginsName, letter, beq_eq_false_iff_ne.2 mark, Bool.or_false]

/-- What is written first is taken as the first token. -/
theorem nextToken_eq (spells : k.kind.Spells k.chars) (apart : ∀ c ∈ rest.head?, ¬ k.Fuses c) :
    nextToken (k.chars ++ rest) = (k.kind, k.chars.length) := by
  obtain ⟨kind, gap, cs⟩ := k
  simp only at spells apart ⊢
  match kind, cs, spells with
  | .or, _, rfl | .and, _, rfl | .opening, _, rfl | .closing, _, rfl => rfl
  | .not, _, rfl =>
    cases rest with
    | nil => rfl
    | cons x rest =>
      have other : x ≠ '=' := apart x rfl
      simp [nextToken, other]
  | .name, c :: cs, ⟨first, more⟩ =>
    have stop : ∀ x ∈ rest.head?, continuesName x = false := fun x hx =>
      Bool.eq_false_iff.2 (apart x hx)
    have plain := notMem_of_begins (.inl first)
    rw [List.cons_append, nextToken_of_notMem (by simp_all), if_pos first,
      takeWhile_append_stop more stop, List.length_cons, Nat.add_comm]
  | .number, c :: cs, ⟨first, more⟩ =>
    have stop : ∀ x ∈ rest.head?, continuesNumber x = false := fun x hx =>
      Bool.eq_false_iff.2 (apart x hx)
    have plain := notMem_of_begins (.inr first)
    rw [List.cons_append, nextToken_of_notMem (by simp_all), beginsName_of_isDigit first,
      if_neg Bool.false_ne_true, if_pos first, takeWhile_append_stop more stop, List.length_cons,
      Nat.add_comm]
  | .other, [c], ⟨_, plain⟩ =>
    simp only [Bool.or_eq_false_iff] at plain
    have alone (x : Char) (hx : x ∈ rest.head?) : [c, x] ∉
        ['|', '|'] :: ['&', '&'] :: ['/', '/'] :: ['/', '*'] :: doubles := apart x hx
    rw [List.singleton_append]
    unfold nextToken
    split <;> simp_all [doubles]
  | .other, a :: b :: cs, double =>
    have double : a :: b :: cs ∈ doubles := double
    simp only [doubles, List.mem_cons, List.cons.injEq, List.not_mem_nil, or_false] at double
    obtain ⟨rfl, rfl, rfl⟩ | ⟨rfl, rfl, rfl⟩ | ⟨rfl, rfl, rfl⟩ | ⟨rfl, rfl, rfl⟩ | ⟨rfl, rfl, rfl⟩ |
      ⟨rfl, rfl, rfl⟩ := double <;> rfl

/-- Blanks in front of a token are kept with it. -/
theorem tokensFrom_gap {gap before : List Char} (blank : ∀ c ∈ gap, isGap c = true) (steps : Nat) :
    tokensFrom (gap.length + steps) before (gap ++ cs) = tokensFrom steps (before ++ gap) cs := by
  induction gap generalizing before with
  | nil => rw [List.length_nil, Nat.zero_add, List.nil_append, List.append_nil]
  | cons c gap ih =>
    obtain ⟨here, blank⟩ := List.forall_mem_cons.1 blank
    have count : (c :: gap).length + steps = gap.length + steps + 1 := by
      rw [List.length_cons]
      omega
    rw [count, List.cons_append, tokensFrom, if_pos here, ih blank, List.append_assoc,
      List.singleton_append]

/-- A text that is written token by token is cut into these tokens. -/
theorem tokens_written (h : Spelled ks) : tokens (written ks) = ks := by
  have all (steps : Nat) (enough : (written ks).length ≤ steps) :
      tokensFrom steps [] (written ks) = ks := by
    induction ks generalizing steps with
    | nil => cases steps <;> rfl
    | cons k ks ih =>
      obtain ⟨lawful, apart, spelled⟩ := h.cons
      obtain ⟨c, more, chars, solid⟩ := lawful.chars.exists_cons
      rw [written_cons] at enough ⊢
      simp only [List.length_append, chars, List.length_cons] at enough
      obtain ⟨steps, rfl⟩ : ∃ s, steps = k.gap.length + (s + 1) :=
        ⟨steps - k.gap.length - 1, by omega⟩
      have next := nextToken_eq lawful.chars apart
      rw [tokensFrom_gap fun c hc => (lawful.gap c hc).1, List.nil_append]
      rw [chars, List.cons_append] at next ⊢
      rw [tokensFrom, if_neg (by rw [solid]; exact Bool.false_ne_true), next]
      dsimp only
      rw [← List.cons_append, ← chars, List.take_left, List.drop_left,
        ih spelled steps (by omega)]
  exact all _ (Nat.le_refl _)

/-! ## Comments -/

theorem withoutComments_cons (h : c = '/' → ∀ x ∈ cs.head?, x ≠ '*' ∧ x ≠ '/') :
    withoutComments (c :: cs) = c :: withoutComments cs := by
  rw [withoutComments]
  · rintro rest rfl rfl
    exact (h rfl '*' rfl).1 rfl
  · rintro rest rfl rfl
    exact (h rfl '/' rfl).2 rfl

theorem withoutComments_append (plain : '/' ∉ cs) :
    withoutComments (cs ++ rest) = cs ++ withoutComments rest := by
  induction cs with
  | nil => rfl
  | cons c cs ih =>
    obtain ⟨here, plain⟩ := not_or.1 (List.mem_cons.not.1 plain)
    rw [List.cons_append, withoutComments_cons fun slash => absurd slash.symm here, ih plain,
      List.cons_append]

/-- A slash is a token of its own. -/
theorem TokenKind.Spells.eq_of_slash {kind : TokenKind} (h : kind.Spells cs) (slash : '/' ∈ cs) :
    kind = .other ∧ cs = ['/'] := by
  have inner {x : Char} (h : continuesName x = true ∨ continuesNumber x = true) : '/' ≠ x := by
    rintro rfl
    exact absurd h (by decide)
  match kind, cs, h with
  | .or, _, rfl | .and, _, rfl | .not, _, rfl | .opening, _, rfl | .closing, _, rfl =>
    exact absurd slash (by decide)
  | .name, c :: cs, ⟨first, more⟩ =>
    obtain rfl | mem := List.mem_cons.1 slash
    · exact absurd first (by decide)
    · exact absurd rfl (inner (.inl (more _ mem)))
  | .number, c :: cs, ⟨first, more⟩ =>
    obtain rfl | mem := List.mem_cons.1 slash
    · exact absurd first (by decide)
    · exact absurd rfl (inner (.inr (more _ mem)))
  | .other, [c], _ =>
    obtain rfl := List.mem_singleton.1 slash
    exact ⟨rfl, rfl⟩
  | .other, a :: b :: cs, double =>
    have none : ∀ cs ∈ doubles, '/' ∉ cs := by decide
    exact absurd slash (none _ double)

/-- A text that is written token by token has no comments. -/
theorem withoutComments_written (h : Spelled ks) : withoutComments (written ks) = written ks := by
  induction ks with
  | nil => rw [written, List.flatMap_nil, withoutComments]
  | cons k ks ih =>
    obtain ⟨lawful, apart, spelled⟩ := h.cons
    have blank : '/' ∉ k.gap := fun mem => absurd (lawful.gap '/' mem).1 (by decide)
    rw [written_cons, withoutComments_append blank]
    by_cases slash : '/' ∈ k.chars
    · obtain ⟨kind, chars⟩ := lawful.chars.eq_of_slash slash
      have alone : ∀ x ∈ (written ks).head?, x ≠ '*' ∧ x ≠ '/' := by
        intro x hx
        have free := apart x hx
        rw [Token.Fuses, kind, chars] at free
        constructor <;> rintro rfl <;> exact free (by decide)
      rw [chars, List.singleton_append, withoutComments_cons fun _ => alone, ih spelled]
    · rw [withoutComments_append slash, ih spelled]

end Variation.Condition
