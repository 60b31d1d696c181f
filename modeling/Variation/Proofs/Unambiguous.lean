import Mathlib.Data.List.Basic
import Variation.Formula

/-!
# Texts of formulas

The text of a formula puts brackets around an operand that is a junction, so the first operand of a
junction ends where the first operator outside of brackets begins. Literals may be any texts, and a name
can look like the text of another formula. Formulas are the same if their texts are, as long as the
brackets of every name are balanced and no name is a constant, begins like a negation or an operand in
brackets, or has an operator outside of brackets.
-/

namespace Variation

namespace Text

/-- The depth of brackets behind a character; no bracket is closed that is not open. -/
def depthBehind (depth : Nat) (c : Char) : Option Nat :=
  if c = '(' then some (depth + 1)
  else if c = ')' then (if depth = 0 then none else some (depth - 1))
  else some depth

/-- The depth of brackets behind a text. -/
def depthAfter (depth : Nat) (cs : List Char) : Option Nat := cs.foldlM depthBehind depth

/-- Whether every bracket is closed, and none that is not open. -/
def IsBalanced (cs : List Char) : Prop := depthAfter 0 cs = some 0

/-- The signs between the operands of a junction. -/
def marks : List (List Char) := [[' ', '&', ' '], [' ', '|', ' ']]

/-- Whether a text begins with the sign of a junction. -/
def beginsOperator (cs : List Char) : Bool := decide (cs.take 3 ∈ marks)

/-- The text up to the first operator outside of brackets. -/
def firstOperand : Nat → List Char → List Char
  | _, [] => []
  | depth, c :: cs =>
    if depth = 0 ∧ beginsOperator (c :: cs) = true then []
    else c :: firstOperand ((depthBehind depth c).getD 0) cs

/-- What may follow an operand. -/
def Follows (rest : List Char) : Prop := rest = [] ∨ beginsOperator rest = true

/-- A text that can be an operand: its brackets are balanced, and no operator begins in it outside of
brackets, even if a space follows it. -/
structure IsOperand (cs : List Char) : Prop where
  balanced : IsBalanced cs
  whole : firstOperand 0 (cs ++ [' ']) = cs ++ [' ']

instance (cs : List Char) : Decidable (IsBalanced cs) := inferInstanceAs (Decidable (_ = _))

instance (cs : List Char) : Decidable (IsOperand cs) :=
  decidable_of_iff (IsBalanced cs ∧ firstOperand 0 (cs ++ [' ']) = cs ++ [' '])
    ⟨fun ⟨balanced, whole⟩ => ⟨balanced, whole⟩, fun ⟨balanced, whole⟩ => ⟨balanced, whole⟩⟩

section Brackets

variable {depth left : Nat} {c : Char} {cs cs' rest : List Char}

theorem depthBehind_of_plain (plain : c ∉ ['(', ')']) : depthBehind depth c = some depth := by
  simp only [List.mem_cons, List.not_mem_nil, or_false, not_or] at plain
  rw [depthBehind, if_neg plain.1, if_neg plain.2]

/-- Around a text there may be more brackets. -/
theorem depthBehind_succ (h : depthBehind depth c = some left) :
    depthBehind (depth + 1) c = some (left + 1) := by
  unfold depthBehind at h ⊢
  by_cases opening : c = '('
  · rw [if_pos opening] at h ⊢
    obtain rfl := Option.some.inj h
    rfl
  · rw [if_neg opening] at h ⊢
    by_cases closing : c = ')'
    · rw [if_pos closing] at h ⊢
      cases depth with
      | zero => cases h
      | succ depth =>
        obtain rfl := Option.some.inj h
        rfl
    · rw [if_neg closing] at h ⊢
      obtain rfl := Option.some.inj h
      rfl

theorem depthAfter_cons : depthAfter depth (c :: cs) =
    (depthBehind depth c).bind fun left => depthAfter left cs := List.foldlM_cons ..

theorem depthAfter_append : depthAfter depth (cs ++ cs') =
    (depthAfter depth cs).bind fun left => depthAfter left cs' := List.foldlM_append ..

theorem depthAfter_succ (h : depthAfter depth cs = some left) :
    depthAfter (depth + 1) cs = some (left + 1) := by
  induction cs generalizing depth with
  | nil =>
    obtain rfl := Option.some.inj h
    rfl
  | cons c cs ih =>
    rw [depthAfter_cons] at h ⊢
    obtain ⟨next, step, behind⟩ := Option.bind_eq_some_iff.1 h
    rw [depthBehind_succ step, Option.bind_some, ih behind]

theorem IsBalanced.append (h : IsBalanced cs) (h' : IsBalanced cs') : IsBalanced (cs ++ cs') := by
  rw [IsBalanced, depthAfter_append, show depthAfter 0 cs = some 0 from h]
  exact h'

theorem IsBalanced.brackets (h : IsBalanced cs) : IsBalanced ('(' :: (cs ++ [')'])) := by
  have inner : depthAfter 1 cs = some 1 := depthAfter_succ h
  rw [IsBalanced, depthAfter_cons, show depthBehind 0 '(' = some 1 from rfl, Option.bind_some,
    depthAfter_append, inner]
  rfl

/-- Within brackets an operator does not end an operand. -/
theorem firstOperand_within (h : depthAfter depth cs = some left) :
    firstOperand (depth + 1) (cs ++ rest) = cs ++ firstOperand (left + 1) rest := by
  induction cs generalizing depth with
  | nil =>
    obtain rfl := Option.some.inj h
    rfl
  | cons c cs ih =>
    rw [depthAfter_cons] at h
    obtain ⟨next, step, behind⟩ := Option.bind_eq_some_iff.1 h
    rw [List.cons_append, firstOperand, if_neg (fun outside => Nat.succ_ne_zero _ outside.1),
      depthBehind_succ step, Option.getD_some, ih behind, List.cons_append]

/-- An operator that begins in a text begins there as well if only a space follows. -/
theorem beginsOperator_append (follows : Follows rest) (h : beginsOperator (c :: cs ++ rest) = true) :
    beginsOperator (c :: cs ++ [' ']) = true := by
  have space : ∀ x ∈ rest.head?, x = ' ' := by
    intro x hx
    obtain rfl | follows := follows
    · cases hx
    · obtain ⟨more, rfl⟩ := List.head?_eq_some_iff.1 hx
      have first : ∀ m ∈ marks, m.head? = some ' ' := by decide
      exact Option.some.inj (first _ (of_decide_eq_true follows))
  match cs, rest, space, h with
  | [], [], _, h => exact absurd h (by simp [beginsOperator, marks])
  | [], x :: more, space, h =>
    obtain rfl := space x rfl
    exact absurd h (by simp [beginsOperator, marks])
  | [y], [], _, h => exact absurd h (by simp [beginsOperator, marks])
  | [y], x :: more, space, h =>
    obtain rfl := space x rfl
    exact h
  | y :: z :: cs, _, _, h => exact h

/-- The first operand ends where its brackets are closed and an operator follows. -/
theorem firstOperand_of_balanced (h : depthAfter depth cs = some 0)
    (whole : firstOperand depth (cs ++ [' ']) = cs ++ [' ']) (follows : Follows rest) :
    firstOperand depth (cs ++ rest) = cs := by
  induction cs generalizing depth with
  | nil =>
    obtain rfl := Option.some.inj h
    cases rest with
    | nil => rfl
    | cons x rest =>
      obtain none | follows := follows
      · cases none
      · rw [List.nil_append, firstOperand, if_pos ⟨rfl, follows⟩]
  | cons c cs ih =>
    rw [depthAfter_cons] at h
    obtain ⟨next, step, behind⟩ := Option.bind_eq_some_iff.1 h
    rw [List.cons_append, firstOperand, step, Option.getD_some] at whole ⊢
    split at whole
    · cases whole
    · next inside =>
      rw [if_neg fun outside => inside ⟨outside.1, beginsOperator_append follows outside.2⟩,
        ih behind (List.cons.inj whole).2]

theorem IsOperand.firstOperand_append (h : IsOperand cs) (follows : Follows rest) :
    firstOperand 0 (cs ++ rest) = cs :=
  firstOperand_of_balanced h.balanced h.whole follows

/-- Only a space begins an operator. -/
theorem beginsOperator_of_ne (h : c ≠ ' ') : beginsOperator (c :: cs) = false := by
  refine decide_eq_false fun mem => h ?_
  have first : ∀ m ∈ marks, m.head? = some ' ' := by decide
  exact Option.some.inj (first _ mem)

theorem IsOperand.brackets (h : IsBalanced cs) : IsOperand ('(' :: (cs ++ [')'])) := by
  refine ⟨h.brackets, ?_⟩
  rw [List.cons_append, List.append_assoc, firstOperand, beginsOperator_of_ne (by decide),
    if_neg fun outside => Bool.false_ne_true outside.2]
  exact congrArg _ (firstOperand_within h)

theorem IsOperand.bang (h : IsOperand cs) : IsOperand ('!' :: cs) := by
  refine ⟨h.balanced, ?_⟩
  rw [List.cons_append, firstOperand, beginsOperator_of_ne (by decide),
    if_neg fun outside => Bool.false_ne_true outside.2]
  exact congrArg _ h.whole

end Brackets

/-! ## Junctions -/

section Junctions

variable {mark mark' x y : String} {xs ys : List String}

/-- What follows the first operand of a junction. -/
def behindFirst (mark : String) : List String → List Char
  | [] => []
  | x :: xs => mark.toList ++ (String.intercalate mark (x :: xs)).toList

theorem toList_intercalate_cons :
    (String.intercalate mark (x :: xs)).toList = x.toList ++ behindFirst mark xs := by
  cases xs with
  | nil => rw [String.intercalate_singleton, behindFirst, List.append_nil]
  | cons y xs =>
    rw [String.intercalate_cons_cons, String.toList_append, String.toList_append, behindFirst,
      List.append_assoc]

theorem length_of_mem_marks : ∀ m ∈ marks, m.length = 3 ∧ IsBalanced m := by decide

theorem follows_behindFirst (hm : mark.toList ∈ marks) : Follows (behindFirst mark xs) := by
  cases xs with
  | nil => exact .inl rfl
  | cons x xs =>
    refine .inr (decide_eq_true ?_)
    rwa [behindFirst, List.take_left' (length_of_mem_marks _ hm).1]

theorem firstOperand_intercalate (hm : mark.toList ∈ marks) (hx : IsOperand x.toList) :
    firstOperand 0 (String.intercalate mark (x :: xs)).toList = x.toList := by
  rw [toList_intercalate_cons, hx.firstOperand_append (follows_behindFirst hm)]

theorem IsBalanced.intercalate (hm : mark.toList ∈ marks) (h : ∀ z ∈ xs, IsBalanced z.toList) :
    IsBalanced (String.intercalate mark xs).toList := by
  induction xs with
  | nil => rfl
  | cons x xs ih =>
    obtain ⟨here, h⟩ := List.forall_mem_cons.1 h
    rw [toList_intercalate_cons]
    refine here.append ?_
    cases xs with
    | nil => rfl
    | cons y xs => exact (length_of_mem_marks _ hm).2.append (ih h)

theorem intercalate_cons_inj (hm : mark.toList ∈ marks) (hm' : mark'.toList ∈ marks)
    (hx : IsOperand x.toList) (hy : IsOperand y.toList)
    (same : String.intercalate mark (x :: xs) = String.intercalate mark' (y :: ys)) :
    x = y ∧ behindFirst mark xs = behindFirst mark' ys := by
  have here : x = y := by
    rw [← String.toList_inj, ← firstOperand_intercalate hm hx, same, firstOperand_intercalate hm' hy]
  subst here
  have texts := congrArg String.toList same
  rw [toList_intercalate_cons, toList_intercalate_cons, List.append_cancel_left_eq] at texts
  exact ⟨rfl, texts⟩

theorem behindFirst_ne_nil (hm : mark.toList ∈ marks) : behindFirst mark (x :: xs) ≠ [] := by
  refine List.append_ne_nil_of_left_ne_nil (List.ne_nil_of_length_pos ?_) _
  rw [(length_of_mem_marks _ hm).1]
  decide

/-- The operator and the operands of a junction can be told from its text. -/
theorem intercalate_inj (hm : mark.toList ∈ marks) (hm' : mark'.toList ∈ marks)
    (hx : ∀ z ∈ x :: xs, IsOperand z.toList) (hy : ∀ z ∈ y :: ys, IsOperand z.toList)
    (same : String.intercalate mark (x :: xs) = String.intercalate mark' (y :: ys)) :
    x :: xs = y :: ys ∧ (xs ≠ [] → mark = mark') := by
  induction xs generalizing x y ys with
  | nil =>
    obtain ⟨rfl, behind⟩ := intercalate_cons_inj hm hm' (hx x (by simp)) (hy y (by simp)) same
    cases ys with
    | nil => exact ⟨rfl, fun h => absurd rfl h⟩
    | cons y' ys => exact absurd behind.symm (behindFirst_ne_nil hm')
  | cons x' xs ih =>
    obtain ⟨rfl, behind⟩ := intercalate_cons_inj hm hm' (hx x (by simp)) (hy y (by simp)) same
    cases ys with
    | nil => exact absurd behind (behindFirst_ne_nil hm)
    | cons y' ys =>
      have length : mark.toList.length = mark'.toList.length := by
        rw [(length_of_mem_marks _ hm).1, (length_of_mem_marks _ hm').1]
      obtain ⟨signs, rest⟩ := List.append_inj behind length
      obtain ⟨operands, -⟩ := ih (List.forall_mem_cons.1 hx).2 (List.forall_mem_cons.1 hy).2
        (String.toList_inj.1 rest)
      exact ⟨congrArg _ operands, fun _ => String.toList_inj.1 signs⟩

end Junctions

/-- A name that is not taken for another formula: it is no constant, does not begin like a negation or an
operand in brackets, and has no operator outside of brackets, even if a space follows it. -/
structure IsPlain (name : String) : Prop where
  word : name ≠ "True" ∧ name ≠ "False"
  front : ∀ c ∈ name.toList.head?, c ∉ ['!', '(']
  whole : firstOperand 0 (name.toList ++ [' ']) = name.toList ++ [' ']

instance (name : String) : Decidable (IsPlain name) :=
  have := Option.decidableForallMem (p := fun c => c ∉ ['!', '(']) name.toList.head?
  decidable_of_iff ((name ≠ "True" ∧ name ≠ "False") ∧ (∀ c ∈ name.toList.head?, c ∉ ['!', '(']) ∧
      firstOperand 0 (name.toList ++ [' ']) = name.toList ++ [' '])
    ⟨fun ⟨word, front, whole⟩ => ⟨word, front, whole⟩, fun ⟨word, front, whole⟩ => ⟨word, front, whole⟩⟩

end Text

namespace Formula

open Text

/-- A formula of which the names have a property and every junction has at least two operands. -/
inductive Proper (P : String → Prop) : Formula → Prop where
  | const (value : Bool) : Proper P (.const value)
  | literal {name : String} (h : P name) : Proper P (.literal name)
  | neg {f : Formula} (h : Proper P f) : Proper P (.neg f)
  | all {f g : Formula} {fs : List Formula} (h : ∀ k ∈ f :: g :: fs, Proper P k) :
    Proper P (.all (f :: g :: fs))
  | any {f g : Formula} {fs : List Formula} (h : ∀ k ∈ f :: g :: fs, Proper P k) :
    Proper P (.any (f :: g :: fs))

section Proper

variable {P Q : String → Prop} {f g : Formula} {fs : List Formula}

theorem Proper.negate (h : Proper P f) : Proper P f.negate := by
  cases h with
  | const value => exact .const _
  | neg h => exact h
  | literal h => exact .neg (.literal h)
  | all h => exact .neg (.all h)
  | any h => exact .neg (.any h)

theorem Proper.conj (h : ∀ k ∈ fs, Proper P k) : Proper P (conj fs) :=
  match fs, h with
  | [], _ => .const true
  | [f], h => h f List.mem_cons_self
  | _ :: _ :: _, h => .all h

theorem Proper.disj (h : ∀ k ∈ fs, Proper P k) : Proper P (disj fs) :=
  match fs, h with
  | [], _ => .const false
  | [f], h => h f List.mem_cons_self
  | _ :: _ :: _, h => .any h

theorem mem_occurrencesAll {name : String} (hf : f ∈ fs) (h : name ∈ f.occurrences) :
    name ∈ occurrencesAll fs := by
  induction fs with
  | nil => cases hf
  | cons g fs ih =>
    rw [occurrencesAll, List.mem_append]
    obtain rfl | hf := List.mem_cons.1 hf
    · exact .inl h
    · exact .inr (ih hf)

theorem Proper.and (h : Proper P f) (more : ∀ name ∈ f.occurrences, Q name) :
    Proper (fun name => P name ∧ Q name) f := by
  induction h with
  | const value => exact .const value
  | literal h => exact .literal ⟨h, more _ List.mem_cons_self⟩
  | neg _ ih => exact .neg (ih more)
  | all _ ih => exact .all fun k hk => ih k hk fun name hn => more name (mem_occurrencesAll hk hn)
  | any _ ih => exact .any fun k hk => ih k hk fun name hn => more name (mem_occurrencesAll hk hn)

theorem operands_eq (fs : List Formula) : operands fs = fs.map fun f => f.bracket f.text := by
  induction fs with
  | nil => rfl
  | cons f fs ih => rw [operands, ih, List.map_cons]

end Proper

/-- A name with balanced brackets that is not taken for another formula. -/
def Clear (name : String) : Prop := IsBalanced name.toList ∧ IsPlain name

section Texts

variable {f g : Formula} {fs gs : List Formula} {mark mark' : String}

theorem toList_bracket_of_isCompound (h : f.isCompound = true) (t : String) :
    (f.bracket t).toList = '(' :: (t.toList ++ [')']) := by
  rw [bracket, if_pos h, String.toList_append, String.toList_append]
  rfl

theorem bracket_of_not_isCompound (h : f.isCompound = false) (t : String) : f.bracket t = t := by
  rw [bracket, h, if_neg Bool.false_ne_true]

theorem toList_text_neg : (Formula.neg f).text.toList = '!' :: (f.bracket f.text).toList := by
  rw [Formula.text, String.toList_append]
  rfl

/-- The text of a formula has balanced brackets, and with brackets where they are needed it can be an
operand. -/
theorem Proper.isOperand (h : Proper Clear f) :
    IsBalanced f.text.toList ∧ IsOperand (f.bracket f.text).toList := by
  have junction (sign : String) {fs : List Formula} (hm : sign.toList ∈ marks)
      (ih : ∀ k ∈ fs, IsBalanced k.text.toList ∧ IsOperand (k.bracket k.text).toList) :
      IsBalanced (String.intercalate sign (operands fs)).toList := by
    refine .intercalate hm fun z hz => ?_
    rw [operands_eq] at hz
    obtain ⟨k, hk, rfl⟩ := List.mem_map.1 hz
    exact (ih k hk).2.balanced
  induction h with
  | const value => cases value <;> decide
  | literal h => exact ⟨h.1, h.1, h.2.whole⟩
  | neg _ ih =>
    rw [bracket_of_not_isCompound rfl, toList_text_neg]
    exact ⟨ih.2.bang.balanced, ih.2.bang⟩
  | all _ ih =>
    have balanced := junction " & " (by decide) ih
    rw [toList_bracket_of_isCompound rfl]
    exact ⟨balanced, .brackets balanced⟩
  | any _ ih =>
    have balanced := junction " | " (by decide) ih
    rw [toList_bracket_of_isCompound rfl]
    exact ⟨balanced, .brackets balanced⟩

theorem isOperand_of_mem_operands (h : ∀ k ∈ fs, Proper Clear k) {z : String} (hz : z ∈ operands fs) :
    IsOperand z.toList := by
  rw [operands_eq] at hz
  obtain ⟨k, hk, rfl⟩ := List.mem_map.1 hz
  exact (h k hk).isOperand.2

/-- Nothing but a junction goes on behind its first operand. -/
theorem Proper.firstOperand_text (h : Proper Clear f) :
    firstOperand 0 f.text.toList = f.text.toList ↔ f.isCompound = false := by
  have junction (sign : String) {k k' : Formula} {ks : List Formula} (hm : sign.toList ∈ marks)
      (h : ∀ j ∈ k :: k' :: ks, Proper Clear j) :
      firstOperand 0 (String.intercalate sign (operands (k :: k' :: ks))).toList ≠
        (String.intercalate sign (operands (k :: k' :: ks))).toList := by
    have first := isOperand_of_mem_operands h List.mem_cons_self
    rw [operands, firstOperand_intercalate hm first, toList_intercalate_cons]
    exact fun same => behindFirst_ne_nil hm (List.self_eq_append_right.1 same)
  have single (plain : f.isCompound = false) : firstOperand 0 f.text.toList = f.text.toList := by
    have operand := h.isOperand.2
    rw [bracket_of_not_isCompound plain] at operand
    simpa using operand.firstOperand_append (.inl rfl)
  cases h with
  | const value => exact iff_of_true (single rfl) rfl
  | literal h => exact iff_of_true (single rfl) rfl
  | neg h => exact iff_of_true (single rfl) rfl
  | all h => exact iff_of_false (junction " & " (by decide) h) (nomatch ·)
  | any h => exact iff_of_false (junction " | " (by decide) h) (nomatch ·)

/-- Whether a formula is a negation. -/
def isNegation : Formula → Bool
  | .neg _ => true
  | _ => false

theorem isNegation_of_isCompound (h : f.isCompound = true) : f.isNegation = false := by
  cases f <;> first | rfl | cases h

/-- Of the formulas that are no junctions, the negations begin with their sign. -/
theorem Proper.isNegation_iff (h : Proper Clear f) (plain : f.isCompound = false) :
    f.isNegation = true ↔ f.text.toList.head? = some '!' := by
  cases h with
  | const value => cases value <;> decide
  | literal h => exact iff_of_false (nomatch ·) fun head => h.2.front _ head (by decide)
  | neg h =>
    rw [toList_text_neg]
    exact iff_of_true rfl rfl
  | all h => cases plain
  | any h => cases plain

/-- Only a junction begins with a bracket. -/
theorem Proper.head?_text_ne (h : Proper Clear f) (plain : f.isCompound = false) :
    f.text.toList.head? ≠ some '(' := by
  cases h with
  | const value => cases value <;> decide
  | literal h => exact fun head => h.2.front _ head (by decide)
  | neg h =>
    rw [toList_text_neg]
    exact fun head => absurd (Option.some.inj head) (by decide)
  | all h => cases plain
  | any h => cases plain

/-- Operands with the same text in their brackets have the same text. -/
theorem Proper.text_eq_of_bracket (hf : Proper Clear f) (hg : Proper Clear g)
    (same : f.bracket f.text = g.bracket g.text) : f.text = g.text := by
  have mixed {f g : Formula} (hf : Proper Clear f) (plain : f.isCompound = false)
      (compound : g.isCompound = true) : f.bracket f.text ≠ g.bracket g.text := by
    intro same
    have texts := congrArg String.toList same
    rw [bracket_of_not_isCompound plain, toList_bracket_of_isCompound compound] at texts
    exact hf.head?_text_ne plain (congrArg List.head? texts)
  cases compound : f.isCompound <;> cases compound' : g.isCompound
  · rwa [bracket_of_not_isCompound compound, bracket_of_not_isCompound compound'] at same
  · exact absurd same (mixed hf compound compound')
  · exact absurd same.symm (mixed hg compound' compound)
  · have texts := congrArg String.toList same
    rw [toList_bracket_of_isCompound compound, toList_bracket_of_isCompound compound'] at texts
    exact String.toList_inj.1 (List.append_cancel_right (List.cons.inj texts).2)

/-- Operands with the same texts are the same, if their formulas can be told from their texts. -/
theorem operands_inj (hf : ∀ k ∈ fs, Proper Clear k) (hg : ∀ k ∈ gs, Proper Clear k)
    (ih : ∀ k ∈ fs, ∀ {l}, Proper Clear l → k.text = l.text → k = l)
    (same : operands fs = operands gs) : fs = gs := by
  induction fs generalizing gs with
  | nil =>
    cases gs with
    | nil => rfl
    | cons g gs => cases same
  | cons f fs rest =>
    cases gs with
    | nil => cases same
    | cons g gs =>
      obtain ⟨hf, hfs⟩ := List.forall_mem_cons.1 hf
      obtain ⟨hg, hgs⟩ := List.forall_mem_cons.1 hg
      obtain ⟨here, ih⟩ := List.forall_mem_cons.1 ih
      obtain ⟨first, others⟩ := List.cons.inj same
      rw [here hg (hf.text_eq_of_bracket hg first), rest hfs hgs ih others]

/-- Junctions with the same text have the same sign and the same operands. -/
theorem junction_inj {k k' l l' : Formula} {ks ls : List Formula} (hm : mark.toList ∈ marks)
    (hm' : mark'.toList ∈ marks) (hk : ∀ j ∈ k :: k' :: ks, Proper Clear j)
    (hl : ∀ j ∈ l :: l' :: ls, Proper Clear j)
    (ih : ∀ j ∈ k :: k' :: ks, ∀ {j'}, Proper Clear j' → j.text = j'.text → j = j')
    (same : String.intercalate mark (operands (k :: k' :: ks)) =
      String.intercalate mark' (operands (l :: l' :: ls))) :
    k :: k' :: ks = l :: l' :: ls ∧ mark = mark' := by
  obtain ⟨texts, signs⟩ := intercalate_inj hm hm' (fun z hz => isOperand_of_mem_operands hk hz)
    (fun z hz => isOperand_of_mem_operands hl hz) same
  exact ⟨operands_inj hk hl ih texts, signs (List.cons_ne_nil _ _)⟩

/-- The text of a formula tells whether it is a junction, and whether it is a negation. -/
theorem Proper.alike_of_text (hf : Proper Clear f) (hg : Proper Clear g) (same : f.text = g.text) :
    f.isCompound = g.isCompound ∧ f.isNegation = g.isNegation := by
  have compound : f.isCompound = g.isCompound := by
    have agree := hf.firstOperand_text
    rw [same, hg.firstOperand_text] at agree
    exact Bool.eq_iff_iff.2 (by simpa using agree.symm.not)
  refine ⟨compound, ?_⟩
  cases plain : f.isCompound with
  | true => rw [isNegation_of_isCompound plain, isNegation_of_isCompound (compound ▸ plain)]
  | false =>
    have agree := hf.isNegation_iff plain
    rw [same, ← hg.isNegation_iff (compound ▸ plain)] at agree
    exact Bool.eq_iff_iff.2 agree

/-- A name that is not taken for another formula is no constant. -/
theorem Clear.ne_text_const {name : String} (h : Clear name) (value : Bool) :
    (const value).text ≠ name := by
  cases value
  · exact h.2.word.2.symm
  · exact h.2.word.1.symm

/-- Formulas with clear names are the same if their texts are. -/
theorem Proper.eq_of_text (hf : Proper Clear f) (hg : Proper Clear g) (same : f.text = g.text) :
    f = g := by
  induction hf generalizing g with
  | const value =>
    obtain ⟨compound, negation⟩ := (Proper.const value).alike_of_text hg same
    cases hg with
    | const value' => cases value <;> cases value' <;> first | rfl | exact absurd same (by decide)
    | literal h => exact absurd same (h.ne_text_const value)
    | neg h => cases negation
    | all h => cases compound
    | any h => cases compound
  | literal h =>
    obtain ⟨compound, negation⟩ := (Proper.literal h).alike_of_text hg same
    cases hg with
    | const value => exact absurd same.symm (h.ne_text_const value)
    | literal h' => exact congrArg _ same
    | neg h' => cases negation
    | all h' => cases compound
    | any h' => cases compound
  | neg hf ih =>
    obtain ⟨compound, negation⟩ := (Proper.neg hf).alike_of_text hg same
    cases hg with
    | const value => cases negation
    | literal h => cases negation
    | neg hg =>
      have texts := congrArg String.toList same
      rw [toList_text_neg, toList_text_neg] at texts
      rw [ih hg (hf.text_eq_of_bracket hg (String.toList_inj.1 (List.cons.inj texts).2))]
    | all h => cases compound
    | any h => cases compound
  | all hf ih =>
    obtain ⟨compound, -⟩ := (Proper.all hf).alike_of_text hg same
    cases hg with
    | const value => cases compound
    | literal h => cases compound
    | neg h => cases compound
    | all hg => rw [(junction_inj (by decide) (by decide) hf hg ih same).1]
    | any hg => exact absurd (junction_inj (by decide) (by decide) hf hg ih same).2 (by decide)
  | any hf ih =>
    obtain ⟨compound, -⟩ := (Proper.any hf).alike_of_text hg same
    cases hg with
    | const value => cases compound
    | literal h => cases compound
    | neg h => cases compound
    | all hg => exact absurd (junction_inj (by decide) (by decide) hf hg ih same).2 (by decide)
    | any hg => rw [(junction_inj (by decide) (by decide) hf hg ih same).1]

end Texts

end Formula

end Variation
