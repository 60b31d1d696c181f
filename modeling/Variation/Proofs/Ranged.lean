import Variation.Proofs.Lined
import Variation.Proofs.Measured
import Variation.Proofs.Selection

/-!
# Line ranges

The file of a time is printed from the tree of that time, so each of its lines belongs to a node: it is
a line of its label, or a line that closes the chain that the node opened. The line range of a node is
told by these lines. The range of code covers the lines of its label. The range of a branch begins with
its label and ends where the next branch of the chain begins, or else where the chain is closed. This
holds for every node of a diff that was read, at both times, if no line was skipped.
-/

namespace Variation

open Diff

namespace Printing

/-- A line of a file: the node to which it belongs, whether it closes the chain that the node opened or
is a line of the node's label, which of these lines it is, and its text. -/
structure FileLine where
  node : Handle
  closes : Bool
  index : Nat
  text : String
  deriving DecidableEq

/-- Lines that belong to a node. -/
def fileLines (n : Handle) (closes : Bool) (texts : List String) : List FileLine :=
  texts.zipIdx.map fun (text, index) => ⟨n, closes, index, text⟩

/-- The lines of a tree of a diff at a time. -/
def filed (d : Diff) (t : Time) (f : Forest Handle) : List FileLine :=
  f.spell (fun n => fileLines n false (ownLines (d.look n)))
    fun n => fileLines n true (closingLines (d.look n) t)

/-- A block of lines of a node begins at a line of a file, counted from 1. -/
def Begins (file : List FileLine) (line : Int) (n : Handle) (closes : Bool) : Prop :=
  ∃ i : Nat, line = i + 1 ∧ ∃ text, file[i]? = some ⟨n, closes, 0, text⟩

/-- A line range of a node fits a file: it covers the label of code, and it goes from the label of a
branch to the next branch of the chain, or to what closes the chain if there is none. -/
structure Exact (d : Diff) (t : Time) (file : List FileLine) (n : Handle) (r : LineRange) : Prop where
  code : (d.look n).kind = .artifact → ∀ i : Nat, (r.first ≤ i + 1 ∧ i + 1 < r.stop) ↔
    ∃ l, file[i]? = some l ∧ l.node = n ∧ l.closes = false
  label : (d.look n).kind = .ifBranch ∨ d.continues n = true → Begins file r.first n false
  next : ∀ b ∈ d.below t n, d.continues b = true → Begins file r.stop b false
  last : (d.look n).kind = .ifBranch ∨ d.continues n = true →
    (∀ b ∈ d.below t n, d.continues b = false) → ∃ o, d.Opens t o n ∧ Begins file r.stop o true

variable {d : Diff} {t : Time} {f below : Forest Handle} {n : Handle} {l : FileLine} {line : Int}
  {texts : List String} {closes : Bool}

@[simp] theorem length_fileLines : (fileLines n closes texts).length = texts.length := by
  rw [fileLines, List.length_map, List.length_zipIdx]

theorem mem_fileLines (h : l ∈ fileLines n closes texts) : l.node = n ∧ l.closes = closes := by
  obtain ⟨⟨text, i⟩, -, rfl⟩ := List.mem_map.1 h
  exact ⟨rfl, rfl⟩

theorem nodup_fileLines : (fileLines n closes texts).Nodup := by
  refine List.Nodup.of_map (·.index) ?_
  rw [fileLines, List.map_map]
  show (texts.zipIdx.map Prod.snd).Nodup
  rw [List.zipIdx_map_snd]
  exact List.nodup_range'

/-- A block that is not empty starts with its first line. -/
theorem exists_fileLines (n : Handle) (closes : Bool) (full : texts ≠ []) :
    ∃ text rest, fileLines n closes texts = ⟨n, closes, 0, text⟩ :: rest := by
  obtain ⟨text, rest, rfl⟩ := List.exists_cons_of_ne_nil full
  exact ⟨text, _, rfl⟩

/-- The texts of the lines of a tree are what it prints. -/
theorem map_text_filed (d : Diff) (t : Time) (f : Forest Handle) :
    (filed d t f).map (·.text) = printed d t f := by
  have texts (n : Handle) (closes : Bool) (ls : List String) :
      (fileLines n closes ls).map (·.text) = ls := by
    rw [fileLines, List.map_map]
    exact List.zipIdx_map_fst 0 ls
  rw [filed, Forest.map_spell, printed, Forest.lines_eq_spell]
  exact Forest.spell_congr fun n _ => ⟨texts .., texts ..⟩

theorem length_filed (d : Diff) (t : Time) (f : Forest Handle) :
    (filed d t f).length = (f.map (d.facet t)).extent := by
  rw [Forest.extent, ← printed_eq, ← map_text_filed, List.length_map]

/-- No two lines of a tree are the same. -/
theorem nodup_filed (once : f.flatten.Nodup) : (filed d t f).Nodup := by
  have apart (closes : Bool) (texts : Handle → List String) :
      (f.flatten.flatMap fun n => fileLines n closes (texts n)).Nodup := by
    refine List.nodup_flatMap.2 ⟨fun n _ => nodup_fileLines, once.imp fun other l hl hl' => ?_⟩
    exact other ((mem_fileLines hl).1.symm.trans (mem_fileLines hl').1)
  rw [filed, Forest.spell_perm.nodup_iff]
  refine List.nodup_append'.2 ⟨apart false _, apart true _, fun l hl hl' => ?_⟩
  obtain ⟨n, -, own⟩ := List.mem_flatMap.1 hl
  obtain ⟨m, -, closing⟩ := List.mem_flatMap.1 hl'
  cases (mem_fileLines own).2.symm.trans (mem_fileLines closing).2

theorem filed_cons {a : Handle} {rest : Forest Handle} :
    filed d t (.cons a below rest) = fileLines a false (ownLines (d.look a)) ++ (filed d t below ++
      (fileLines a true (closingLines (d.look a) t) ++ filed d t rest)) := by
  simp only [filed, Forest.spell, List.append_assoc]

/-- A block begins at its first line. -/
theorem begins_append {front rest : List FileLine} {text : String} :
    Begins (front ++ ⟨n, closes, 0, text⟩ :: rest) (front.length + 1) n closes :=
  ⟨front.length, rfl, text, by rw [List.getElem?_append_right (Nat.le_refl _), Nat.sub_self]; rfl⟩

/-! ## The place of a node in its file -/

/-- Lines begin with what closes the chain of a branch. -/
def Closes (d : Diff) (t : Time) (b : Handle) (back : List FileLine) : Prop :=
  ∃ o text rest, d.Opens t o b ∧ back = ⟨o, true, 0, text⟩ :: rest

/-- What a branch continues is closed with it. -/
theorem Closes.continued {b p : Handle} {back : List FileLine} (h : Closes d t p back)
    (continues : d.continues b = true) (up : d.above t b = some p) : Closes d t b back := by
  obtain ⟨o, text, rest, ⟨opens, same | earlier⟩, rfl⟩ := h
  · subst same
    exact ⟨o, text, rest, ⟨opens, .inr (.parent continues up)⟩, rfl⟩
  · exact ⟨o, text, rest, ⟨opens, .inr (.step continues up earlier)⟩, rfl⟩

/-- Where a node ends is told by its children. -/
theorem cases_ends {ns : List Handle} {stop : Int}
    (h : Forest.Ends line (ns.map (d.facet t)) stop) :
    ((∀ b ∈ ns, d.continues b = false) ∧ stop = line) ∨
      ∃ bs b, ns = bs ++ [b] ∧ (∀ c ∈ bs, d.continues c = false) ∧ d.continues b = true ∧
        stop = (d.look b).start.get t := by
  generalize mapped : ns.map (d.facet t) = roots at h
  cases h with
  | here unbranched =>
    subst mapped
    exact .inl ⟨fun b hb => unbranched _ (List.mem_map_of_mem hb), rfl⟩
  | branch unbranched continues =>
    obtain ⟨bs, last, rfl, rfl, one⟩ := List.map_eq_append_iff.1 mapped
    obtain ⟨b, rfl, rfl⟩ := List.map_eq_singleton_iff.1 one
    exact .inr ⟨bs, b, rfl, fun c hc => unbranched _ (List.mem_map_of_mem hc), continues, rfl⟩

/-- What is printed behind a forest fits its last root: no other root continues a chain, and the chain
that the last one continues is closed next. -/
structure Sealed (d : Diff) (t : Time) (f : Forest Handle) (post : List FileLine) : Prop where
  trails : ∀ b ∈ f.roots.dropLast, d.continues b = false
  behind : ∀ b, f.roots.getLast? = some b → d.continues b = true → Closes d t b post

section Sealed

variable {a : Handle} {rest : Forest Handle} {post back : List FileLine} {stop : Int}

theorem Sealed.others (h : Sealed d t (.cons a below rest) post) : Sealed d t rest post := by
  cases rest with
  | nil => exact ⟨List.forall_mem_nil _, fun _ last => nomatch last⟩
  | cons b inner rest =>
    exact ⟨fun c hc => h.trails c (List.mem_cons_of_mem a hc), fun c last => h.behind c last⟩

/-- What stands behind the trees below a branch closes its chain. -/
theorem Sealed.shuts (h : Sealed d t (.cons a below rest) post)
    (full : (d.look a).kind = .ifBranch → closingLines (d.look a) t ≠ [])
    (branch : (d.look a).kind = .ifBranch ∨ d.continues a = true) :
    Closes d t a (fileLines a true (closingLines (d.look a) t) ++ (filed d t rest ++ post)) := by
  by_cases opens : (d.look a).kind = .ifBranch
  · obtain ⟨text, more, first⟩ := exists_fileLines a true (full opens)
    exact ⟨a, text, _, ⟨opens, .inl rfl⟩, by rw [first, List.cons_append]⟩
  · have continues := branch.resolve_left opens
    have none : closingLines (d.look a) t = [] := if_neg opens
    cases rest with
    | nil =>
      rw [none]
      exact h.behind a rfl continues
    | cons b inner rest =>
      rw [h.trails a List.mem_cons_self] at continues
      cases continues

/-- A branch that goes on at the end of a conditional is closed where the conditional is. -/
theorem Sealed.inside (ends : Forest.Ends line (below.roots.map (d.facet t)) stop)
    (up : ∀ b ∈ below.roots, d.above t b = some a)
    (conditional : ∀ b ∈ below.roots, d.continues b = true → (d.look a).kind.isConditional = true)
    (closed : (d.look a).kind = .ifBranch ∨ d.continues a = true → Closes d t a back) :
    Sealed d t below back where
  trails := by
    obtain ⟨unbranched, -⟩ | ⟨bs, b, split, unbranched, -⟩ := cases_ends ends
    · exact fun b hb => unbranched b (List.mem_of_mem_dropLast hb)
    · rw [split, List.dropLast_concat]
      exact unbranched
  behind b last continues := by
    have child : b ∈ below.roots := List.mem_of_getLast? last
    have cond := conditional b child continues
    refine (closed ?_).continued continues (up b child)
    rw [Diff.continues]
    revert cond
    cases (d.look a).kind <;> simp [Kind.isConditional, Kind.isContinuation]

end Sealed

/-- A file whose lines are counted from `line` is cut at a node: the label of the node stands where the
node begins, what hangs below it follows, and what comes then closes the chain of a branch with which no
branch goes on. -/
structure Cut (d : Diff) (t : Time) (file : List FileLine) (line : Int) (n : Handle)
    (front : List FileLine) (below : Forest Handle) (back : List FileLine) : Prop where
  split : file = front ++ (fileLines n false (ownLines (d.look n)) ++ (filed d t below ++ back))
  tree : ((Forest.tree n below).map (d.facet t)).Measured (line + front.length)
  children : d.below t n = below.roots
  closes : (d.look n).kind = .ifBranch ∨ d.continues n = true → Closes d t n back

theorem Cut.prepend {file front back pre : List FileLine}
    (h : Cut d t file (line + pre.length) n front below back) :
    Cut d t (pre ++ file) line n (pre ++ front) below back where
  split := by rw [h.split, List.append_assoc]
  tree := by
    rw [List.length_append, Int.natCast_add, ← Int.add_assoc]
    exact h.tree
  children := h.children
  closes := h.closes

/-- The file of a measured tree is cut at each of its nodes, whatever is printed behind the tree. -/
theorem exists_cut (symmetric : d.Symmetric)
    (lawful : ∀ n ∈ f.flatten, ((d.look n).kind = .ifBranch → closingLines (d.look n) t ≠ []) ∧
      ∀ p, d.above t n = some p → d.continues n = true → (d.look p).kind.isConditional = true)
    (spans : d.Spans t f) (measured : (f.map (d.facet t)).Measured line) {post : List FileLine}
    (shut : Sealed d t f post) (hn : n ∈ f.flatten) :
    ∃ front below back, Cut d t (filed d t f ++ post) line n front below back := by
  induction f generalizing line post with
  | nil => cases hn
  | cons a below rest ihb ihr =>
    obtain ⟨own, others⟩ := List.forall_mem_cons.1 lawful
    obtain ⟨inner, outer⟩ := List.forall_mem_append.1 others
    obtain ⟨-, children, spansBelow, spansRest⟩ := spans
    obtain ⟨start, ends, leaf, measuredBelow, measuredRest⟩ := measured
    have closed := shut.shuts own.1
    simp only [Forest.flatten, List.mem_cons, List.mem_append] at hn
    obtain rfl | hn | hn := hn
    · -- the node is the first root
      refine ⟨[], below, _, ⟨?_, ?_, children, closed⟩⟩
      · simp only [filed_cons, List.append_assoc, List.nil_append]
      · rw [List.length_nil, Int.natCast_zero, Int.add_zero]
        exact Forest.measured_tree.2 ⟨start, ends, leaf, measuredBelow⟩
    · -- it stands below the first root, behind the label of that
      rw [Forest.roots_map] at ends
      have up (b : Handle) (hb : b ∈ below.roots) : d.above t b = some a :=
        symmetric.above_of_mem (children ▸ hb)
      have shutBelow := Sealed.inside ends up
        (fun b hb => (inner b (Forest.mem_flatten_of_mem_roots hb)).2 a (up b hb)) closed
      have size : (fileLines a false (ownLines (d.look a))).length =
          (Nest.firstLines (d.facet t a)).length := length_fileLines
      rw [← size] at measuredBelow
      obtain ⟨front, under, back, cut⟩ := ihb inner spansBelow measuredBelow shutBelow hn
      refine ⟨fileLines a false (ownLines (d.look a)) ++ front, under, back, ?_⟩
      rw [filed_cons, List.append_assoc, List.append_assoc, List.append_assoc]
      exact cut.prepend
    · -- it stands in the trees that follow the first
      have size : (filed d t (.tree a below)).length =
          (Forest.tree (d.facet t a) (below.map (d.facet t))).extent := length_filed ..
      rw [← size] at measuredRest
      obtain ⟨front, under, back, cut⟩ := ihr outer spansRest measuredRest shut.others hn
      refine ⟨filed d t (.tree a below) ++ front, under, back, ?_⟩
      have whole : filed d t (.cons a below rest) = filed d t (.tree a below) ++ filed d t rest := by
        simp only [filed, Forest.spell, Forest.spell_tree, List.append_assoc]
      rw [whole, List.append_assoc]
      exact cut.prepend

/-! ## Exact ranges -/

/-- The lines of a label are those at which the label stands in the file. -/
theorem label_iff_of_split {front rest : List FileLine} (once : f.flatten.Nodup)
    (split : filed d t f = front ++ (fileLines n false (ownLines (d.look n)) ++ rest)) (i : Nat) :
    (front.length ≤ i ∧ i < front.length + (ownLines (d.look n)).length) ↔
      ∃ l, (filed d t f)[i]? = some l ∧ l.node = n ∧ l.closes = false := by
  have inside (k : Nat) (hk : k < (fileLines n false (ownLines (d.look n))).length) :
      (filed d t f)[front.length + k]? = some (fileLines n false (ownLines (d.look n)))[k] := by
    rw [split, List.getElem?_append_right (Nat.le_add_right _ _), Nat.add_sub_cancel_left,
      List.getElem?_append_left hk, List.getElem?_eq_getElem hk]
  constructor
  · rintro ⟨low, high⟩
    obtain ⟨k, rfl⟩ := Nat.exists_eq_add_of_le low
    have hk : k < (fileLines n false (ownLines (d.look n))).length := by
      rw [length_fileLines]
      exact Nat.lt_of_add_lt_add_left high
    exact ⟨_, inside k hk, mem_fileLines (List.getElem_mem hk)⟩
  · rintro ⟨l, here, node, own⟩
    -- the line is one of the label, and no line of the file comes twice
    have mem : l ∈ fileLines n false (ownLines (d.look n)) := by
      obtain ⟨a, -, first | last⟩ := Forest.mem_spell.1 (List.mem_of_getElem? here)
      · rwa [← node, (mem_fileLines first).1]
      · cases own.symm.trans (mem_fileLines last).2
    obtain ⟨k, hk, rfl⟩ := List.mem_iff_getElem.1 mem
    obtain ⟨hi, -⟩ := List.getElem?_eq_some_iff.1 here
    obtain rfl : i = front.length + k :=
      (List.getElem?_inj hi (nodup_filed once)).1 (here.trans (inside k hk).symm)
    rw [length_fileLines] at hk
    omega

section Cut

variable {file front back : List FileLine} {b : Handle}

/-- A node begins at its label. -/
theorem Cut.start (h : Cut d t file line n front below back) :
    (d.look n).start.get t = line + front.length :=
  (Forest.measured_tree.1 h.tree).1

theorem Cut.begins (h : Cut d t file 1 n front below back) (full : ownLines (d.look n) ≠ []) :
    Begins file ((d.look n).start.get t) n false := by
  obtain ⟨text, rest, first⟩ := exists_fileLines n false full
  rw [h.start, h.split, first, Int.add_comm]
  exact begins_append

/-- Where a node ends is told by the nodes below it. -/
theorem Cut.ends (h : Cut d t file line n front below back) :
    Forest.Ends (line + front.length + (ownLines (d.look n)).length + (filed d t below).length)
      ((d.below t n).map (d.facet t)) ((d.look n).stop.get t) := by
  obtain ⟨-, ends, -⟩ := Forest.measured_tree.1 h.tree
  rw [length_filed, h.children, ← Forest.roots_map]
  exact ends

/-- Code ends behind its label. -/
theorem Cut.stop_code (h : Cut d t file line n front below back)
    (code : (d.look n).kind = .artifact) :
    (d.look n).stop.get t = line + front.length + (ownLines (d.look n)).length := by
  obtain ⟨-, -, leaf, -⟩ := Forest.measured_tree.1 h.tree
  have bare : below.map (d.facet t) = .nil := leaf (Kind.annotates_eq_false_iff.2 (.inl code))
  have ends := h.ends
  rw [h.children, ← Forest.roots_map, length_filed, bare] at ends
  exact ends.eq_of_nil.trans (Int.add_zero _)

/-- A branch ends where the next branch of its chain begins. -/
theorem Cut.stop_next (h : Cut d t file line n front below back) (hb : b ∈ d.below t n)
    (continues : d.continues b = true) : (d.look n).stop.get t = (d.look b).start.get t := by
  obtain ⟨unbranched, -⟩ | ⟨bs, c, split, unbranched, -, stop⟩ := cases_ends h.ends
  · rw [unbranched b hb] at continues
    cases continues
  · rw [split, List.mem_append, List.mem_singleton] at hb
    obtain hb | rfl := hb
    · rw [unbranched b hb] at continues
      cases continues
    · exact stop

/-- A branch with which no branch goes on ends at the line that closes its chain. -/
theorem Cut.stop_last (h : Cut d t file 1 n front below back)
    (branch : (d.look n).kind = .ifBranch ∨ d.continues n = true)
    (none : ∀ b ∈ d.below t n, d.continues b = false) :
    ∃ o, d.Opens t o n ∧ Begins file ((d.look n).stop.get t) o true := by
  obtain ⟨o, text, rest, opens, rfl⟩ := h.closes branch
  refine ⟨o, opens, ?_⟩
  obtain ⟨-, stop⟩ | ⟨bs, c, split, -, continues, -⟩ := cases_ends h.ends
  · have place : (d.look n).stop.get t =
        (front ++ (fileLines n false (ownLines (d.look n)) ++ filed d t below)).length + 1 := by
      rw [stop, List.length_append, List.length_append, length_fileLines]
      omega
    rw [place, h.split, ← List.append_assoc (fileLines n false _), ← List.append_assoc front]
    exact begins_append
  · rw [none c (split ▸ List.mem_append_right _ (List.mem_singleton.2 rfl))] at continues
    cases continues

end Cut

/-- In a measured tree in which every branch has a label and a closing line, the line range of each node
is exact. -/
theorem exact_of_measured (symmetric : d.Symmetric) (once : f.flatten.Nodup)
    (full : ∀ n ∈ f.flatten, ownLines (d.look n) ≠ [])
    (lawful : ∀ n ∈ f.flatten, ((d.look n).kind = .ifBranch → closingLines (d.look n) t ≠ []) ∧
      ∀ p, d.above t n = some p → d.continues n = true → (d.look p).kind.isConditional = true)
    (spans : d.Spans t f) (measured : (f.map (d.facet t)).Measured 1)
    (unbranched : (f.map (d.facet t)).Unbranched) (hn : n ∈ f.flatten) :
    Exact d t (filed d t f) n (.atTime (d.look n).start (d.look n).stop t) := by
  have roots (b : Handle) (hb : b ∈ f.roots) : d.continues b = false := by
    refine unbranched (d.facet t b) ?_
    rw [Forest.roots_map]
    exact List.mem_map_of_mem hb
  have shut : Sealed d t f [] := by
    refine ⟨fun b hb => roots b (List.mem_of_mem_dropLast hb), fun b last continues => ?_⟩
    rw [roots b (List.mem_of_getLast? last)] at continues
    cases continues
  have cuts (n : Handle) (hn : n ∈ f.flatten) := exists_cut symmetric lawful spans measured shut hn
  simp only [List.append_nil] at cuts
  have label (n : Handle) (hn : n ∈ f.flatten) :
      Begins (filed d t f) ((d.look n).start.get t) n false := by
    obtain ⟨front, below, back, cut⟩ := cuts n hn
    exact cut.begins (full n hn)
  obtain ⟨front, below, back, cut⟩ := cuts n hn
  refine ⟨fun code i => ?_, fun _ => label n hn, fun b hb continues => ?_, cut.stop_last⟩
  · have start := cut.start
    have stop := cut.stop_code code
    rw [← label_iff_of_split once cut.split]
    show (d.look n).start.get t ≤ i + 1 ∧ (i : Int) + 1 < (d.look n).stop.get t ↔ _
    omega
  · show Begins _ ((d.look n).stop.get t) b false
    rw [cut.stop_next hb continues]
    exact label b (spans.mem_of_mem_below hn hb)

end Printing

namespace Reading

open Printing

variable {options : Options} {dialect : Dialect} {source : Source} {text : String} {d : Diff}

/-- The line ranges of a diff that was read are exact at each time, if no line is skipped: the file of
that time is the text of that time, and every node of the tree covers its lines. -/
theorem lineRange_exact (all : options.skipBlank = false)
    (h : Reading.diff text options source dialect = .ok d) (t : Time) :
    ∃ f : Forest Handle, d.Shape t f ∧
      sourceLines d t = .ok ((filed d t f).map (·.text)) ∧
      (filed d t f).map (·.text) = contentsAt t (PhysicalLine.ofDiff text) ∧
      ∀ n ∈ f.flatten, ∃ r, d.lineRange n t = .ok r ∧ Exact d t (filed d t f) n r := by
  have orderly := (ofLines_seems h).1
  obtain ⟨s, twofold⟩ := orderly.sound.exists_twofold orderly.toRegular
  have filled := filled_ofLines h
  have shape := twofold.shape t
  obtain ⟨measured, unbranched⟩ := measured_ofLines all h shape
  have printed := sourceLines_eq orderly.toRegular shape
  have once : (s.get t).flatten.Nodup := (List.nodup_cons.1 shape.once).2
  refine ⟨s.get t, shape, ?_, ?_, fun n hn => ?_⟩
  · rw [printed, map_text_filed]
  · have texts := printed.symm.trans (sourceLines_ofLines all h t)
    rw [map_text_filed]
    exact Except.ok.inj texts
  · have inStore (n : Handle) (hn : n ∈ (s.get t).flatten) : n < d.size :=
      twofold.lt_size (List.mem_cons_of_mem root hn)
    have full (n : Handle) (hn : n ∈ (s.get t).flatten) : ownLines (d.look n) ≠ [] := by
      rw [ownLines, if_neg (twofold.kind t n hn)]
      refine filled.label n ?_ (inStore n hn)
      rintro rfl
      exact shape.root_not_mem hn
    have closing (n : Handle) (opens : (d.look n).kind = .ifBranch) :
        closingLines (d.look n) t ≠ [] := by
      rw [closingLines, if_pos opens]
      split
      · next c recorded => exact filled.closing n t c recorded
      · exact List.cons_ne_nil _ _
    refine ⟨_, ?_, exact_of_measured twofold.toSymmetric once full (fun n hn =>
      ⟨closing n, fun p => twofold.branch t n p hn⟩) shape.spans measured unbranched hn⟩
    rw [lineRange, node_look (inStore n hn)]
    rfl

/-- A chain that another line closes after the edit, with code that is collapsed. -/
theorem lineRange_exact_reclosed :
    ∃ d, Reading.diff " #if A\n x\n y\n-#else\n-z\n-#endif\n+#endif\n" ⟨true, false⟩ .unknown
        .preprocessor = .ok d ∧
      d.lineRange 1 .before = .ok ⟨1, 4⟩ ∧ d.lineRange 2 .before = .ok ⟨2, 4⟩ ∧
      d.lineRange 3 .before = .ok ⟨4, 6⟩ ∧ d.lineRange 1 .after = .ok ⟨1, 4⟩ ∧
      ∃ f : Forest Handle, d.Shape .before f ∧
        sourceLines d .before = .ok ((filed d .before f).map (·.text)) ∧
        (filed d .before f).map (·.text) = contentsAt .before
          (PhysicalLine.ofDiff " #if A\n x\n y\n-#else\n-z\n-#endif\n+#endif\n") ∧
        ∀ n ∈ f.flatten, ∃ r, d.lineRange n .before = .ok r ∧ Exact d .before (filed d .before f) n r := by
  have ranges : (do
      let d ← Reading.diff " #if A\n x\n y\n-#else\n-z\n-#endif\n+#endif\n" ⟨true, false⟩ .unknown
        .preprocessor
      return [← d.lineRange 1 .before, ← d.lineRange 2 .before, ← d.lineRange 3 .before,
        ← d.lineRange 1 .after] : Outcome _).toOption =
        some [⟨1, 4⟩, ⟨2, 4⟩, ⟨4, 6⟩, ⟨1, 4⟩] := by
    decide +kernel
  obtain ⟨d, read, rest⟩ := Outcome.bind_eq_ok_iff.1 (Outcome.eq_ok_of_toOption ranges)
  obtain ⟨r₁, h₁, rest⟩ := Outcome.bind_eq_ok_iff.1 rest
  obtain ⟨r₂, h₂, rest⟩ := Outcome.bind_eq_ok_iff.1 rest
  obtain ⟨r₃, h₃, rest⟩ := Outcome.bind_eq_ok_iff.1 rest
  obtain ⟨r₄, h₄, rest⟩ := Outcome.bind_eq_ok_iff.1 rest
  have same := Except.ok.inj rest
  simp only [List.cons.injEq, and_true] at same
  obtain ⟨rfl, rfl, rfl, rfl⟩ := same
  exact ⟨d, read, h₁, h₂, h₃, h₄, lineRange_exact rfl read .before⟩

end Reading

end Variation
