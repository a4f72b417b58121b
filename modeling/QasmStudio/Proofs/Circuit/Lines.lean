import QasmStudio.Proofs.Circuit.Statements

/-!
# Reading line by line

`Sketch.Leads s cs s'` says that the lines `cs` take the sketch `s` to `s'`, whatever follows them.
Blocks of lines are put together by `Leads.append` and `Leads.block`. Inside of a block that is left
out no line changes anything.
-/

namespace QasmStudio

open Text List

namespace Text

/-- Does the reader take a line that starts like this for a comment? -/
def isComment (cs : List Char) : Bool :=
  "//".toList.isPrefixOf (trimLeft cs) || "#".toList.isPrefixOf (trimLeft cs)

theorem isComment_word {c : Char} (hc : isWord c = true) (cs : List Char) : isComment (c :: cs) = false := by
  have hne : ∀ d, isWord d = false → (d == c) = false := fun d hd => beq_eq_false_iff_ne.2 (ne_of_class hc hd).symm
  rw [isComment, trimLeft_cons (isBlank_of_isWord hc)]
  simp [List.isPrefixOf, hne '/' (by decide), hne '#' (by decide)]

end Text

namespace Sketch

variable {s s' : Sketch} {cs x : List Char} {w : String}

/-- The sketch after all lines of a text. -/
def reads (s : Sketch) (cs : List Char) : Sketch := (split '\n' cs).foldl line s

def Leads (s : Sketch) (cs : List Char) (s' : Sketch) : Prop :=
  ∀ rest, s.reads (cs ++ rest) = s'.reads rest

namespace Leads

theorem nil : Leads s [] s := fun _ => rfl

theorem append {s₁ s₂ s₃ : Sketch} {cs ds : List Char} (h₁ : Leads s₁ cs s₂) (h₂ : Leads s₂ ds s₃) :
    Leads s₁ (cs ++ ds) s₃ := fun rest => by
  rw [append_assoc, h₁, h₂]

theorem flatMap {α : Type} {f : α → List Char} {xs : List α} (h : ∀ x ∈ xs, Leads s (f x) s) :
    Leads s (xs.flatMap f) s := by
  induction xs with
  | nil => exact nil
  | cons x xs ih =>
    rw [flatMap_cons]
    exact (h x mem_cons_self).append (ih fun y hy => h y (mem_cons_of_mem _ hy))

theorem indented (depth : Nat) (h : '\n' ∉ cs) : Leads s (indented depth cs) (s.line cs) := fun rest => by
  have hline : '\n' ∉ List.replicate (4 * depth) ' ' ++ cs := by
    intro hmem
    rcases mem_append.1 hmem with hmem | hmem
    · exact absurd (eq_of_mem_replicate hmem) (by decide)
    · exact h hmem
  have htext : QasmStudio.indented depth cs ++ rest = (List.replicate (4 * depth) ' ' ++ cs) ++ '\n' :: rest := by
    simp [QasmStudio.indented]
  have hblank : ∀ c ∈ List.replicate (4 * depth) ' ', isBlank c = true := by
    intro c hc
    rw [eq_of_mem_replicate hc]
    decide
  rw [reads, htext, split_append hline, foldl_cons]
  have htrim : s.line (List.replicate (4 * depth) ' ' ++ cs) = s.line cs := by
    unfold line
    rw [trim_append hblank]
  rw [htrim, reads]

end Leads

/-! ### Single lines -/

/-- A line that starts with a word opens a block or is a statement. -/
theorem line_of_word {c l : Char} (hc : isWord c = true) (hl : isBlank l = false) : s.line (c :: (x ++ [l])) =
      if l = '\x7b' then s.openBlock (c :: (x ++ [l]))
      else if s.isSkipping then s else s.statement (c :: (x ++ [l])) := by
  have hlast : (c :: (x ++ [l])).getLast? = some l := by
    rw [← cons_append, getLast?_concat]
  have hfirm : Firm (c :: (x ++ [l])) := ⟨⟨c, rfl, isBlank_of_isWord hc⟩, ⟨l, hlast, hl⟩⟩
  have hother : ∀ d : Char, isWord d = false → ∀ ds, (d :: ds).isPrefixOf (c :: (x ++ [l])) = false := by
    intro d hd ds
    rw [List.isPrefixOf, beq_eq_false_iff_ne.2 (ne_of_class hc hd).symm, Bool.false_and]
  have hbrace : c :: (x ++ [l]) ≠ ['\x7d'] := fun heq => by
    rw [(List.cons.inj heq).1] at hc
    exact absurd hc (by decide)
  unfold line
  dsimp only
  rw [hfirm.trim, hlast]
  simp only [hother '/' (by decide), hother '#' (by decide), hother '\x7d' (by decide), if_neg hbrace,
    cons_ne_nil, decide_false, Bool.or_false, Bool.false_eq_true, if_false, Option.some.injEq,
    show "//".toList = ['/', '/'] from rfl, show "#".toList = ['#'] from rfl,
    show "\x7d else".toList = '\x7d' :: " else".toList from rfl]

/-- A line that ends with a semicolon is a comment or a statement. In a block that is left out it does
nothing. -/
theorem line_semicolon (cs : List Char) : s.line (cs ++ [';']) =
    if s.isSkipping || isComment (cs ++ [';']) then s else s.statement (trim (cs ++ [';'])) := by
  have hlast : (trim (cs ++ [';'])).getLast? = some ';' := getLast?_trim (by decide)
  have hne : trim (cs ++ [';']) ≠ [] := fun heq => by
    rw [heq] at hlast
    cases hlast
  have hbrace : trim (cs ++ [';']) ≠ ['\x7d'] := fun heq => by
    rw [heq] at hlast
    exact absurd hlast (by decide)
  have hopen : ¬ some ';' = some '\x7b' := by decide
  have hcomment : isComment (cs ++ [';']) = ("//".toList.isPrefixOf (trim (cs ++ [';'])) ||
      "#".toList.isPrefixOf (trim (cs ++ [';']))) := by
    rw [isComment, trim_concat (by decide)]
  unfold line
  dsimp only
  rw [hlast, if_neg hbrace, if_neg hopen, decide_eq_false hne, Bool.false_or, ← hcomment]
  cases isComment (cs ++ [';']) <;> cases s.isSkipping <;> rfl

theorem line_of_skipping (hs : s.isSkipping = true) : s.line (cs ++ [';']) = s := by
  rw [line_semicolon, hs, Bool.true_or]
  rfl

/-- A line that starts with a number sign is a comment to the reader. -/
theorem line_pragma (t : List Char) : s.line ("#pragma ".toList ++ t) = s := by
  have htrim : trim ("#pragma ".toList ++ t) = '#' :: trimRight ("pragma ".toList ++ t) := by
    show trimRight (trimLeft ('#' :: ("pragma ".toList ++ t))) = _
    rw [trimLeft_cons (by decide), trimRight_cons (by decide)]
  unfold line
  dsimp only
  rw [htrim]
  exact if_pos rfl

/-! ### Blocks -/

def blockWords : List String := ["box", "gate", "defcal", "if", "for", "while"]

/-- The sketch at the start of a block with the given first word. -/
def enter (s : Sketch) (w : String) : Sketch :=
  { s with
    blocks := decide (w ≠ "box") :: s.blocks
    classical := s.classical || (["if", "for", "while"].contains w && !s.isSkipping) }

theorem blockWords_chars : ∀ w ∈ blockWords, w.toList ≠ [] ∧ w.toList.all isWord = true ∧
    ("def".toList <+: w.toList → w = "defcal") := by
  decide

theorem subroutineName?_header (hw : w ∈ blockWords) : subroutineName? (w.toList ++ ' ' :: x) = none := by
  by_cases hdef : "def".toList <+: w.toList
  · rw [(blockWords_chars w hw).2.2 hdef]
    rfl
  · unfold subroutineName?
    rw [after?_eq_none (Statement.not_prefix_line (by decide) (stops_cons.2 (by decide)) hdef)]
    rfl

theorem openBlock_header (hw : w ∈ blockWords) : s.openBlock (w.toList ++ ' ' :: x) = s.enter w := by
  obtain ⟨hne, hall, -⟩ := blockWords_chars w hw
  have hblank : ∀ c ∈ w.toList, isBlank c = false := fun c hc => isBlank_of_isWord (all_eq_true.1 hall c hc)
  unfold openBlock
  rw [subroutineName?_header hw, words_append hne hblank, String.ofList_toList, Option.toList_none, append_nil]
  clear hblank hne hall
  simp only [blockWords, mem_cons, not_mem_nil, or_false] at hw
  -- the definitions and boxes say nothing on control flow, and `b || false` has to be rewritten
  rcases hw with rfl | rfl | rfl | rfl | rfl | rfl
  · simp [enter]
  · simp [enter]
  · simp [enter]
  all_goals rfl

theorem line_header (hw : w ∈ blockWords) : s.line (w.toList ++ ' ' :: (x ++ ['\x7b'])) = s.enter w := by
  obtain ⟨hne, hall, -⟩ := blockWords_chars w hw
  obtain ⟨c, ds, hds⟩ := exists_cons_of_ne_nil hne
  have hword : isWord c = true := all_eq_true.1 hall c (hds ▸ mem_cons_self)
  have hline : w.toList ++ ' ' :: (x ++ ['\x7b']) = c :: ((ds ++ ' ' :: x) ++ ['\x7b']) := by
    rw [hds]
    simp
  rw [← openBlock_header hw, hline, line_of_word hword (by decide), if_pos rfl]

/-- The header of a block that starts with the word `w`, without the brace. -/
structure IsHeader (w : String) (header : List Char) : Prop where
  word : w ∈ blockWords
  line : '\n' ∉ header
  shape : ∃ x, header ++ [' ', '\x7b'] = w.toList ++ ' ' :: (x ++ ['\x7b'])

namespace IsHeader

theorem box : IsHeader "box" "box".toList := ⟨by decide, by decide, [], rfl⟩

theorem of_word (hw : w ∈ blockWords) (hx : '\n' ∉ x) : IsHeader w (w.toList ++ ' ' :: x) := by
  refine ⟨hw, fun hmem => ?_, x ++ [' '], by simp⟩
  rcases mem_append.1 hmem with hmem | hmem
  · exact absurd (all_eq_true.1 (blockWords_chars w hw).2.1 _ hmem) (by decide)
  · exact hx ((mem_cons.1 hmem).resolve_left (by decide))

theorem branch {cond : Expr} (h : '\n' ∉ cond.text) : IsHeader "if" ("if (".toList ++ cond.text ++ [')']) := by
  have hx : '\n' ∉ '(' :: (cond.text ++ [')']) := by simp [h]
  exact of_word (by decide) hx

theorem whileLoop {cond : Expr} (h : '\n' ∉ cond.text) :
    IsHeader "while" ("while (".toList ++ cond.text ++ [')']) := by
  have hx : '\n' ∉ '(' :: (cond.text ++ [')']) := by simp [h]
  exact of_word (by decide) hx

theorem forLoop {v : Var} {iter : Expr} (hv : '\n' ∉ v.parameter) (hiter : '\n' ∉ iter.text) :
    IsHeader "for" ("for ".toList ++ v.parameter ++ " in ".toList ++ iter.text) := by
  have hx : '\n' ∉ v.parameter ++ " in ".toList ++ iter.text := by simp [hv, hiter]
  exact of_word (by decide) hx

end IsHeader

theorem Leads.opened {header : List Char} (h : IsHeader w header) (depth : Nat) :
    Leads s (QasmStudio.indented depth (header ++ [' ', '\x7b'])) (s.enter w) := by
  obtain ⟨x, hx⟩ := h.shape
  rw [← line_header h.word, ← hx]
  refine .indented depth fun hmem => ?_
  exact (mem_append.1 hmem).elim h.line (by decide)

theorem Leads.closed (depth : Nat) :
    Leads s (QasmStudio.indented depth ['\x7d']) { s with blocks := s.blocks.tail } :=
  .indented depth (by decide)

/-- A block leads back to where it was opened. -/
theorem Leads.block {header body : List Char} (hheader : IsHeader w header) (depth : Nat)
    (hbody : Leads (s.enter w) body s') :
    Leads s (Stmt.block depth header body) { s' with blocks := s'.blocks.tail } :=
  (Leads.opened hheader depth).append (hbody.append (.closed depth))

/-! ### What is left out -/

theorem isSkipping_enter (h : s.isSkipping = true ∨ w ≠ "box") : (s.enter w).isSkipping = true := by
  have hany : (s.enter w).isSkipping = (decide (w ≠ "box") || s.isSkipping) := rfl
  rw [hany]
  rcases h with h | h
  · rw [h, Bool.or_true]
  · rw [decide_eq_true h, Bool.true_or]

/-- Control flow is noted where the block itself is not left out. -/
theorem leave_enter (h : s.isSkipping = true ∨ w ∉ ["if", "for", "while"]) :
    { s.enter w with blocks := (s.enter w).blocks.tail } = s := by
  have hflag : (s.classical || (["if", "for", "while"].contains w && !s.isSkipping)) = s.classical := by
    rcases h with h | h
    · rw [h, Bool.not_true, Bool.and_false, Bool.or_false]
    · have hcontains : ["if", "for", "while"].contains w = false := by simpa using h
      rw [hcontains, Bool.false_and, Bool.or_false]
  unfold enter
  rw [hflag]
  rfl

theorem Leads.skipped (hs : s.isSkipping = true) (depth : Nat) (h : '\n' ∉ cs) :
    Leads s (QasmStudio.indented depth (cs ++ [';'])) s := by
  have hline : '\n' ∉ cs ++ [';'] := fun hmem => (mem_append.1 hmem).elim h (by decide)
  have hleads : Leads s (QasmStudio.indented depth (cs ++ [';'])) (s.line (cs ++ [';'])) := .indented depth hline
  rwa [line_of_skipping hs] at hleads

theorem Leads.pragma (depth : Nat) {t : String} (h : '\n' ∉ t.toList) : Leads s ((Stmt.pragma t).text depth) s := by
  have hline : '\n' ∉ "#pragma ".toList ++ t.toList := by simp [h]
  have hleads : Leads s (QasmStudio.indented depth ("#pragma ".toList ++ t.toList))
      (s.line ("#pragma ".toList ++ t.toList)) := .indented depth hline
  rwa [line_pragma] at hleads

theorem Leads.silentBlock {header body : List Char} (hheader : IsHeader w header)
    (hs : s.isSkipping = true ∨ w ∉ ["if", "for", "while"]) (depth : Nat)
    (hbody : Leads (s.enter w) body (s.enter w)) : Leads s (Stmt.block depth header body) s := by
  have hblock := Leads.block hheader depth hbody
  rwa [leave_enter hs] at hblock

/-- A branch is a block; `else` stands between its two bodies. -/
theorem text_branch (depth : Nat) (cond : Expr) (thn els : List Stmt) :
    (Stmt.branch cond thn els).text depth = Stmt.block depth ("if (".toList ++ cond.text ++ [')'])
      (Stmt.texts (depth + 1) thn ++ if els.isEmpty then [] else
        QasmStudio.indented depth "\x7d else \x7b".toList ++ Stmt.texts (depth + 1) els) := by
  unfold Stmt.block
  rw [append_assoc _ [')'] [' ', '\x7b']]
  rfl

theorem Leads.branches {thn els : List Char} (depth : Nat) (b : Bool) (hthn : Leads s thn s)
    (hels : Leads s els s) :
    Leads s (thn ++ if b then [] else QasmStudio.indented depth "\x7d else \x7b".toList ++ els) s := by
  cases b with
  | true => exact hthn.append .nil
  | false =>
    have helse : Leads s (QasmStudio.indented depth "\x7d else \x7b".toList) s := .indented depth (by decide)
    exact hthn.append (helse.append hels)

end Sketch

end QasmStudio
