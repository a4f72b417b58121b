import QasmStudio.Proofs.Circuit.Lines

/-!
# Programs statement by statement

`Sketch.take` is what one statement does to a sketch, and a program does what its statements do one after
another (`Sketch.reads_program`). Those in boxes count, those in control flow do not: it is one statement, which
notes control flow. Definitions are left out with all that is in them; of subroutines the reader keeps the names.
-/

namespace QasmStudio

open Text List

namespace Statement

/-- The operation that a statement adds, if its operands are fixed qubits. -/
def op? : Statement → Option Op
  | .measure operands => (Operands.read operands).qubits.map (⟨"MEASURE", ·, []⟩)
  | .reset operands => (Operands.read operands).qubits.map (⟨"RESET", ·, []⟩)
  | .barrier none => some ⟨"BARRIER", [], []⟩
  | .barrier (some operands) => (Operands.read operands).qubits.map (⟨"BARRIER", ·, []⟩)
  | .gate name params operands => (Operands.read operands).qubits.map
      (⟨String.ofList (name.map upperAscii), ·, Sketch.angles params⟩)
  | .register _ | .other => none

/-- The size of the register, if the statement declares it. -/
def size? : Statement → Option Nat
  | .register n => some n
  | _ => none

/-- Is it a gate call with an operand that is not fixed? -/
def isUnfixed : Statement → Bool
  | .gate _ _ operands => (Operands.read operands).qubits.isNone
  | _ => false

def isPhysical : Statement → Bool
  | .measure operands | .reset operands | .barrier (some operands) | .gate _ _ operands =>
    (Operands.read operands).physical
  | _ => false

end Statement

namespace Stmt

mutual
/-- The statements that the reader takes one by one. -/
def lines : Stmt → List Stmt
  | .box body => allLines body
  | .pragma _ => []
  | st => [st]

def allLines : List Stmt → List Stmt
  | [] => []
  | st :: sts => st.lines ++ allLines sts
end

end Stmt

namespace Sketch

variable {s s' : Sketch} {cs : List Char} {st : Stmt}

/-! ### Single lines -/

/-- Is the statement a line that ends with a semicolon? -/
def isLine : Stmt → Bool
  | .branch .. | .forIn .. | .while .. | .box _ | .pragma _ => false
  | _ => true

/-- The line of a statement, up to the semicolon. -/
def written : Stmt → List Char
  | .declare v => v.declaration
  | .assign target value => target.text ++ " = ".toList ++ value.text
  | .eval e => e.text
  | .gate name args qubits => name.toList ++ Statement.argsText args ++ ' ' :: Expr.listText qubits
  | .reset q => "reset ".toList ++ q.text
  | .barrier [] => "barrier".toList
  | .barrier qubits => "barrier ".toList ++ Expr.listText qubits
  | .delay duration targets => "delay[".toList ++ duration.text ++ ']' :: ' ' :: Expr.listText targets
  | .break => "break".toList
  | .continue => "continue".toList
  | .return none => "return".toList
  | .return (some e) => "return ".toList ++ e.text
  | .branch .. | .forIn .. | .while .. | .box _ | .pragma _ => []

theorem text_of_isLine {st : Stmt} (hline : isLine st = true) (depth : Nat) :
    st.text depth = QasmStudio.indented depth (written st ++ [';']) := by
  cases st with
  | gate name args qubits =>
    show _ = QasmStudio.indented depth (name.toList ++ Statement.argsText args ++ ' ' :: Expr.listText qubits ++ [';'])
    rw [append_assoc]
    rfl
  | barrier qubits =>
    cases qubits with
    | nil => rfl
    | cons q qs => rfl
  | delay duration targets =>
    show _ = QasmStudio.indented depth
      ("delay[".toList ++ duration.text ++ ']' :: ' ' :: Expr.listText targets ++ [';'])
    rw [append_assoc]
    rfl
  | «return» value =>
    cases value with
    | none => rfl
    | some e => rfl
  | branch | forIn | «while» | pragma | box => cases hline
  | _ => rfl

theorem newline_not_mem_written {st : Stmt} (h : st.Unbroken) (hline : isLine st = true) : '\n' ∉ written st := by
  cases h with
  | declare hv => exact hv
  | @assign target value ht hv =>
    show '\n' ∉ target.text ++ " = ".toList ++ value.text
    simp [ht, hv]
  | eval he => exact he
  | @gate name args qubits hname hargs =>
    have h₁ := newline_not_mem_listText fun e he => hargs e (mem_append_left _ he)
    have h₂ := newline_not_mem_listText fun e he => hargs e (mem_append_right _ he)
    show '\n' ∉ name.toList ++ Statement.argsText args ++ ' ' :: Expr.listText qubits
    unfold Statement.argsText
    split
    · simp [hname, h₂]
    · simp [hname, h₁, h₂]
  | @reset q hq =>
    show '\n' ∉ "reset ".toList ++ q.text
    simp [hq]
  | @barrier qubits hqubits =>
    have hlist := newline_not_mem_listText hqubits
    cases qubits with
    | nil => decide
    | cons q qs =>
      show '\n' ∉ "barrier ".toList ++ Expr.listText (q :: qs)
      simp [hlist]
  | @delay duration targets hd ht =>
    show '\n' ∉ "delay[".toList ++ duration.text ++ ']' :: ' ' :: Expr.listText targets
    simp [hd, newline_not_mem_listText ht]
  | «break» => decide
  | «continue» => decide
  | @«return» value hv =>
    cases value with
    | none => decide
    | some e =>
      show '\n' ∉ "return ".toList ++ e.text
      simp [hv e rfl]
  | branch | forIn | «while» | pragma | box => cases hline

theorem statement_of_not_calls (hcalls : s.calls cs = false) : s.statement cs = s.note (Statement.read cs) := by
  unfold statement
  split
  · rename_i heq
    rw [heq]
  · rw [hcalls]
    rfl

theorem addOp_eq (name : String) (params : List Float) (operands : Operands) : s.addOp name params operands =
      { s with
        ops := (operands.qubits.map (⟨name, ·, params⟩)).toList ++ s.ops
        physical := s.physical || operands.physical } := by
  unfold addOp
  cases operands.qubits with
  | none => rfl
  | some is => rfl

theorem note_eq (r : Statement) : s.note r = { s with
      numQubits := r.size?.getD s.numQubits
      ops := r.op?.toList ++ s.ops
      classical := s.classical || r.isUnfixed
      physical := s.physical || r.isPhysical } := by
  have hop : ∀ name operands, s.addOp name [] operands = { s with
        ops := (operands.qubits.map (⟨name, ·, []⟩)).toList ++ s.ops
        classical := s.classical || false
        physical := s.physical || operands.physical } := fun name operands => by
    rw [addOp_eq, Bool.or_false]
  cases r with
  | register n => simp [note, Statement.size?, Statement.op?, Statement.isUnfixed, Statement.isPhysical]
  | other => simp [note, Statement.size?, Statement.op?, Statement.isUnfixed, Statement.isPhysical]
  | measure operands => exact hop ..
  | reset operands => exact hop ..
  | barrier operands =>
    cases operands with
    | none => exact hop "BARRIER" ⟨some [], false⟩
    | some operands => exact hop ..
  | gate name params operands =>
    show s.addGate name params operands = _
    unfold addGate
    dsimp only
    rw [addOp_eq]
    cases hread : (Operands.read operands).qubits with
    | none => simp [Statement.size?, Statement.op?, Statement.isUnfixed, Statement.isPhysical, hread]
    | some is => simp [Statement.size?, Statement.op?, Statement.isUnfixed, Statement.isPhysical, hread]

theorem statement_cases (s : Sketch) (cs : List Char) :
    s.statement cs = s.note (Statement.read cs) ∨ s.statement cs = { s with classical := true } := by
  cases hcalls : s.calls cs with
  | false => exact .inl (statement_of_not_calls hcalls)
  | true =>
    unfold statement
    split
    · rename_i heq
      rw [heq]
      exact .inl rfl
    · exact .inr (if_pos hcalls)

theorem classical_statement (h : s.classical = true) (cs : List Char) : (s.statement cs).classical = true := by
  rcases statement_cases s cs with heq | heq
  · rw [heq, note_eq]
    show (s.classical || _) = true
    rw [h, Bool.true_or]
  · rw [heq]

theorem statement_blocks (b : List Bool) :
    ({ s with blocks := b } : Sketch).statement cs = { s.statement cs with blocks := b } := by
  have hcalls : ({ s with blocks := b } : Sketch).calls cs = s.calls cs := rfl
  cases h : s.calls cs with
  | false =>
    rw [statement_of_not_calls h, statement_of_not_calls (hcalls.trans h), note_eq, note_eq]
  | true =>
    unfold statement
    split
    · rfl
    · rw [hcalls, h]
      rfl

theorem subroutines_statement : (s.statement cs).subroutines = s.subroutines := by
  rcases statement_cases s cs with heq | heq
  · rw [heq, note_eq]
  · rw [heq]

/-! ### Statements one after another -/

/-- What a statement does. Control flow is noted, and its content is left out. -/
def take (s : Sketch) (st : Stmt) : Sketch :=
  if isLine st then
    if isComment (written st ++ [';']) then s else s.statement (trim (written st ++ [';']))
  else { s with classical := true }

theorem take_blocks (b : List Bool) (st : Stmt) :
    ({ s with blocks := b } : Sketch).take st = { s.take st with blocks := b } := by
  unfold take
  split
  · split
    · rfl
    · exact statement_blocks b
  · rfl

theorem subroutines_take (st : Stmt) : (s.take st).subroutines = s.subroutines := by
  unfold take
  split
  · split
    · rfl
    · exact subroutines_statement
  · rfl

theorem classical_take (h : s.classical = true) (st : Stmt) : (s.take st).classical = true := by
  unfold take
  split
  · split
    · exact h
    · exact classical_statement h _
  · rfl

theorem foldl_take_blocks (b : List Bool) (sts : List Stmt) :
    sts.foldl take { s with blocks := b } = { sts.foldl take s with blocks := b } := by
  induction sts generalizing s with
  | nil => rfl
  | cons st sts ih => rw [foldl_cons, foldl_cons, take_blocks, ih]

theorem foldl_take_self (sts : List Stmt) : sts.foldl take s = { sts.foldl take s with blocks := s.blocks } :=
  foldl_take_blocks (s := s) s.blocks sts

/-- The statements one after another, where they are not left out. -/
def takes (s : Sketch) (sts : List Stmt) : Sketch := if s.isSkipping then s else sts.foldl take s

theorem takes_of_skipping (hs : s.isSkipping = true) (sts : List Stmt) : s.takes sts = s := if_pos hs

theorem takes_eq (hs : s.isSkipping = false) (sts : List Stmt) : s.takes sts = sts.foldl take s := by
  rw [takes, hs, if_neg (by decide)]

theorem takes_append (sts sts' : List Stmt) : s.takes (sts ++ sts') = (s.takes sts).takes sts' := by
  cases hs : s.isSkipping with
  | true => rw [takes_of_skipping hs, takes_of_skipping hs, takes_of_skipping hs]
  | false =>
    have hs' : (sts.foldl take s).isSkipping = false := by
      rw [foldl_take_self]
      exact hs
    rw [takes_eq hs, takes_eq hs, takes_eq hs', foldl_append]

theorem Leads.line (h : st.Unbroken) (hline : isLine st = true) (depth : Nat) :
    Leads s (st.text depth) (s.takes [st]) := by
  have hbreak := newline_not_mem_written h hline
  rw [text_of_isLine hline]
  cases hs : s.isSkipping with
  | true =>
    rw [takes_of_skipping hs]
    exact .skipped hs depth hbreak
  | false =>
    have htake : s.takes [st] = s.line (written st ++ [';']) := by
      rw [takes_eq hs, foldl_cons, foldl_nil, take, if_pos hline, line_semicolon, hs]
      rfl
    rw [htake]
    exact .indented depth (by simp [hbreak])

theorem Leads.texts {depth : Nat} {body : List Stmt}
    (h : ∀ st ∈ body, ∀ s : Sketch, Leads s (st.text depth) (s.takes st.lines)) :
    Leads s (Stmt.texts depth body) (s.takes (Stmt.allLines body)) := by
  induction body generalizing s with
  | nil =>
    have hnil : s.takes (Stmt.allLines []) = s := ite_self _
    rw [hnil]
    exact .nil
  | cons st sts ih =>
    obtain ⟨hst, hsts⟩ := forall_mem_cons.1 h
    rw [Stmt.allLines, takes_append]
    exact (hst s).append (ih hsts)

/-- Control flow is noted, and its content is left out. -/
theorem Leads.flow {w : String} {header body : List Char} (hheader : IsHeader w header)
    (hw : w ∈ ["if", "for", "while"]) (hst : s.take st = { s with classical := true }) (depth : Nat)
    (hbody : ∀ s : Sketch, s.isSkipping = true → Leads s body s) :
    Leads s (Stmt.block depth header body) (s.takes [st]) := by
  have hbox : w ≠ "box" := by
    rintro rfl
    exact absurd hw (by decide)
  have hblock := Leads.block hheader depth (hbody _ (isSkipping_enter (s := s) (.inr hbox)))
  have hleave : { s.enter w with blocks := (s.enter w).blocks.tail } = s.takes [st] := by
    unfold enter takes
    rw [contains_iff_mem.2 hw, foldl_cons, foldl_nil, hst]
    cases s.isSkipping <;> simp
  rwa [hleave] at hblock

theorem Leads.lines (h : st.Unbroken) : ∀ (depth : Nat) (s : Sketch), Leads s (st.text depth) (s.takes st.lines) := by
  -- the bodies of control flow are left out
  have hskip : ∀ {body : List Stmt} {depth : Nat},
      (∀ st ∈ body, ∀ (depth : Nat) (s : Sketch), Leads s (st.text depth) (s.takes st.lines)) →
      ∀ s : Sketch, s.isSkipping = true → Leads s (Stmt.texts depth body) s := fun {body depth} h s hs => by
    have hbody := Leads.texts (s := s) fun st hst => h st hst depth
    rwa [takes_of_skipping hs] at hbody
  induction h with
  | branch hcond _ _ ihthn ihels =>
    intro depth s
    rw [text_branch]
    exact .flow (.branch hcond) (by decide) rfl depth fun s hs =>
      .branches depth _ (hskip ihthn s hs) (hskip ihels s hs)
  | forIn hv hiter _ ih => exact fun depth _ => .flow (.forLoop hv hiter) (by decide) rfl depth (hskip ih)
  | «while» hcond _ ih => exact fun depth _ => .flow (.whileLoop hcond) (by decide) rfl depth (hskip ih)
  | @pragma text ht =>
    intro depth s
    have hnil : s.takes (Stmt.pragma text).lines = s := ite_self _
    rw [hnil]
    exact .pragma depth ht
  | @box body _ ih =>
    intro depth s
    have hblock := Leads.block .box depth (Leads.texts (s := s.enter "box") fun st hst => ih st hst (depth + 1))
    have henter : s.enter "box" = { s with blocks := false :: s.blocks } := by simp [enter]
    have hback : { (s.enter "box").takes (Stmt.allLines body) with
        blocks := ((s.enter "box").takes (Stmt.allLines body)).blocks.tail } = s.takes (Stmt.allLines body) := by
      cases hs : s.isSkipping with
      | true =>
        rw [takes_of_skipping (isSkipping_enter (.inl hs)), takes_of_skipping hs]
        exact leave_enter (.inl hs)
      | false =>
        have hin : (s.enter "box").isSkipping = false := hs
        rw [takes_eq hin, takes_eq hs, henter, foldl_take_blocks]
        exact (foldl_take_self _).symm
    rwa [hback] at hblock
  | _ => exact fun depth _ => .line (by constructor <;> assumption) rfl depth

/-- Inside of a block that is left out, statements that keep to their lines change nothing. -/
theorem Leads.skips {body : List Stmt} (h : ∀ st ∈ body, st.Unbroken) (depth : Nat) (hs : s.isSkipping = true) :
    Leads s (Stmt.texts depth body) s := by
  have hbody := Leads.texts (s := s) fun st hst => Leads.lines (h st hst) depth
  rwa [takes_of_skipping hs] at hbody

/-! ### Definitions -/

/-- A definition is left out, with all that is in it. -/
theorem Leads.definition {w : String} (hw : w ∈ ["gate", "defcal"]) {header : List Char}
    (hheader : '\n' ∉ header) {body : List Stmt} (hbody : ∀ st ∈ body, st.Unbroken) :
    Leads s (Stmt.block 0 (w.toList ++ ' ' :: header) (Stmt.texts 1 body)) s := by
  have hword : w ∈ blockWords ∧ w ≠ "box" ∧ w ∉ ["if", "for", "while"] := by
    revert w
    decide
  have hin : (s.enter w).isSkipping = true := isSkipping_enter (.inr hword.2.1)
  refine .silentBlock (.of_word hword.1 hheader) (.inr hword.2.2) 0 ?_
  exact .skips hbody 1 hin

theorem Leads.gateDef {d : GateDef} (h : d.Unbroken) : Leads s d.text s := by
  have hnames : ∀ vs : List Var, (∀ v ∈ vs, '\n' ∉ v.name.toList) → '\n' ∉ commaSep (vs.map (·.name.toList)) := by
    intro vs hvs
    refine not_mem_commaSep (fun cs hcs => ?_) (by decide)
    obtain ⟨v, hv, rfl⟩ := mem_map.1 hcs
    exact hvs v hv
  have hangles := hnames d.angles fun v hv => h.params v (mem_append_left _ hv)
  have hqubits := hnames d.qubits fun v hv => h.params v (mem_append_right _ hv)
  have hheader : '\n' ∉ d.name.toList ++
      (if d.angles.isEmpty then [] else '(' :: (commaSep (d.angles.map (·.name.toList)) ++ [')'])) ++
      ' ' :: commaSep (d.qubits.map (·.name.toList)) := by
    split
    · simp [h.name, hqubits]
    · simp [h.name, hangles, hqubits]
  exact .definition (by decide : "gate" ∈ _) hheader h.body

theorem Leads.calibrationDef {d : CalibrationDef} (h : d.Unbroken) : Leads s d.text s := by
  have hangles : '\n' ∉ commaSep (d.angles.map CalibrationDef.angleText) := by
    refine not_mem_commaSep (fun cs hcs => ?_) (by decide)
    obtain ⟨e, he, rfl⟩ := mem_map.1 hcs
    exact h.angles e he
  have hqubits := newline_not_mem_listText h.qubits
  have hheader : '\n' ∉ d.gate.toList ++
      (if d.angles.isEmpty then [] else '(' :: (commaSep (d.angles.map CalibrationDef.angleText) ++ [')'])) ++
      ' ' :: Expr.listText d.qubits := by
    split
    · simp [h.gate, hqubits]
    · simp [h.gate, hangles, hqubits]
  exact .definition (by decide : "defcal" ∈ _) hheader h.body

/-- The header of a subroutine starts a block that is left out; its name is kept. -/
theorem line_def (s : Sketch) (x : List Char) : s.line ("def".toList ++ ' ' :: (x ++ ['\x7b'])) = { s with
      blocks := true :: s.blocks
      subroutines := s.subroutines ++ (subroutineName? ("def".toList ++ ' ' :: (x ++ ['\x7b']))).toList } := by
  have hword : "def".toList ++ ' ' :: (x ++ ['\x7b']) = 'd' :: (("ef".toList ++ ' ' :: x) ++ ['\x7b']) := by simp
  have hopen : s.line ("def".toList ++ ' ' :: (x ++ ['\x7b'])) =
      s.openBlock ("def".toList ++ ' ' :: (x ++ ['\x7b'])) := by
    rw [hword, line_of_word (by decide) (by decide), if_pos rfl]
  rw [hopen]
  unfold openBlock
  rw [words_append (by decide) (forall_mem_of_all (by decide)), String.ofList_toList]
  rfl

/-- The content of a subroutine is left out; only its name is kept. -/
theorem Leads.subroutineDef {d : SubroutineDef} (h : d.Unbroken) : ∃ x, Leads s d.text { s with
      subroutines := s.subroutines ++
        (subroutineName? ("def".toList ++ ' ' :: (d.name.toList ++ '(' :: x))).toList } := by
  obtain ⟨x, hx, htext⟩ : ∃ x, '\n' ∉ x ∧
      d.text = Stmt.block 0 ("def ".toList ++ d.name.toList ++ '(' :: x) (Stmt.texts 1 d.body) := by
    refine ⟨_, ?_, rfl⟩
    have hparams : '\n' ∉ commaSep (d.params.map Var.parameter) := by
      refine not_mem_commaSep (fun cs hcs => ?_) (by decide)
      obtain ⟨v, hv, rfl⟩ := mem_map.1 hcs
      exact h.params v hv
    cases d.returns with
    | none => simp [hparams]
    | some t =>
      have ht : '\n' ∉ t.text := newline_not_mem_tyText (some t)
      simp [hparams, ht]
  have hline := line_def s (d.name.toList ++ '(' :: (x ++ [' ']))
  have hlines : '\n' ∉ "def".toList ++ ' ' :: (d.name.toList ++ '(' :: (x ++ [' ']) ++ ['\x7b']) := by
    simp [h.name, hx]
  have hheader := @Leads.indented s _ 0 hlines
  rw [hline] at hheader
  have hblock := hheader.append ((Leads.skips h.body 1 rfl).append (.closed 0))
  refine ⟨x ++ [' '] ++ ['\x7b'], ?_⟩
  rw [htext]
  simpa [Stmt.block] using hblock

theorem subroutineName?_word {w : List Char} (hne : w ≠ []) (hw : w.all isWord = true) (x : List Char) :
    subroutineName? ("def".toList ++ ' ' :: (w ++ '(' :: x)) = some w := by
  obtain ⟨c, ds, rfl⟩ := exists_cons_of_ne_nil hne
  have hword := all_eq_true.1 hw
  have hspaces : Statement.afterSpaces? (' ' :: (c :: ds ++ '(' :: x)) = some (c :: ds ++ '(' :: x) := by
    have hstops : Stops isSpace (c :: ds ++ '(' :: x) :=
      stops_cons.2 (Text.isSpace_of_isBlank (isBlank_of_isWord (hword c mem_cons_self)))
    show some (List.dropWhile isSpace (c :: ds ++ '(' :: x)) = _
    rw [hstops.dropWhile]
  unfold subroutineName?
  rw [after?_append, Option.bind_eq_bind, Option.bind_some, hspaces, Option.bind_some,
    span_append hword (stops_cons.2 (by decide))]
  rfl

/-- The headers of the definitions make the names known. -/
theorem Leads.subroutineDefs {defs : List SubroutineDef} (h : ∀ d ∈ defs, d.Unbroken)
    (hnames : ∀ d ∈ defs, d.name.toList ≠ [] ∧ d.name.toList.all isWord = true) :
    Leads s (defs.flatMap SubroutineDef.text)
      { s with subroutines := s.subroutines ++ defs.map (·.name.toList) } := by
  induction defs generalizing s with
  | nil =>
    rw [map_nil, append_nil]
    exact .nil
  | cons d defs ih =>
    obtain ⟨hd, hdefs⟩ := forall_mem_cons.1 h
    obtain ⟨hname, hrest⟩ := forall_mem_cons.1 hnames
    obtain ⟨x, hfirst⟩ := @Leads.subroutineDef s d hd
    rw [subroutineName?_word hname.1 hname.2] at hfirst
    have hothers := hfirst.append (ih hdefs hrest)
    rw [flatMap_cons, map_cons]
    simpa using hothers

theorem Leads.preamble (b : Bool) : Leads {} (QasmStudio.indented 0 "OPENQASM 3.0;".toList ++
    if b then QasmStudio.indented 0 "defcalgrammar \"openpulse\";".toList else []) {} := by
  have hversion : Leads {} (QasmStudio.indented 0 "OPENQASM 3.0;".toList) {} := .indented 0 (by decide)
  have hgrammar : Leads {} (QasmStudio.indented 0 "defcalgrammar \"openpulse\";".toList) {} :=
    .indented 0 (by decide)
  cases b with
  | true => exact hversion.append hgrammar
  | false => exact hversion.append .nil

/-- The statements of the body come after the definitions, with the names of the subroutines known. -/
theorem reads_program {p : Program} (hp : p.Unbroken)
    (hnames : ∀ d ∈ p.subroutines, d.name.toList ≠ [] ∧ d.name.toList.all isWord = true) :
    reads {} p.text = (Stmt.allLines p.body).foldl take { subroutines := p.subroutines.map (·.name.toList) } := by
  have hgates : Leads {} (p.gates.flatMap GateDef.text) {} := .flatMap fun d hd => .gateDef (hp.gates d hd)
  have hcalibrations : Leads {} (p.calibrations.flatMap CalibrationDef.text) {} :=
    .flatMap fun d hd => .calibrationDef (hp.calibrations d hd)
  have hsubroutines : Leads {} (p.subroutines.flatMap SubroutineDef.text)
      { subroutines := p.subroutines.map (·.name.toList) } := .subroutineDefs hp.subroutines hnames
  have hbody : Leads { subroutines := p.subroutines.map (·.name.toList) } (Stmt.texts 0 p.body) _ :=
    .texts fun st hst => .lines (hp.body st hst) 0
  have hall := ((((Leads.preamble (p.pulse || !p.calibrations.isEmpty)).append hgates).append
    hcalibrations).append hsubroutines).append hbody []
  rwa [append_nil] at hall

end Sketch

end QasmStudio
