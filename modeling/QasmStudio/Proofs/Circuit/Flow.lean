import QasmStudio.Proofs.Circuit.Complete
import QasmStudio.StateVector.Simulate

/-!
# Control flow is noted

A program with control flow, or with a call of one of its subroutines, is not simulated: its circuit is
noted as classical. `Sketch.take` is what one statement does to the sketch, and a program does what its
statements do one after another (`Sketch.reads_program`). Those in boxes count, those in control flow do not:
it is one statement, which notes control flow. The reader knows the subroutines from the headers of their
definitions and finds a call by its text. What has been noted stays noted, so that one statement is enough.
-/

namespace QasmStudio

open Text List

/-! ### Calls in a text -/

namespace Text

variable {names : List String} {cs ds part : List Char} {c : Char}

/-- One of the names stands in the text with a parenthesis after it. -/
def HasCall (names : List String) (cs : List Char) : Prop :=
  ∃ name ∈ names, name.toList ++ ['('] <:+: cs

theorem HasCall.mono (h : HasCall names cs) (hcs : cs <:+: ds) : HasCall names ds := by
  obtain ⟨name, hname, hcall⟩ := h
  exact ⟨name, hname, hcall.trans hcs⟩

theorem HasCall.append_left (h : HasCall names cs) (ds : List Char) :
    HasCall names (ds ++ cs) := h.mono (suffix_append ..).isInfix

theorem HasCall.append_right (h : HasCall names cs) (ds : List Char) :
    HasCall names (cs ++ ds) := h.mono (prefix_append ..).isInfix

theorem HasCall.cons (h : HasCall names cs) (c : Char) : HasCall names (c :: cs) := h.append_left [c]

theorem HasCall.paren_mem (h : HasCall names cs) : '(' ∈ cs := by
  obtain ⟨name, -, hcall⟩ := h
  exact hcall.subset (by simp)

theorem occurs_of_isInfix (h : part <:+: cs) : occurs part cs = true := by
  induction cs with
  | nil => rw [infix_nil.1 h]; rfl
  | cons c cs ih =>
    rw [occurs, Bool.or_eq_true]
    rcases infix_cons_iff.1 h with hp | hin
    · exact .inl ( isPrefixOf_iff_prefix.2 hp)
    · exact .inr (ih hin)

theorem isInfix_of_occurs (h : occurs part cs = true) : part <:+: cs := by
  induction cs with
  | nil => exact infix_nil.2 (List.isEmpty_iff.1 h)
  | cons c cs ih =>
    rw [occurs, Bool.or_eq_true] at h
    rcases h with hp | hin
    · exact ( isPrefixOf_iff_prefix.1 hp).isInfix
    · exact (ih hin).trans (suffix_cons c cs).isInfix

theorem commaSep_isSuffix (first : List Char) (others : List (List Char)) :
    commaSep others <:+ commaSep (first :: others) := by
  cases others with
  | nil => exact nil_suffix
  | cons second others =>
    rw [commaSep, commaSep, intercalate_cons_cons]
    exact suffix_append ..

theorem suffix_trimLeft (hc : isBlank c = false) (xs ys : List Char) : c :: ys <:+ trimLeft (xs ++ c :: ys) := by
  rw [trimLeft, dropWhile_append, (stops_cons.2 hc).dropWhile]
  split
  · exact suffix_rfl
  · exact suffix_append ..

/-- What an assignment starts with is seen from its target. -/
theorem not_prefix_assign {sign target : List Char} (hne : sign ≠ [])
    (hsign : (sign.all fun c => !isBlank c && decide (c ≠ '=')) = true) (h : ¬ sign <+: trimLeft target)
    (value : List Char) : ¬ sign <+: trimLeft (target ++ ' ' :: '=' :: value) := by
  have hchars := all_eq_true.1 hsign
  intro hp
  rw [trimLeft, dropWhile_append] at hp
  split at hp
  · -- in a line without target the equals sign comes first
    obtain ⟨c, sign, rfl⟩ := exists_cons_of_ne_nil hne
    rw [dropWhile_cons_of_pos (by decide), dropWhile_cons_of_neg (by decide)] at hp
    have hc := hchars c mem_cons_self
    rw [(cons_prefix_cons.1 hp).1] at hc
    exact absurd hc (by decide)
  · exact h (prefix_of_prefix_append hchars (stops_cons.2 (by decide)) hp)

theorem isComment_assign {target value : List Char} (h : isComment target = false) :
    isComment (target ++ " = ".toList ++ value) = false := by
  rw [isComment, Bool.or_eq_false_iff, Bool.eq_false_iff, Bool.eq_false_iff, Ne, Ne,
    isPrefixOf_iff_prefix, isPrefixOf_iff_prefix] at h ⊢
  rw [append_assoc]
  exact ⟨not_prefix_assign (by decide) (by decide) h.1 (' ' :: value),
    not_prefix_assign (by decide) (by decide) h.2 (' ' :: value)⟩

theorem HasCall.trim_word (h : HasCall names (c :: cs)) (hc : isWord c = true) :
    HasCall names (trim (c :: cs ++ [';'])) := by
  rw [trim_concat (by decide), cons_append, trimLeft_cons (isBlank_of_isWord hc)]
  exact h.append_right [';']

end Text

/-! ### Control flow and calls of a program -/

namespace Expr

mutual
/-- Is one of the subroutines called in the expression? -/
def calls (names : List String) : Expr → Bool
  | .call name args _ => names.contains name || anyCalls names args
  | .index base idx => base.calls names || idx.calls names
  | .binary _ l r => l.calls names || r.calls names
  | .unary _ x => x.calls names
  | .measure q => q.calls names
  | .range start stop none => start.calls names || stop.calls names
  | .range start stop (some step) => start.calls names || stop.calls names || step.calls names
  | .array elems _ => anyCalls names elems
  | _ => false

def anyCalls (names : List String) : List Expr → Bool
  | [] => false
  | e :: es => e.calls names || anyCalls names es
end

variable {names : List String}

theorem hasCall_enclose (x : Expr) {cs : List Char} (h : HasCall names cs) : HasCall names (x.enclose cs) := by
  unfold enclose
  split
  · exact (h.append_right _).cons _
  · exact h

mutual
theorem hasCall_text : ∀ e : Expr, e.calls names = true → HasCall names e.text
  | .call name args _, h => by
    show HasCall names (name.toList ++ '(' :: (commaSep (texts args) ++ [')']))
    rcases (Bool.or_eq_true ..).mp h with h | h
    · exact ⟨name, contains_iff_mem.1 h, [], commaSep (texts args) ++ [')'], by simp⟩
    · exact (((hasCall_texts args h).append_right _).cons _).append_left _
  | .index base idx, h => by
    show HasCall names (base.text ++ '[' :: (idx.text ++ [']']))
    rcases (Bool.or_eq_true ..).mp h with h | h
    · exact (hasCall_text base h).append_right _
    · exact (((hasCall_text idx h).append_right _).cons _).append_left _
  | .binary op l r, h => by
    show HasCall names (enclose l l.text ++ ' ' :: (op.toList ++ ' ' :: enclose r r.text))
    rcases (Bool.or_eq_true ..).mp h with h | h
    · exact (hasCall_enclose l (hasCall_text l h)).append_right _
    · exact ((((hasCall_enclose r (hasCall_text r h)).cons _).append_left _).cons _).append_left _
  | .unary op x, h => (hasCall_enclose x (hasCall_text x h)).append_left op.toList
  | .measure q, h => (hasCall_text q h).append_left "measure ".toList
  | .range start stop none, h => by
    show HasCall names ('[' :: (start.text ++ ':' :: (stop.text ++ [']'])))
    rcases (Bool.or_eq_true ..).mp h with h | h
    · exact ((hasCall_text start h).append_right _).cons _
    · exact ((((hasCall_text stop h).append_right _).cons _).append_left _).cons _
  | .range start stop (some step), h => by
    show HasCall names ('[' :: (start.text ++ ':' :: (step.text ++ ':' :: (stop.text ++ [']']))))
    rcases (Bool.or_eq_true ..).mp h with h | h
    · rcases (Bool.or_eq_true ..).mp h with h | h
      · exact ((hasCall_text start h).append_right _).cons _
      · exact ((((((hasCall_text stop h).append_right _).cons _).append_left _).cons _).append_left _).cons _
    · exact ((((hasCall_text step h).append_right _).cons _).append_left _).cons _
  | .array elems _, h => ((hasCall_texts elems h).append_right ['\x7d']).cons '\x7b'
  | .int _, h | .float _, h | .angle _, h | .bool _, h | .bits _, h | .duration _, h | .var .., h | .ident .., h
  | .physical _, h | .frame _, h | .waveform _, h => by cases h

theorem hasCall_texts : ∀ es : List Expr, anyCalls names es = true → HasCall names (commaSep (texts es))
  | [], h => by cases h
  | e :: es, h => by
    show HasCall names (commaSep (e.text :: texts es))
    rcases (Bool.or_eq_true ..).mp h with h | h
    · obtain ⟨more, hmore⟩ := exists_commaSep_cons e.text (texts es)
      rw [hmore]
      exact (hasCall_text e h).append_right more
    · exact (hasCall_texts es h).mono (commaSep_isSuffix ..).isInfix
end

end Expr

namespace Stmt

mutual
/-- Is there control flow in the statement, or a call of one of the subroutines: as a statement, in an
initial value, or in a value that is assigned to something that does not look like a comment? -/
def hasFlow (names : List String) : Stmt → Bool
  | .branch .. | .forIn .. | .while .. => true
  | .eval (.call name _ _) => names.contains name
  | .declare v => v.init.any (Expr.calls names)
  | .assign target value => value.calls names && !isComment target.text
  | .box body => anyFlow names body
  | _ => false

def anyFlow (names : List String) : List Stmt → Bool
  | [] => false
  | st :: sts => st.hasFlow names || anyFlow names sts
end

mutual
theorem exists_line_of_hasFlow {names : List String} : ∀ st : Stmt, st.hasFlow names = true →
    ∃ l ∈ st.lines, l.hasFlow names = true
  | .box body, h => exists_line_of_anyFlow body h
  | .branch .., h | .forIn .., h | .while .., h | .eval _, h | .declare _, h | .assign .., h =>
    ⟨_, mem_singleton_self _, h⟩
  | .gate .., h | .reset _, h | .barrier _, h | .delay .., h | .break, h | .continue, h | .return _, h
  | .pragma _, h => by cases h

theorem exists_line_of_anyFlow {names : List String} : ∀ sts : List Stmt, anyFlow names sts = true →
    ∃ l ∈ allLines sts, l.hasFlow names = true
  | [], h => by cases h
  | st :: sts, h => by
    rcases (Bool.or_eq_true ..).mp h with h | h
    · obtain ⟨l, hl, hflow⟩ := exists_line_of_hasFlow st h
      exact ⟨l, mem_append_left _ hl, hflow⟩
    · obtain ⟨l, hl, hflow⟩ := exists_line_of_anyFlow sts h
      exact ⟨l, mem_append_right _ hl, hflow⟩
end

end Stmt

/-! ### Lines with a call -/

theorem Statement.register?_of_paren {cs : List Char} (h : '(' ∈ cs) : register? cs = none := by
  cases hread : register? cs with
  | none => rfl
  | some n =>
    obtain ⟨rest, hrest, hsize⟩ := Option.bind_eq_some_iff.1 hread
    obtain ⟨⟨m, tail⟩, hdigits, hname⟩ := Option.bind_eq_some_iff.1 hsize
    obtain ⟨last, hlast, hend⟩ := Option.bind_eq_some_iff.1 hname
    obtain ⟨ds, hds, rfl⟩ := eq_of_digitsUntil? hdigits
    rw [eq_of_after? hrest] at h
    have htail : '(' ∈ tail := by
      have hdigit : '(' ∉ ds := fun hmem => absurd (all_eq_true.1 hds _ hmem) (by decide)
      simpa [hdigit] using h
    have hparen := mem_of_afterSpaces? hlast htail (by decide)
    split at hend
    · rename_i heq
      rw [heq] at hparen
      exact absurd hparen (by decide)
    · cases hend

theorem Statement.read_ne_register {cs : List Char} (h : '(' ∈ cs) (n : Nat) : read cs ≠ .register n := by
  intro heq
  unfold read at heq
  rw [register?_of_paren h] at heq
  dsimp only at heq
  split at heq
  · cases heq
  split at heq
  · cases heq
  split at heq
  · cases heq
  split at heq
  · cases heq
  · cases heq

namespace Sketch

variable {s : Sketch} {cs : List Char} {names : List String} {st : Stmt}

theorem calls_iff (h : s.subroutines = names.map (·.toList)) : s.calls cs = true ↔ HasCall names cs := by
  rw [calls, h, List.any_map, any_eq_true]
  refine exists_congr fun name => and_congr_right fun _ => ?_
  exact ⟨isInfix_of_occurs, occurs_of_isInfix⟩

/-- A line with a call notes control flow and nothing else. -/
theorem statement_of_calls (hparen : '(' ∈ cs) (hcalls : s.calls cs = true) :
    s.statement cs = { s with classical := true } := by
  unfold statement
  split
  · rename_i n heq
    exact absurd heq (Statement.read_ne_register hparen n)
  · rw [if_pos hcalls]

/-! ### Calls are noted -/

/-- The line of a statement with a call is no comment, and the call is in it. -/
theorem hasCall_of_hasFlow (hnames : ∀ name ∈ names, name.toList ≠ [] ∧ name.toList.all isWord = true)
    (hline : isLine st = true) (hflow : st.hasFlow names = true) :
    isComment (written st ++ [';']) = false ∧ HasCall names (trim (written st ++ [';'])) := by
  cases st with
  | eval e =>
    cases e with
    | call name args returns =>
      -- the line starts with the name, which is a word
      have hname : name ∈ names := contains_iff_mem.1 hflow
      have hcall : HasCall names (name.toList ++ '(' :: (Expr.listText args ++ [')'])) :=
        Expr.hasCall_text (.call name args returns) ((Bool.or_eq_true ..).mpr (.inl hflow))
      obtain ⟨c, ds, hcons⟩ := exists_cons_of_ne_nil (hnames name hname).1
      have hc : isWord c = true := all_eq_true.1 (hnames name hname).2 c (hcons ▸ mem_cons_self)
      rw [hcons] at hcall
      show isComment (name.toList ++ '(' :: (Expr.listText args ++ [')']) ++ [';']) = false ∧
        HasCall names (trim (name.toList ++ '(' :: (Expr.listText args ++ [')']) ++ [';']))
      rw [hcons]
      exact ⟨isComment_word hc _, hcall.trim_word hc⟩
    | _ => cases hflow
  | declare v =>
    obtain ⟨name, ty, init⟩ := v
    cases init with
    | none => cases hflow
    | some e =>
      -- the line starts with the type
      have hcall : HasCall names (tyText ty ++ ' ' :: (name.toList ++ (" = ".toList ++ e.text))) :=
        ((((Expr.hasCall_text e hflow).append_left _).append_left _).cons _).append_left _
      obtain ⟨c, more, htype, hc⟩ := exists_tyText_cons ty
      rw [htype] at hcall
      show isComment (tyText ty ++ ' ' :: (name.toList ++ (" = ".toList ++ e.text)) ++ [';']) = false ∧
        HasCall names (trim (tyText ty ++ ' ' :: (name.toList ++ (" = ".toList ++ e.text)) ++ [';']))
      rw [htype]
      exact ⟨isComment_word hc _, hcall.trim_word hc⟩
  | assign target value =>
    obtain ⟨hcall, htarget⟩ := (Bool.and_eq_true ..).mp hflow
    show isComment (target.text ++ " = ".toList ++ value.text ++ [';']) = false ∧
      HasCall names (trim (target.text ++ " = ".toList ++ value.text ++ [';']))
    have hassign : target.text ++ " = ".toList ++ value.text ++ [';'] =
        (target.text ++ [' ']) ++ '=' :: ' ' :: (value.text ++ [';']) := by simp
    have hvalue : HasCall names ('=' :: ' ' :: (value.text ++ [';'])) :=
      (((Expr.hasCall_text value hcall).append_right _).cons _).cons _
    refine ⟨?_, ?_⟩
    · rw [append_assoc _ value.text]
      exact isComment_assign ((Bool.not_eq_true' _).mp htarget)
    · rw [trim_concat (by decide), hassign]
      exact hvalue.mono (suffix_trimLeft (by decide) _ _).isInfix
  | branch | forIn | «while» | box => cases hline
  | _ => cases hflow

theorem classical_take_of_hasFlow (hnames : ∀ name ∈ names, name.toList ≠ [] ∧ name.toList.all isWord = true)
    (hknown : s.subroutines = names.map (·.toList)) (hflow : st.hasFlow names = true) :
    (s.take st).classical = true := by
  unfold take
  split
  · rename_i hline
    obtain ⟨hcomment, hcall⟩ := hasCall_of_hasFlow hnames hline hflow
    rw [hcomment, if_neg (by decide), statement_of_calls hcall.paren_mem ((calls_iff hknown).2 hcall)]
  · rfl

theorem classical_foldl_take (hnames : ∀ name ∈ names, name.toList ≠ [] ∧ name.toList.all isWord = true)
    (hknown : s.subroutines = names.map (·.toList)) {sts : List Stmt}
    (h : s.classical = true ∨ ∃ st ∈ sts, st.hasFlow names = true) : (sts.foldl take s).classical = true := by
  induction sts generalizing s with
  | nil => exact h.resolve_right fun ⟨_, hst, _⟩ => not_mem_nil hst
  | cons st sts ih =>
    refine ih ((subroutines_take st).trans hknown) ?_
    rcases h with h | ⟨l, hl, hflow⟩
    · exact .inl (classical_take h st)
    · rcases mem_cons.1 hl with rfl | hl
      · exact .inl (classical_take_of_hasFlow hnames hknown hflow)
      · exact .inr ⟨l, hl, hflow⟩

/-- Control flow or a call in the body is noted, wherever it is outside of definitions. -/
theorem classical_of_anyFlow {p : Program} (hp : p.Unbroken)
    (hnames : ∀ d ∈ p.subroutines, d.name.toList ≠ [] ∧ d.name.toList.all isWord = true)
    (hflow : Stmt.anyFlow (p.subroutines.map (·.name)) p.body = true) :
    (Sketch.reads {} p.text).classical = true := by
  have hwords : ∀ name ∈ p.subroutines.map (·.name), name.toList ≠ [] ∧ name.toList.all isWord = true := by
    intro name hname
    obtain ⟨d, hd, rfl⟩ := mem_map.1 hname
    exact hnames d hd
  rw [reads_program hp hnames]
  exact classical_foldl_take hwords (by rw [map_map]; rfl) (.inr (Stmt.exists_line_of_anyFlow _ hflow))

end Sketch

/-! ### Circuits -/

namespace Circuit

theorem simulate_of_classical {c : Circuit} (h : c.classical = true) : c.simulate = .ok (.error .classical) := by
  rw [simulate, if_pos h]
  rfl

/-- A program with control flow or with a call of one of its subroutines is never simulated. -/
theorem flow_not_simulated {p : Program} (hp : p.Unbroken)
    (hnames : ∀ d ∈ p.subroutines, d.name.toList ≠ [] ∧ d.name.toList.all isWord = true)
    (hflow : Stmt.anyFlow (p.subroutines.map (·.name)) p.body = true) :
    (∀ c, read p.text = .ok c → c.classical = true ∧ c.simulate = .ok (.error .classical)) ∧
      (NumbersBelow Fault.longest p.text → ∃ c, read p.text = .ok c) := by
  refine ⟨fun c hread => ?_, fun hb => ?_⟩
  · have hc := (eq_of_read hread).2.trans (Sketch.classical_of_anyFlow hp hnames hflow)
    exact ⟨hc, simulate_of_classical hc⟩
  · obtain ⟨c, hread, -⟩ := exists_read hb
    exact ⟨c, hread⟩

open QasmStudio.Convert (run buildProgram)

def toggleLibrary : Library :=
  .ofRoutines [.subroutine "toggle" [] none
    [.mk (.gate ⟨"x", 1, 0⟩ [.const (.expr (.physical 2))]) none false .own] (.const .none)]

def boxedCall : Routine :=
  .main "main" [.mk (.verbatim [.mk (.call "toggle" []) none false .own]) none false .own] []

theorem flow_not_simulated_box : ∃ p s', buildProgram (run toggleLibrary 4) boxedCall {} [] {} = (.ok p, s') ∧
    p.program.Unbroken ∧ Stmt.anyFlow (p.program.subroutines.map (·.name)) p.program.body = true ∧
    ∃ c, read p.program.text = .ok c ∧ c.classical = true ∧ c.simulate = .ok (.error .classical) := by
  have hbuild : ∃ p s', buildProgram (run toggleLibrary 4) boxedCall {} [] {} = (.ok p, s') ∧
      p.program.gates = [] ∧ p.program.calibrations = [] ∧
      p.program.subroutines = [⟨"toggle", [], none, [.gate "x" [] [.physical 2]], false⟩] ∧
      p.program.body = [.pragma "braket verbatim", .box [.eval (.call "toggle" [] none)]] ∧
      ((Sketch.reads {} p.program.text).wires : Int) ≤ Fault.longest :=
    ⟨_, _, rfl, rfl, rfl, rfl, rfl, by decide +kernel⟩
  obtain ⟨p, s', hp, hgates, hcalibrations, hsubroutines, hbody, hwires⟩ := hbuild
  have hunbroken : p.program.Unbroken := by
    refine ⟨?_, ?_, ?_, ?_⟩
    · rw [hgates]
      exact fun _ h => absurd h List.not_mem_nil
    · rw [hcalibrations]
      exact fun _ h => absurd h List.not_mem_nil
    · rw [hsubroutines]
      exact List.forall_mem_singleton.2 ⟨by decide, fun _ h => absurd h List.not_mem_nil,
        List.forall_mem_singleton.2 (.gate (by decide) (by decide))⟩
    · rw [hbody]
      exact List.forall_mem_cons.2 ⟨.pragma (by decide), List.forall_mem_singleton.2
        (.box (List.forall_mem_singleton.2 (.eval (by decide))))⟩
  have hflow : Stmt.anyFlow (p.program.subroutines.map (·.name)) p.program.body = true := by
    rw [hsubroutines, hbody]
    decide
  have hnames : ∀ d ∈ p.program.subroutines, d.name.toList ≠ [] ∧ d.name.toList.all isWord = true := by
    rw [hsubroutines]
    exact List.forall_mem_singleton.2 (by decide)
  obtain ⟨c, hread⟩ := exists_of_wires hwires
  exact ⟨p, s', hp, hunbroken, hflow, c, hread, (flow_not_simulated hunbroken hnames hflow).1 c hread⟩

/-- The name of the variable ends the line of the header. -/
def foldedBranch : Routine :=
  .main "main" [.mk (.branch (.const (.expr (.var "a\n//" (some Ty.bool) none)))
    (some [.mk (.gate ⟨"h", 1, 0⟩ [.const (.int .word 0)]) none false .own]) none) none false .own] []

def angleLibrary : Library :=
  .ofRoutines [.subroutine "f" [] (some Ty.angle) [] (.const (.expr (.angle 1.5)))]

/-- The name of the variable makes a comment of the assignment. -/
def mutedCall : Routine :=
  .main "main"
    [.mk (.call "f" []) none true .own,
     .mk (.newVar .int (.const (.int .word 3))) (some "x") false .own,
     .mk (.assign "//x" (.named "x")) none false .own,
     .mk (.assign "//x" (.const (.expr (.call "f" [] (some Ty.int))))) none false .own] []

/-- Is the value of one of the assignments a call? -/
def assignsCall (names : List String) (body : List Stmt) : Bool :=
  body.any fun
    | .assign _ value => value.calls names
    | _ => false

/-- Control flow and calls that are not noted, for the names of variables. -/
theorem unnoted_flow :
    (∃ p s', buildProgram (run ⟨[]⟩ 4) foldedBranch {} [] {} = (.ok p, s') ∧
      Stmt.anyControl p.program.body = true ∧ (read p.program.text).toOption.map (·.classical) = some false) ∧
    ∃ p s', buildProgram (run angleLibrary 4) mutedCall {} [] {} = (.ok p, s') ∧
      p.program.subroutines.map (·.name) = ["f"] ∧ assignsCall ["f"] p.program.body = true ∧
      (read p.program.text).toOption.map (·.classical) = some false :=
  ⟨⟨_, _, rfl, by decide +kernel, by decide +kernel⟩,
    _, _, rfl, by decide +kernel, by decide +kernel, by decide +kernel⟩

end Circuit

end QasmStudio
