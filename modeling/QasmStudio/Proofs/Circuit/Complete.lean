import QasmStudio.Convert.Run
import QasmStudio.Proofs.Circuit.Clear

/-!
# Circuits that leave nothing out

A circuit that is not noted as classical has an operation for each operation of the program it was read from,
in order, if the program is clear. `Sketch.Covers cs sts` says this of the lines `cs` and the operations `sts`.
Whatever follows them is read too: control flow that has been noted stays noted, so a line that would leave an
operation out and notes control flow never has to be followed any further.
-/

namespace QasmStudio

open Text List

namespace Sketch

variable {s : Sketch} {cs ds : List Char} {sts sts' : List Stmt} {args : List Expr} {q : Expr} {st : Stmt}

/-! ### What has been noted stays noted -/

theorem classical_line (h : s.classical = true) (raw : List Char) : (s.line raw).classical = true := by
  have hopen : ∀ cs, (s.openBlock cs).classical = true := fun cs => by
    unfold openBlock
    dsimp only
    split
    · exact h
    · exact h
    · exact h
    · exact h
    · rw [h]
      rfl
  unfold line
  dsimp only
  split
  · exact h
  split
  · exact h
  split
  · split
    · exact h
    · exact hopen _
  split
  · exact h
  · exact classical_statement h _

theorem classical_reads (h : s.classical = true) (cs : List Char) : (s.reads cs).classical = true := by
  unfold reads
  generalize split '\n' cs = raws
  induction raws generalizing s with
  | nil => exact h
  | cons raw raws ih => exact ih (classical_line h raw)

theorem classical_enter {w : String} (hs : s.isSkipping = false) (hw : w ∈ ["if", "for", "while"]) :
    (s.enter w).classical = true := by
  show (s.classical || (["if", "for", "while"].contains w && !s.isSkipping)) = true
  rw [hs, contains_iff_mem.2 hw, Bool.not_false, Bool.and_true, Bool.or_true]

/-! ### Lines that leave nothing out -/

/-- Unless control flow is noted in the end, the lines make an operation of each of the statements. -/
def Covers (cs : List Char) (sts : List Stmt) : Prop :=
  ∀ (s : Sketch) (rest : List Char), s.isSkipping = false → (s.reads (cs ++ rest)).classical = false →
    ∃ (ops : List Op) (s' : Sketch), Forall₂ Stmt.Shows sts ops ∧ s'.ops = ops.reverse ++ s.ops ∧
      s'.blocks = s.blocks ∧ s.reads (cs ++ rest) = s'.reads rest

namespace Covers

theorem nil : Covers [] [] := fun s _ _ _ => ⟨[], s, .nil, rfl, rfl, rfl⟩

theorem append (h : Covers cs sts) (h' : Covers ds sts') : Covers (cs ++ ds) (sts ++ sts') := by
  intro s rest hs hc
  rw [append_assoc] at hc ⊢
  obtain ⟨ops, t, hshows, hops, hblocks, hreads⟩ := h s (ds ++ rest) hs hc
  have ht : t.isSkipping = false := by rw [isSkipping, hblocks]; exact hs
  rw [hreads] at hc ⊢
  obtain ⟨ops', t', hshows', hops', hblocks', hreads'⟩ := h' t rest ht hc
  refine ⟨ops ++ ops', t', rel_append hshows hshows', ?_, hblocks'.trans hblocks, hreads'⟩
  rw [hops', hops, reverse_append, append_assoc]

theorem of_leads (h : ∀ s, ∃ s', Leads s cs s' ∧ s'.ops = s.ops ∧ s'.blocks = s.blocks) : Covers cs [] := by
  intro s rest _ _
  obtain ⟨s', hleads, hops, hblocks⟩ := h s
  exact ⟨[], s', .nil, hops, hblocks, hleads rest⟩

theorem of_leads_self (h : ∀ s, Leads s cs s) : Covers cs [] := of_leads fun s => ⟨s, h s, rfl, rfl⟩

theorem flatMap {α : Type} {f : α → List Char} {xs : List α} (h : ∀ x ∈ xs, Covers (f x) []) :
    Covers (xs.flatMap f) [] := by
  induction xs with
  | nil => exact nil
  | cons x xs ih =>
    rw [flatMap_cons]
    exact (h x mem_cons_self).append (ih fun y hy => h y (mem_cons_of_mem _ hy))

theorem texts {depth : Nat} {body : List Stmt} (h : ∀ st ∈ body, Covers (st.text depth) st.operations) :
    Covers (Stmt.texts depth body) (Stmt.allOperations body) := by
  induction body with
  | nil => exact nil
  | cons st sts ih => exact (h st mem_cons_self).append (ih fun st hst => h st (mem_cons_of_mem _ hst))

/-- A line adds the operation that it is read as, or notes control flow. -/
theorem line {r : Statement} (hst : st.Unbroken) (hread : st.Reads r) (hsts : st.operations = sts)
    (h : Forall₂ Stmt.Shows sts r.op?.toList ∨ ∀ s : Sketch, (s.note r).classical = true) (depth : Nat) :
    Covers (st.text depth) st.operations := by
  intro s rest hs hc
  have hleads := Leads.line (s := s) hst hread.line depth
  rw [takes_eq hs, foldl_cons, foldl_nil, take_of_reads hread] at hleads
  rw [hleads rest] at hc ⊢
  have hflow : (s.statement (written st ++ [';'])).classical = false := by
    by_contra hno
    rw [classical_reads (Bool.eq_true_of_not_eq_false hno) rest] at hc
    cases hc
  rcases statement_cases s (written st ++ [';']) with heq | heq
  · rw [heq, hread.read] at hflow ⊢
    rcases h with hshows | hnoted
    · rw [hsts]
      refine ⟨_, _, hshows, ?_, by rw [note_eq], rfl⟩
      rw [note_eq]
      cases r.op? with
      | none => rfl
      | some op => rfl
    · rw [hnoted s] at hflow
      cases hflow
  · rw [heq] at hflow
    cases hflow

theorem silent {r : Statement} (hst : st.Unbroken) (hread : st.Reads r) (hnone : st.operations = [])
    (h : r.op? = none) (depth : Nat) : Covers (st.text depth) st.operations :=
  line hst hread hnone (.inl (by rw [h]; exact .nil)) depth

theorem box (depth : Nat) {body : List Char} (h : Covers body sts) :
    Covers (Stmt.block depth "box".toList body) sts := by
  intro s rest hs hc
  have htext : Stmt.block depth "box".toList body ++ rest =
      QasmStudio.indented depth ("box".toList ++ [' ', '\x7b']) ++
        (body ++ (QasmStudio.indented depth ['\x7d'] ++ rest)) := by
    simp [Stmt.block]
  rw [htext, Leads.opened .box depth] at hc ⊢
  obtain ⟨ops, t, hshows, hops, hblocks, hreads⟩ := h (s.enter "box") _ hs hc
  refine ⟨ops, { t with blocks := t.blocks.tail }, hshows, hops, ?_, hreads.trans (Leads.closed depth rest)⟩
  rw [hblocks]
  rfl

/-- Control flow is noted with its first line. -/
theorem control {w : String} {header : List Char} (hheader : IsHeader w header) (hw : w ∈ ["if", "for", "while"])
    (depth : Nat) (body : List Char) : Covers (Stmt.block depth header body) sts := by
  intro s rest hs hc
  rw [Stmt.block, append_assoc, Leads.opened hheader depth, classical_reads (classical_enter hs hw)] at hc
  cases hc

end Covers

/-! ### Operations -/

theorem isOperand_of_isFixed (h : q.IsFixed) : q.IsOperand := by
  obtain ⟨w, hw, hindex⟩ := h
  have htext := Wire.text_of_wire? hw
  refine ⟨?_, ?_, ?_⟩
  · rw [htext]
    exact Statement.isOperands_wire w
  · rw [htext]
    exact newline_not_mem_wire w
  · rw [htext, Operands.read_wire hindex, hw]
    rfl

theorem angles_listText (h : ∀ e ∈ args, e.IsArgument) :
    angles (Expr.listText args) = args.filterMap fun e => Angle.read? e.text := by
  have hcomma : ∀ cs ∈ args.map Expr.text, ',' ∉ cs := by
    intro cs hcs hmem
    obtain ⟨e, he, rfl⟩ := mem_map.1 hcs
    exact (h e he).chars _ hmem (by decide)
  rw [Expr.listText, texts_eq_map, angles_commaSep hcomma, filterMap_map]
  rfl

theorem length_angles (h : ∀ e ∈ args, e.IsNumber) :
    (args.filterMap fun e => Angle.read? e.text).length = args.length := by
  refine isSome_filterMap_length fun e he => ?_
  have hnumber := h e he
  cases e with
  | int n => exact Angle.isSome_read?_number (isNumberText_wordText hnumber)
  | float x => exact Angle.isSome_read?_number (isNumberText_floatText x)
  | angle x => exact Angle.isSome_read?_text x
  | _ => cases hnumber

namespace Covers
variable {name : String}

theorem gate {qubits : List Expr} (hname : Statement.IsGateName name)
    (hargs : ∀ e ∈ args, e.IsArgument) (hne : qubits ≠ []) (hqubits : ∀ q ∈ qubits, q.IsOperand) (depth : Nat) :
    Covers ((Stmt.gate name args qubits).text depth) (Stmt.gate name args qubits).operations := by
  have hoperations : (Stmt.gate name args qubits).operations = [.gate name args qubits] := by
    show Stmt.measured args ++ [.gate name args qubits] = _
    rw [Stmt.measured_eq_nil fun e he => (hargs e he).measures, nil_append]
  have hparen : ')' ∉ Expr.listText args :=
    not_mem_listText (by decide) fun e he hmem => (hargs e he).chars _ hmem (by decide)
  have hlist : Statement.IsOperands (Expr.listText qubits) := by
    rw [Expr.listText, texts_eq_map]
    refine Statement.isOperands_commaSep (fun hnil => hne (map_eq_nil_iff.1 hnil)) fun cs hcs => ?_
    obtain ⟨q, hq, rfl⟩ := mem_map.1 hcs
    exact (hqubits q hq).operands
  have hunbroken : (Stmt.gate name args qubits).Unbroken := .gate hname.newline_not_mem <| forall_mem_append.2
    ⟨fun e he hmem => (hargs e he).chars _ hmem (by decide), fun q hq => (hqubits q hq).newline⟩
  refine .line hunbroken (.gate hname hparen hlist) hoperations ?_ depth
  -- operands that are not fixed are noted as control flow
  cases hread : (Operands.read (Expr.listText qubits)).qubits with
  | none =>
    refine .inr fun s => ?_
    rw [note_eq]
    show (s.classical || (Operands.read (Expr.listText qubits)).qubits.isNone) = true
    rw [hread]
    exact Bool.or_true _
  | some is =>
    refine .inl ?_
    rw [Statement.op?, hread]
    refine .cons (.gate (Operands.forall₂_of_read hne hqubits hread) (angles_listText hargs) fun hall => ?_) .nil
    rw [angles_listText hargs, length_angles hall]

theorem reset (h : q.IsFixed) (depth : Nat) : Covers ((Stmt.reset q).text depth) (Stmt.reset q).operations := by
  obtain ⟨w, hw, hindex⟩ := h
  refine .line (.reset (newline_not_mem_of_wire? (by rw [hw]; rfl))) (.reset hw) rfl (.inl ?_) depth
  rw [Statement.op?, Operands.read_wire hindex]
  exact .cons (.reset ⟨w, hw, rfl⟩) .nil

theorem barrier {qubits : List Expr} (h : ∀ q ∈ qubits, q.IsFixed) (depth : Nat) :
    Covers ((Stmt.barrier qubits).text depth) (Stmt.barrier qubits).operations := by
  have hunbroken : (Stmt.barrier qubits).Unbroken := .barrier fun q hq => (isOperand_of_isFixed (h q hq)).newline
  cases qubits with
  | nil => exact .line hunbroken ⟨rfl, ⟨'b', _, rfl, by decide⟩, rfl⟩ rfl (.inl (.cons (.barrier .nil) .nil)) depth
  | cons q qs =>
    have hwires : ∀ r ∈ q :: qs, r.wire?.isSome := fun r hr => by
      obtain ⟨w, hw, -⟩ := h r hr
      rw [hw]
      rfl
    have hindex : ∀ w ∈ (q :: qs).filterMap Expr.wire?, (w.index : Int) ≤ Word.largest := fun w hw => by
      obtain ⟨r, hr, hrw⟩ := mem_filterMap.1 hw
      obtain ⟨v, hv, hindex⟩ := h r hr
      cases hv.symm.trans hrw
      exact hindex
    have hne := wires_ne_nil (cons_ne_nil q qs) hwires
    have hlist := listText_wires hwires
    have hread := Operands.read_commaSep hne hindex
    have hoperands : Statement.IsOperands (Expr.listText (q :: qs)) := hlist ▸ Statement.isOperands_wires hne
    refine .line hunbroken (.barrier (cons_ne_nil q qs) hoperands) rfl (.inl ?_) depth
    rw [Statement.op?, hlist, hread]
    refine .cons (.barrier ?_) .nil
    refine Operands.forall₂_of_read (cons_ne_nil q qs) (fun r hr => isOperand_of_isFixed (h r hr)) ?_
    rw [hlist, hread]

theorem newline_not_mem_declared (hname : Statement.IsIdentifier name) (ty : Option Ty)
    {init : Option Expr} (hinit : ∀ e, init = some e → '\n' ∉ e.text) : (Stmt.declare ⟨name, ty, init⟩).Unbroken :=
  .declare (newline_not_mem_declaration hname.newline_not_mem hinit)

theorem measure {ty : Ty} (hname : Statement.IsIdentifier name)
    (hty : ty.kind = .bit) (h : q.IsFixed) (depth : Nat) :
    Covers ((Stmt.declare ⟨name, some ty, some (.measure q)⟩).text depth)
      (Stmt.declare ⟨name, some ty, some (.measure q)⟩).operations := by
  obtain ⟨w, hw, hindex⟩ := h
  refine .line (newline_not_mem_declared hname _ fun e he => ?_) (.measure hname hty hw) rfl (.inl ?_) depth
  · cases he
    exact newline_not_mem_measure (by rw [hw]; rfl)
  · rw [Statement.op?, Operands.read_wire hindex]
    exact .cons (.measure ⟨w, hw, rfl⟩) .nil

theorem newline_not_mem_place {target : Expr} (h : target.IsPlace) : '\n' ∉ target.text :=
  fun hmem => h.chars _ hmem (by decide)

theorem measureInto {target : Expr} (htarget : target.IsPlace)
    (hchars : ∀ c ∈ target.text, Statement.isTargetChar c = true) (h : q.IsFixed) (depth : Nat) :
    Covers ((Stmt.assign target (.measure q)).text depth) (Stmt.assign target (.measure q)).operations := by
  obtain ⟨name, idx, hassign, hname⟩ := htarget.text
  obtain ⟨w, hw, hindex⟩ := h
  have hoperations : (Stmt.assign target (.measure q)).operations = [.assign target (.measure q)] := by
    show Stmt.measured [target] ++ [.assign target (.measure q)] = _
    rw [Stmt.measured_eq_nil (forall_mem_singleton.2 htarget.measures), nil_append]
  rw [hname] at hchars
  have hunbroken : (Stmt.assign target (.measure q)).Unbroken :=
    .assign (newline_not_mem_place htarget) (newline_not_mem_measure (by rw [hw]; rfl))
  refine .line hunbroken (.measureInto hassign hname (forall_mem_append.1 hchars).2 hw) hoperations (.inl ?_) depth
  rw [Statement.op?, Operands.read_wire hindex]
  exact .cons (.measureInto ⟨w, hw, rfl⟩) .nil

/-! ### Statements that are no operations -/

theorem declare {v : Var} (hname : Statement.IsIdentifier v.name) (hinit : ∀ e, v.init = some e → e.IsValue)
    (depth : Nat) : Covers ((Stmt.declare v).text depth) (Stmt.declare v).operations := by
  obtain ⟨name, ty, init⟩ := v
  have hoperations : (Stmt.declare ⟨name, ty, init⟩).operations = [] := by
    cases init with
    | none => rfl
    | some e =>
      have hmeasures := (hinit e rfl).measures
      cases e with
      | measure q => cases hmeasures
      | _ => exact Stmt.measured_eq_nil (forall_mem_singleton.2 hmeasures)
  obtain ⟨x, hx, htext⟩ := Stmt.Reads.exists_declared hname ty fun e he => (hinit e he).plain
  refine .silent (newline_not_mem_declared hname ty fun e he => (hinit e he).newline) .declare hoperations ?_ depth
  rw [htext]
  exact hx.op? ty

theorem assign {target value : Expr} (htarget : target.IsPlace) (hvalue : value.IsValue) (depth : Nat) :
    Covers ((Stmt.assign target value).text depth) (Stmt.assign target value).operations := by
  obtain ⟨name, idx, hassign, hname⟩ := htarget.text
  have hoperations : (Stmt.assign target value).operations = [] := by
    have hmeasures : ∀ e ∈ [target, value], e.measures = false :=
      forall_mem_cons.2 ⟨htarget.measures, forall_mem_singleton.2 hvalue.measures⟩
    cases value with
    | measure q => exact absurd hvalue.measures (by simp [Expr.measures])
    | _ => exact Stmt.measured_eq_nil hmeasures
  have hidx : '=' ∉ idx := fun hmem => htarget.chars _ (by rw [hname]; exact mem_append_right _ hmem) (by decide)
  exact .silent (.assign (newline_not_mem_place htarget) hvalue.newline) (.assign hassign hname hidx hvalue.plain)
    hoperations rfl depth

theorem call {returns : Option Ty} (hname : Statement.IsIdentifier name)
    (hargs : ∀ e ∈ args, '\n' ∉ e.text ∧ e.measures = false) (depth : Nat) :
    Covers ((Stmt.eval (.call name args returns)).text depth) (Stmt.eval (.call name args returns)).operations := by
  have hmeasures : (Expr.call name args returns).measures = false := by
    show Expr.anyMeasures args = false
    induction args with
    | nil => rfl
    | cons e es ih =>
      obtain ⟨he, hes⟩ := forall_mem_cons.1 hargs
      show (e.measures || Expr.anyMeasures es) = false
      rw [he.2, ih hes]
      rfl
  have hnewline : '\n' ∉ (Expr.call name args returns).text := by
    show '\n' ∉ name.toList ++ '(' :: (Expr.listText args ++ [')'])
    simp [hname.newline_not_mem, newline_not_mem_listText fun e he => (hargs e he).1]
  have hread := Statement.op?_call hname (Expr.listText args)
  refine .silent (.eval hnewline) ⟨rfl, exists_word_cons hname.ne_nil hname.word _, rfl⟩
    (Stmt.measured_eq_nil (forall_mem_singleton.2 hmeasures)) ?_ depth
  show (Statement.read (name.toList ++ '(' :: (Expr.listText args ++ [')']) ++ [';'])).op? = none
  rw [← hread]
  simp

theorem delay {duration : Expr} {targets : List Expr}
    (h : ∀ e ∈ duration :: targets, (∀ c ∈ e.text, c ∉ ['=', '\n']) ∧ e.measures = false) (depth : Nat) :
    Covers ((Stmt.delay duration targets).text depth) (Stmt.delay duration targets).operations := by
  have hchars : ∀ c ∈ ['=', '\n'], ∀ e ∈ duration :: targets, c ∉ e.text := fun c hc e he hmem => (h e he).1 c hmem hc
  obtain ⟨hd, ht⟩ := forall_mem_cons.1 (hchars '=' (by decide))
  obtain ⟨hd', ht'⟩ := forall_mem_cons.1 (hchars '\n' (by decide))
  have hread := Statement.op?_delay hd (not_mem_listText (by decide) ht)
  refine .silent (.delay hd' ht') ⟨rfl, ⟨'d', _, rfl, by decide⟩, rfl⟩ (Stmt.measured_eq_nil fun e he => (h e he).2) ?_
    depth
  show (Statement.read ("delay[".toList ++ duration.text ++ ']' :: ' ' :: Expr.listText targets ++ [';'])).op? = none
  rw [← hread]
  simp

theorem «return» {value : Option Expr}
    (h : ∀ e, value = some e → e.IsValue ∧ Stops (fun c => isSpace c || c = '=') e.text) (depth : Nat) :
    Covers ((Stmt.return value).text depth) (Stmt.return value).operations := by
  have hunbroken : (Stmt.return value).Unbroken := .return fun e he => (h e he).1.newline
  cases value with
  | none => exact .silent hunbroken ⟨rfl, ⟨'r', _, rfl, by decide⟩, rfl⟩ rfl rfl depth
  | some e =>
    obtain ⟨he, hstops⟩ := h e rfl
    exact .silent hunbroken ⟨rfl, ⟨'r', _, rfl, by decide⟩, rfl⟩
      (Stmt.measured_eq_nil (forall_mem_singleton.2 he.measures)) (Statement.op?_return hstops) depth

/-! ### Statements of any depth -/

theorem of_clear (h : st.Clear) : ∀ depth, Covers (st.text depth) st.operations := by
  induction h with
  | gate hname hargs hne hqubits => exact .gate hname hargs hne hqubits
  | reset hq => exact .reset hq
  | barrier hqubits => exact .barrier hqubits
  | measure hname hty hq => exact .measure hname hty hq
  | measureInto htarget hchars hq => exact .measureInto htarget hchars hq
  | declare hname hinit => exact .declare hname hinit
  | assign htarget hvalue => exact .assign htarget hvalue
  | call hname hargs => exact .call hname hargs
  | delay h => exact .delay h
  | «break» => exact .silent .break ⟨rfl, ⟨'b', _, rfl, by decide⟩, rfl⟩ rfl rfl
  | «continue» => exact .silent .continue ⟨rfl, ⟨'c', _, rfl, by decide⟩, rfl⟩ rfl rfl
  | «return» h => exact .return h
  | pragma htext => exact fun depth => .of_leads_self fun _ => .pragma depth htext
  | box _ ih => exact fun depth => .box depth (.texts fun st hst => ih st hst (depth + 1))
  | branch hcond =>
    intro depth
    rw [text_branch]
    exact .control (.branch hcond) (by decide) depth _
  | forIn hv hiter => exact fun depth => .control (.forLoop hv hiter) (by decide) depth _
  | «while» hcond => exact fun depth => .control (.whileLoop hcond) (by decide) depth _

/-! ### Definitions and programs -/

theorem subroutineDef {d : SubroutineDef} (h : d.Unbroken) : Covers d.text [] := by
  refine of_leads fun s => ?_
  obtain ⟨x, hleads⟩ := @Leads.subroutineDef s d h
  exact ⟨_, hleads, rfl, rfl⟩

theorem program {p : Program} (h : p.Clear) : ∀ rest, (Sketch.reads {} (p.text ++ rest)).classical = false →
    ∃ (ops : List Op) (s : Sketch), Forall₂ Stmt.Shows (Stmt.allOperations p.body) ops ∧
      s.ops = ops.reverse ∧ Sketch.reads {} (p.text ++ rest) = s.reads rest := by
  have hgates : Covers (p.gates.flatMap GateDef.text) [] :=
    .flatMap fun d hd => .of_leads_self fun _ => .gateDef (h.gates d hd)
  have hcalibrations : Covers (p.calibrations.flatMap CalibrationDef.text) [] :=
    .flatMap fun d hd => .of_leads_self fun _ => .calibrationDef (h.calibrations d hd)
  have hsubroutines : Covers (p.subroutines.flatMap SubroutineDef.text) [] :=
    .flatMap fun d hd => .subroutineDef (h.subroutines d hd)
  have hbody : Covers (Stmt.texts 0 p.body) (Stmt.allOperations p.body) :=
    .texts fun st hst => .of_clear (h.body st hst) 0
  have hrest := ((hgates.append hcalibrations).append hsubroutines).append hbody
  intro rest hc
  have htext : p.text ++ rest = (QasmStudio.indented 0 "OPENQASM 3.0;".toList ++
      if p.pulse || !p.calibrations.isEmpty then QasmStudio.indented 0 "defcalgrammar \"openpulse\";".toList
      else []) ++ ((p.gates.flatMap GateDef.text ++ p.calibrations.flatMap CalibrationDef.text ++
        p.subroutines.flatMap SubroutineDef.text ++ Stmt.texts 0 p.body) ++ rest) := by
    simp only [Program.text, append_assoc]
  rw [htext, Leads.preamble] at hc ⊢
  obtain ⟨ops, s, hshows, hops, -, hreads⟩ := hrest {} rest rfl hc
  exact ⟨ops, s, hshows, hops.trans (append_nil _), hreads⟩

end Covers

end Sketch

/-! ### Circuits -/

namespace Circuit

theorem eq_of_read {cs : List Char} {c : Circuit} (h : read cs = .ok c) :
    c.ops.map (·.toOp) = (Sketch.reads {} cs).ops.reverse ∧ c.classical = (Sketch.reads {} cs).classical := by
  have hread : (Fault.length (Sketch.reads {} cs).wires >>= fun n => pure (f := Except Fault)
      ⟨n, schedule n (Sketch.reads {} cs).ops.reverse, (Sketch.reads {} cs).classical,
        (Sketch.reads {} cs).physical⟩) = .ok c := h
  cases hn : Fault.length (Sketch.reads {} cs).wires with
  | error e =>
    rw [hn] at hread
    cases hread
  | ok n =>
    rw [hn] at hread
    cases hread
    exact ⟨toOp_placeFrom .., rfl⟩

theorem exists_of_wires {cs : List Char} (h : ((Sketch.reads {} cs).wires : Int) ≤ Fault.longest) :
    ∃ c, read cs = .ok c := ⟨_, read_of_lines rfl h⟩

/-- A circuit without control flow shows every operation of the program, in order and as it is. -/
theorem shows_operations {p : Program} (hp : p.Clear) {c : Circuit} (hread : read p.text = .ok c)
    (hc : c.classical = false) :
    List.Forall₂ Stmt.Shows (Stmt.allOperations p.body) (c.ops.map (·.toOp)) := by
  obtain ⟨hops, hclassical⟩ := eq_of_read hread
  have hflow : (Sketch.reads {} (p.text ++ [])).classical = false := by
    rw [List.append_nil, ← hclassical, hc]
  obtain ⟨ops, s, hshows, hs, hreads⟩ := Sketch.Covers.program hp [] hflow
  have hend : Sketch.reads {} p.text = s := by
    rw [List.append_nil] at hreads
    exact hreads
  rw [hops, hend, hs, List.reverse_reverse]
  exact hshows

/-- A gate with its own definition at an angle that is not known, a box, and names that start and end like
statements. -/
def customProgram : Program where
  gates := [⟨"wobble", [⟨"theta", some Ty.angle, none⟩], [⟨"a", some (Ty.qubit 0), none⟩], []⟩]
  subroutines := [⟨"twice", [⟨"q", some (Ty.qubit 0), none⟩], none, [.gate "h" [] [.ident "q" none]], false⟩]
  pending := [⟨"__int_0__", some Ty.int, some (.int 2)⟩]
  top := [
    .declare ⟨registerName, some (.qubit 2), none⟩,
    .gate "wobble" [.var "__int_0__" (some Ty.int) none] [.index registerExpr (.int 1)],
    .pragma "braket verbatim",
    .box [.gate "cnot" [] [.physical 0, .physical 3], .barrier []],
    .assign (.var "resets" (some Ty.int) none) (.binary "+" (.ident "resets" (some Ty.int)) (.int 1)),
    .declare ⟨"last_measure", some (Ty.bit 0), some (.measure (.index registerExpr (.int 1)))⟩,
    .reset (.index registerExpr (.int 0))]

theorem clear_customProgram : customProgram.Clear where
  gates := forall_mem_singleton.2 ⟨by decide, by decide, fun _ h => absurd h not_mem_nil⟩
  calibrations := fun _ h => absurd h not_mem_nil
  subroutines := forall_mem_singleton.2 ⟨by decide, by decide,
    forall_mem_singleton.2 (.gate (by decide) (by decide))⟩
  body := by
    have hint : Statement.IsIdentifier "__int_0__" := ⟨by decide, by decide, by decide⟩
    have hbox : ∀ st ∈ [Stmt.gate "cnot" [] [.physical 0, .physical 3], .barrier []], st.Clear := by
      refine forall_mem_cons.2 ⟨.gate ⟨⟨by decide, by decide, by decide⟩, by decide⟩ nofun
        (cons_ne_nil _ _) ?_, forall_mem_singleton.2 (.barrier nofun)⟩
      exact forall_mem_cons.2 ⟨Sketch.isOperand_of_isFixed ⟨.physical 0, rfl, by decide⟩,
        forall_mem_singleton.2 (Sketch.isOperand_of_isFixed ⟨.physical 3, rfl, by decide⟩)⟩
    refine forall_mem_cons.2 ⟨.declare hint fun e he => ?_, forall_mem_cons.2
      ⟨.declare ⟨by decide, by decide, by decide⟩ nofun, forall_mem_cons.2
      ⟨.gate ⟨⟨by decide, by decide, by decide⟩, by decide⟩ ?_ (cons_ne_nil _ _) ?_, forall_mem_cons.2
      ⟨.pragma (by decide), forall_mem_cons.2 ⟨.box hbox, forall_mem_cons.2
      ⟨.assign ⟨⟨"resets", [], ⟨⟨by decide, by decide, by decide⟩, .inl rfl⟩, rfl⟩,
        forall_mem_of_all (by decide), rfl⟩ ?_,
      forall_mem_cons.2 ⟨.measure ⟨by decide, by decide, by decide⟩ rfl ⟨.register 1, rfl, by decide⟩,
      forall_mem_singleton.2 (.reset ⟨.register 0, rfl, by decide⟩)⟩⟩⟩⟩⟩⟩⟩
    · cases he
      exact ⟨rfl, by decide, rfl⟩
    · exact forall_mem_singleton.2 ⟨forall_mem_of_all (by decide), rfl⟩
    · exact forall_mem_singleton.2 (Sketch.isOperand_of_isFixed ⟨.register 1, rfl, by decide⟩)
    · exact ⟨rfl, by decide, rfl⟩

theorem shows_customProgram : customProgram.Clear ∧ (Stmt.allOperations customProgram.body).length = 5 ∧
    ∃ c, read customProgram.text = .ok c ∧ c.classical = false ∧
      List.Forall₂ Stmt.Shows (Stmt.allOperations customProgram.body) (c.ops.map (·.toOp)) := by
  have hwires : ((Sketch.reads {} customProgram.text).wires : Int) ≤ Fault.longest := by decide +kernel
  obtain ⟨c, hread⟩ := exists_of_wires hwires
  have hclassical : (Sketch.reads {} customProgram.text).classical = false := by decide +kernel
  have hc := (eq_of_read hread).2.trans hclassical
  exact ⟨clear_customProgram, by decide, c, hread, hc, shows_operations clear_customProgram hread hc⟩

/-! ### What can be left out -/

def angleCount : Stmt → Nat
  | .gate _ args _ => args.length
  | _ => 0

/-- The number of angles of each operation, in the circuit and in the program, and whether control flow
was noted. -/
def comparison (p : Program) : Option (Bool × List Nat × List Nat) :=
  (read p.text).toOption.map fun c =>
    (c.classical, c.ops.map (·.params.length), (Stmt.allOperations p.body).map angleCount)

open QasmStudio.Convert (run buildProgram)

def variableAngle : Routine :=
  .main "main"
    [.mk (.newVar .int (.const (.int .word 1))) (some "x") false .own,
     .mk (.gate ⟨"rx", 1, 1⟩ [.const (.int .word 0), .named "x"]) none false .own] []

def nestedAngle : Routine :=
  .main "main"
    [.mk (.newVar .int (.const (.int .word 1))) (some "x") false .own,
     .mk (.arithmetic .add (.named "x") (.const (.int .word 1))) (some "y") false .own,
     .mk (.arithmetic .mul (.const (.int .word 2)) (.named "y")) (some "z") false .own,
     .mk (.gate ⟨"rx", 1, 1⟩ [.const (.int .word 0), .named "z"]) none false .own] []

def variableQubit : Routine :=
  .main "main"
    [.mk (.newVar .int (.const (.int .word 0))) (some "i") false .own,
     .mk (.measure [.named "i"]) none false .own] []

def capitalGate : Routine :=
  .main "main" [.mk (.call "Flip" [.const (.int .word 0)]) none false .own] []

def flipLibrary : Library :=
  .ofRoutines [.gate "Flip" [⟨"q", some (Ty.qubit 0)⟩] [.mk (.gate ⟨"x", 1, 0⟩ [.arg 0]) none false .own]]

/-- Without control flow, the angle of a call can be missing, or the whole call or measurement. -/
theorem incomplete_builds :
    (buildProgram (run ⟨[]⟩ 4) variableAngle {} [] {}).1.toOption.bind (comparison ·.program) =
      some (false, [0], [1]) ∧
    (buildProgram (run ⟨[]⟩ 4) nestedAngle {} [] {}).1.toOption.bind (comparison ·.program) =
      some (false, [], [1]) ∧
    (buildProgram (run ⟨[]⟩ 4) variableQubit { numQubits := 2 } [] {}).1.toOption.bind (comparison ·.program) =
      some (false, [], [0]) ∧
    (buildProgram (run flipLibrary 4) capitalGate {} [] {}).1.toOption.bind (comparison ·.program) =
      some (false, [], [0]) :=
  ⟨by decide +kernel, by decide +kernel, by decide +kernel, by decide +kernel⟩

end Circuit

end QasmStudio
