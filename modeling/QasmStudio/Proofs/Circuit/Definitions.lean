import QasmStudio.Proofs.Circuit.CallTexts
import Mathlib.Data.List.Infix

/-!
# Definitions and what is drawn

A definition is left out of the circuit; the reader only keeps its name. To see what a definition changes, a
program is read twice, with and without it. `Sketch.Alongside` relates the two sketches: the second knows one
name more. Every statement keeps them in step. They stay the same up to the names if no line looks like a call of
the new name, and the second is behind by an operation as soon as a line that is an operation does.
-/

namespace QasmStudio

open Text List

namespace Sketch

variable {s s' : Sketch} {cs : List Char} {names names' : List String} {n : String} {same lost ok f : Prop}

/-! ### Two readers -/

/-- The second reader knows other names. They agree on everything else if `same` holds, and the second has lost
an operation and noted control flow if `lost` does. -/
structure Alongside (names names' : List String) (same lost : Prop) (s s' : Sketch) : Prop where
  known : s.subroutines = names.map (·.toList)
  known' : s'.subroutines = names'.map (·.toList)
  numQubits : s'.numQubits = s.numQubits
  ops : s'.ops.Sublist s.ops
  same : same → ∃ x, s' = { s with subroutines := x }
  lost : lost → s'.classical = true ∧ s'.ops.length < s.ops.length

namespace Alongside

theorem mono (h : Alongside names names' same lost s s') (hok : ok → same) (hf : f → lost) :
    Alongside names names' ok f s s' :=
  { h with same := fun h' => h.same (hok h'), lost := fun h' => h.lost (hf h') }

theorem both_call (h : Alongside names names' same lost s s') :
    Alongside names names' same lost { s with classical := true } { s' with classical := true } := by
  refine ⟨h.known, h.known', h.numQubits, h.ops, fun hs => ?_, fun hl => ⟨rfl, (h.lost hl).2⟩⟩
  obtain ⟨x, rfl⟩ := h.same hs
  exact ⟨x, rfl⟩

theorem both_note (h : Alongside names names' same lost s s') (r : Statement) :
    Alongside names names' same lost (s.note r) (s'.note r) := by
  rw [note_eq, note_eq]
  refine ⟨h.known, h.known', ?_, h.ops.append_left _, fun hs => ?_, fun hl => ⟨?_, ?_⟩⟩
  · show r.size?.getD s'.numQubits = r.size?.getD s.numQubits
    rw [h.numQubits]
  · obtain ⟨x, rfl⟩ := h.same hs
    exact ⟨x, rfl⟩
  · show (s'.classical || _) = true
    rw [(h.lost hl).1, Bool.true_or]
  · show (r.op?.toList ++ s'.ops).length < (r.op?.toList ++ s.ops).length
    rw [length_append, length_append]
    exact Nat.add_lt_add_left (h.lost hl).2 _

theorem second_calls (h : Alongside names names' same lost s s') {r : Statement} (hr : r.size? = none)
    (hf : f → r.op?.isSome) :
    Alongside names names' False (lost ∨ f) (s.note r) { s' with classical := true } := by
  rw [note_eq]
  refine ⟨h.known, h.known', ?_, h.ops.trans (sublist_append_right ..), False.elim, fun hl => ⟨rfl, ?_⟩⟩
  · rw [hr]
    exact h.numQubits
  · show s'.ops.length < (r.op?.toList ++ s.ops).length
    have hle := h.ops.length_le
    rw [length_append]
    rcases hl with hl | hl
    · have hlt := (h.lost hl).2
      omega
    · obtain ⟨op, hop⟩ := Option.isSome_iff_exists.1 (hf hl)
      rw [hop]
      show s'.ops.length < 1 + s.ops.length
      omega

theorem statement (hmore : ∀ m, m ∈ names' ↔ m ∈ names ∨ m = n) (h : Alongside names names' same lost s s')
    (hok : ok → Shadowed names n cs)
    (hf : f → HasCall [n] cs ∧ ¬ HasCall names cs ∧ (Statement.read cs).op?.isSome) :
    Alongside names names' (same ∧ ok) (lost ∨ f) (s.statement cs) (s'.statement cs) := by
  have hcalls' : HasCall names' cs ↔ HasCall names cs ∨ HasCall [n] cs := by
    simp only [HasCall, hmore, mem_singleton, or_and_right, exists_or]
  by_cases hcall : HasCall names cs
  · rw [statement_of_calls hcall.paren_mem ((calls_iff h.known).2 hcall),
      statement_of_calls hcall.paren_mem ((calls_iff h.known').2 (hcalls'.2 (.inl hcall)))]
    exact h.both_call.mono And.left fun hl => hl.resolve_right fun hl => (hf hl).2.1 hcall
  have hfirst := statement_of_not_calls (Bool.eq_false_of_not_eq_true (mt (calls_iff h.known).1 hcall))
  rw [hfirst]
  by_cases hnew : HasCall [n] cs
  · have hsize : (Statement.read cs).size? = none := by
      cases hread : Statement.read cs with
      | register k => exact absurd hread (Statement.read_ne_register hnew.paren_mem k)
      | _ => rfl
    rw [statement_of_calls hnew.paren_mem ((calls_iff h.known').2 (hcalls'.2 (.inr hnew)))]
    refine (h.second_calls hsize fun hl => (hf hl).2.2).mono (fun hs => ?_) id
    exact hcall (hok hs.2 hnew)
  · have hno : ¬ HasCall names' cs := fun hin => (hcalls'.1 hin).elim hcall hnew
    rw [statement_of_not_calls (Bool.eq_false_of_not_eq_true (mt (calls_iff h.known').1 hno))]
    exact (h.both_note _).mono And.left fun hl => hl.resolve_right fun hl => hnew (hf hl).1

end Alongside

/-- The line of the statement is not taken for a call of `n` only. -/
def Kept (names : List String) (n : String) (st : Stmt) : Prop :=
  isLine st = true → Shadowed names n (trim (written st ++ [';']))

/-- The line of the statement is an operation that is taken for a call once the name `n` is known. -/
structure Loses (names : List String) (n : String) (st : Stmt) : Prop where
  line : isLine st = true
  statement : isComment (written st ++ [';']) = false
  call : HasCall [n] (trim (written st ++ [';']))
  fresh : ¬ HasCall names (trim (written st ++ [';']))
  op : (Statement.read (trim (written st ++ [';']))).op?.isSome

theorem Alongside.take (hmore : ∀ m, m ∈ names' ↔ m ∈ names ∨ m = n) (h : Alongside names names' same lost s s')
    (st : Stmt) :
    Alongside names names' (same ∧ Kept names n st) (lost ∨ Loses names n st) (s.take st) (s'.take st) := by
  unfold Sketch.take
  split
  · rename_i hline
    split
    · rename_i hcomment
      refine h.mono And.left fun hl => hl.resolve_right fun hl => ?_
      exact absurd (hl.statement.symm.trans hcomment) Bool.false_ne_true
    · exact h.statement hmore (fun hk => hk hline) fun hl => ⟨hl.call, hl.fresh, hl.op⟩
  · rename_i hline
    exact h.both_call.mono And.left fun hl => hl.resolve_right fun hl => hline hl.line

theorem Alongside.foldl (hmore : ∀ m, m ∈ names' ↔ m ∈ names ∨ m = n) (h : Alongside names names' same lost s s')
    (sts : List Stmt) :
    Alongside names names' (same ∧ ∀ st ∈ sts, Kept names n st) (lost ∨ ∃ st ∈ sts, Loses names n st)
      (sts.foldl Sketch.take s) (sts.foldl Sketch.take s') := by
  induction sts generalizing s s' same lost with
  | nil => exact h.mono And.left fun hl => hl.resolve_right (by simp)
  | cons st sts ih =>
    refine (ih (h.take hmore st)).mono (fun hs => ?_) fun hl => ?_
    · obtain ⟨hst, hsts⟩ := forall_mem_cons.1 hs.2
      exact ⟨⟨hs.1, hst⟩, hsts⟩
    · rwa [or_assoc, ← exists_mem_cons_iff]

/-! ### Programs read twice -/

theorem wires_mono (hnum : s'.numQubits = s.numQubits) (hops : s'.ops.Sublist s.ops) : s'.wires ≤ s.wires := by
  have hbound := foldl_max_le.1 (le_refl s.wires)
  refine foldl_max_le.2 ⟨hnum ▸ hbound.1, fun q hq => hbound.2 q ?_⟩
  obtain ⟨op, hop, hmem⟩ := mem_flatMap.1 hq
  exact mem_flatMap.2 ⟨op, hops.subset hop, hmem⟩

end Sketch

namespace Program

/-- A definition brings its own name, and takes none away. -/
theorem mem_names_addSubroutine (p : Program) (d : SubroutineDef) (m : String) :
    m ∈ (p.addSubroutine d).subroutines.map (·.name) ↔ m ∈ p.subroutines.map (·.name) ∨ m = d.name := by
  show m ∈ (put (·.name == d.name) d p.subroutines).map (·.name) ↔ _
  induction p.subroutines with
  | nil => simp [put]
  | cons x xs ih =>
    unfold put
    split
    · rename_i hx
      rw [map_cons, map_cons, mem_cons, mem_cons, eq_of_beq hx]
      tauto
    · rw [map_cons, map_cons, mem_cons, mem_cons, ih, or_assoc]

theorem Unbroken.addSubroutine {p : Program} {d : SubroutineDef} (hp : p.Unbroken) (hd : d.Unbroken) :
    (p.addSubroutine d).Unbroken where
  gates := hp.gates
  calibrations := hp.calibrations
  subroutines x hx := by
    rcases mem_put hx with rfl | hx
    · exact hd
    · exact hp.subroutines x hx
  body := hp.body

open Sketch (Alongside)

theorem alongside_addSubroutine {p : Program} {d : SubroutineDef} (hp : p.Unbroken) (hd : d.Unbroken)
    (hnames : ∀ x ∈ d :: p.subroutines, IsWordName x.name) :
    Alongside (p.subroutines.map (·.name)) ((p.addSubroutine d).subroutines.map (·.name))
      (∀ st ∈ Stmt.allLines p.body, Sketch.Kept (p.subroutines.map (·.name)) d.name st)
      (∃ st ∈ Stmt.allLines p.body, Sketch.Loses (p.subroutines.map (·.name)) d.name st)
      (Sketch.reads {} p.text) (Sketch.reads {} (p.addSubroutine d).text) := by
  obtain ⟨hname, hnames⟩ := forall_mem_cons.1 hnames
  have hnames' : ∀ x ∈ (p.addSubroutine d).subroutines, IsWordName x.name := fun x hx => by
    rcases mem_put hx with rfl | hx
    · exact hname
    · exact hnames x hx
  have hstart : Alongside (p.subroutines.map (·.name)) ((p.addSubroutine d).subroutines.map (·.name)) True False
      { subroutines := p.subroutines.map (·.name.toList) }
      { subroutines := (p.addSubroutine d).subroutines.map (·.name.toList) } :=
    ⟨by rw [map_map]; rfl, by rw [map_map]; rfl, rfl, .refl _, fun _ => ⟨_, rfl⟩, False.elim⟩
  rw [Sketch.reads_program hp hnames, Sketch.reads_program (hp.addSubroutine hd) hnames']
  exact (hstart.foldl (mem_names_addSubroutine p d) (Stmt.allLines p.body)).mono (⟨trivial, ·⟩) Or.inr

end Program

/-! ### Literal calls -/

namespace Expr

theorem parens_not_mem_number {e : Expr} (h : e.IsNumber) : ∀ c ∈ ['(', ')'], c ∉ e.text := by
  have hchars : ∀ c ∈ ['(', ')'], isAngleChar c = false ∧ c.isDigit = false ∧ c ≠ '-' :=
    forall_mem_of_all (by decide)
  intro c hc hmem
  obtain ⟨hangle, hdigit, hsign⟩ := hchars c hc
  have hnot : isAngleChar c = true → False := fun h => Bool.false_ne_true (hangle.symm.trans h)
  cases e with
  | int n => exact not_mem_wordText hdigit hsign n hmem
  | float x => exact hnot ((isNumberText_floatText x).isAngleChar c hmem)
  | angle x => exact hnot (Angle.isAngleChar_of_mem_text hmem)
  | _ => cases h

theorem paren_not_mem_fixed {q : Expr} (h : q.IsFixed) : '(' ∉ q.text := by
  obtain ⟨w, hw, -⟩ := h
  rw [Wire.text_of_wire? hw]
  exact fun hmem => absurd (w.isWireChar_text _ hmem) (by decide)

end Expr

namespace Stmt

/-- A call of a native gate with literal angles on fixed qubits. -/
structure IsLiteralCall (name : String) (args qubits : List Expr) : Prop where
  native : ∃ g ∈ NativeGate.all, g.name = name ∧ g.angles = args.length
  args : ∀ e ∈ args, e.IsNumber
  ne_nil : qubits ≠ []
  qubits : ∀ q ∈ qubits, q.IsFixed

namespace IsLiteralCall

variable {name : String} {args qubits : List Expr} {names : List String} {n : String}

theorem isGateName (h : IsLiteralCall name args qubits) : Statement.IsGateName name := by
  obtain ⟨g, hg, rfl, -⟩ := h.native
  exact Statement.isGateName_native (mem_map_of_mem hg)

theorem paren_not_mem (h : IsLiteralCall name args qubits) : '(' ∉ name.toList := fun hmem =>
  absurd (h.isGateName.isWord _ hmem) (by decide)

/-- Of the parentheses in a literal call, only that after the name can be one of a call. -/
theorem shadowed (h : IsLiteralCall name args qubits) (htail : args ≠ [] → HasTail [n] name → HasTail names name) :
    (Stmt.gate name args qubits).Shadowed names n := by
  refine .gate h.paren_not_mem htail (forall_mem_append.2 ⟨fun e he => ?_, fun q hq => ?_⟩)
  · exact .plain (Expr.parens_not_mem_number (h.args e he) _ mem_cons_self)
  · exact .plain (Expr.paren_not_mem_fixed (h.qubits q hq))

theorem read_eq (h : IsLiteralCall name args qubits) :
    Statement.read (name.toList ++ (Statement.argsText args ++ ' ' :: (Expr.listText qubits ++ [';']))) =
      .gate name.toList (Expr.listText args) (Expr.listText qubits) := by
  have hargs : ')' ∉ Expr.listText args :=
    not_mem_listText (by decide) fun e he => Expr.parens_not_mem_number (h.args e he) _ (by decide)
  refine Statement.read_gate h.isGateName hargs ?_
  rw [Expr.listText, texts_eq_map]
  refine Statement.isOperands_commaSep (fun hnil => h.ne_nil (map_eq_nil_iff.1 hnil)) fun cs hcs => ?_
  obtain ⟨q, hq, rfl⟩ := mem_map.1 hcs
  exact (Sketch.isOperand_of_isFixed (h.qubits q hq)).operands

theorem isSome_op? (h : IsLiteralCall name args qubits) :
    (Statement.gate name.toList (Expr.listText args) (Expr.listText qubits)).op?.isSome := by
  have hwires : ∀ q ∈ qubits, q.wire?.isSome := fun q hq => by
    obtain ⟨w, hw, -⟩ := h.qubits q hq
    rw [hw]
    rfl
  have hindex : ∀ w ∈ qubits.filterMap Expr.wire?, (w.index : Int) ≤ Word.largest := fun w hw => by
    obtain ⟨q, hq, hqw⟩ := mem_filterMap.1 hw
    obtain ⟨v, hv, hindex⟩ := h.qubits q hq
    cases hv.symm.trans hqw
    exact hindex
  rw [Statement.op?, Sketch.listText_wires hwires,
    Operands.read_commaSep (Sketch.wires_ne_nil h.ne_nil hwires) hindex]
  rfl

/-- A literal call with an angle is lost once a tail of its name is known. -/
theorem loses (h : IsLiteralCall name args qubits) (hargs : args ≠ []) (hnames : ∀ m ∈ names, IsWordName m)
    (hn : HasTail [n] name) (hfresh : ¬ HasTail names name) :
    Sketch.Loses names n (.gate name args qubits) := by
  obtain ⟨e, es, rfl⟩ := exists_cons_of_ne_nil hargs
  obtain ⟨c, ds, hcons⟩ := exists_cons_of_ne_nil h.isGateName.ne_nil
  have hc : isWord c = true := h.isGateName.isWord c (hcons ▸ mem_cons_self)
  have hline : Sketch.written (.gate name (e :: es) qubits) ++ [';'] = name.toList ++ '(' ::
      (Expr.listText (e :: es) ++ ')' :: ' ' :: (Expr.listText qubits ++ [';'])) := by
    show name.toList ++ Statement.argsText (e :: es) ++ ' ' :: Expr.listText qubits ++ [';'] = _
    simp [Statement.argsText]
  have htrim : trim (Sketch.written (.gate name (e :: es) qubits) ++ [';']) =
      Sketch.written (.gate name (e :: es) qubits) ++ [';'] := by
    rw [trim_concat (by decide), hline, hcons, cons_append, trimLeft_cons (isBlank_of_isWord hc)]
  have hparen : '(' ∉ Expr.listText (e :: es) ++ ')' :: ' ' :: (Expr.listText qubits ++ [';']) := by
    have h₁ : '(' ∉ Expr.listText (e :: es) :=
      not_mem_listText (by decide) fun x hx => Expr.parens_not_mem_number (h.args x hx) _ mem_cons_self
    have h₂ : '(' ∉ Expr.listText qubits :=
      not_mem_listText (by decide) fun q hq => Expr.paren_not_mem_fixed (h.qubits q hq)
    simp [h₁, h₂]
  refine ⟨rfl, ?_, ?_, ?_, ?_⟩
  · rw [hline, hcons]
    exact isComment_word hc _
  · rw [htrim, hline]
    exact hn.hasCall _
  · rw [htrim, hline]
    intro hcall
    rcases hcall.hasTail_or hnames h.paren_not_mem with htail | hrest
    · exact hfresh htail
    · exact hparen hrest.paren_mem
  · have hread := h.read_eq
    have hgate : Sketch.written (.gate name (e :: es) qubits) ++ [';'] = name.toList ++
        (Statement.argsText (e :: es) ++ ' ' :: (Expr.listText qubits ++ [';'])) := by
      show name.toList ++ Statement.argsText (e :: es) ++ ' ' :: Expr.listText qubits ++ [';'] = _
      simp
    rw [htrim, hgate, hread]
    exact h.isSome_op?

end IsLiteralCall

/-- The ends of `phaseshift` that are no gates themselves. -/
def shiftTails : List String := ["haseshift", "aseshift", "seshift", "eshift", "shift", "hift", "ift", "ft"]

/-- The gates with angles whose names end with these. -/
def shiftGates : List String := ["phaseshift", "cphaseshift"]

theorem tails_native : ∀ g ∈ NativeGate.all, g.angles ≠ 0 → ∀ t ∈ g.name.toList.tails, t ≠ [] →
    String.ofList t ∉ NativeGate.all.map (·.name) → g.name ∈ shiftGates ∧ String.ofList t ∈ shiftTails := by
  decide

theorem suffix_shiftGates : ∀ g ∈ shiftGates, ∀ t ∈ shiftTails, t.toList <:+ g.toList := by
  decide

/-- A literal call can only be mistaken for one of a name that is no gate if it is a phase shift. -/
theorem IsLiteralCall.shift {name n : String} {args qubits : List Expr} (h : IsLiteralCall name args qubits)
    (hargs : args ≠ []) (hn : n.toList ≠ []) (hnative : n ∉ NativeGate.all.map (·.name)) (htail : HasTail [n] name) :
    name ∈ shiftGates ∧ n ∈ shiftTails := by
  obtain ⟨g, hg, rfl, hangles⟩ := h.native
  obtain ⟨m, hm, hsuffix⟩ := htail
  rw [mem_singleton.1 hm] at hsuffix
  have hpos : g.angles ≠ 0 := fun hzero => hargs (length_eq_zero_iff.1 (hangles.symm.trans hzero))
  have hshift := tails_native g hg hpos n.toList ((mem_tails _ _).2 hsuffix) hn
  rw [String.ofList_toList] at hshift
  exact hshift hnative

/-- The name is a tail of a phase shift in the lines, and none of the known names is. -/
def HidesShift (names : List String) (n : String) (sts : List Stmt) : Prop :=
  ∃ name args qubits, Stmt.gate name args qubits ∈ sts ∧ args ≠ [] ∧ name ∈ shiftGates ∧ n ∈ shiftTails ∧
    ¬ HasTail names name

end Stmt

/-! ### Circuits -/

namespace Circuit

def ofSketch (s : Sketch) : Except Fault Circuit :=
  Fault.length s.wires >>= fun n => pure ⟨n, schedule n s.ops.reverse, s.classical, s.physical⟩

theorem read_eq_ofSketch (cs : List Char) : read cs = ofSketch (Sketch.reads {} cs) := rfl

theorem wires_of_read {cs : List Char} {c : Circuit} (h : read cs = .ok c) :
    ((Sketch.reads {} cs).wires : Int) ≤ Fault.longest := by
  by_contra hno
  have hlength : Fault.length (Sketch.reads {} cs).wires = .error .lengthOverflow := by
    rw [Fault.length, if_neg (by omega), if_pos (by omega)]
  rw [read_eq_ofSketch, ofSketch, hlength] at h
  cases h

/-- A definition that the body does not call leaves the circuit as it is, unless its name is the end of the name
of a phase shift: then the phase shift is taken for a call, so that it is missing and control flow is noted. -/
theorem read_addSubroutine {p : Program} {d : SubroutineDef} (hp : p.Unbroken) (hd : d.Unbroken)
    (hnames : ∀ x ∈ d :: p.subroutines, x.name.toList ≠ [] ∧ x.name.toList.all isWord = true)
    (hnative : d.name ∉ NativeGate.all.map (·.name))
    (hbody : ∀ st ∈ Stmt.allLines p.body, st.Shadowed (p.subroutines.map (·.name)) d.name ∨
      ∃ name args qubits, st = .gate name args qubits ∧ Stmt.IsLiteralCall name args qubits) :
    (¬ Stmt.HidesShift (p.subroutines.map (·.name)) d.name (Stmt.allLines p.body) →
      read (p.addSubroutine d).text = read p.text) ∧
    (Stmt.HidesShift (p.subroutines.map (·.name)) d.name (Stmt.allLines p.body) → ∀ c, read p.text = .ok c →
      ∃ c', read (p.addSubroutine d).text = .ok c' ∧ c'.classical = true ∧ c'.ops.length < c.ops.length) := by
  have halong := Program.alongside_addSubroutine hp hd hnames
  obtain ⟨hname, hothers⟩ := List.forall_mem_cons.1 hnames
  have hwords : ∀ m ∈ p.subroutines.map (·.name), IsWordName m := fun m hm => by
    obtain ⟨x, hx, rfl⟩ := List.mem_map.1 hm
    exact hothers x hx
  refine ⟨fun hno => ?_, fun hhides c hread => ?_⟩
  · obtain ⟨x, hx⟩ := halong.same fun st hst hline => by
      have hshadowed : st.Shadowed (p.subroutines.map (·.name)) d.name := by
        rcases hbody st hst with h | ⟨name, args, qubits, rfl, hcall⟩
        · exact h
        · refine hcall.shadowed fun hargs htail => by_contra fun hfresh => hno ?_
          obtain ⟨hgate, hshift⟩ := hcall.shift hargs hname.1 hnative htail
          exact ⟨name, args, qubits, hst, hargs, hgate, hshift, hfresh⟩
      exact ((hshadowed.written hname hline).concat hname (by decide)).trim hwords
    rw [read_eq_ofSketch, read_eq_ofSketch, hx]
    rfl
  · obtain ⟨name, args, qubits, hmem, hargs, hgate, hshift, hfresh⟩ := hhides
    have htail : HasTail [d.name] name :=
      ⟨d.name, List.mem_singleton_self _, Stmt.suffix_shiftGates name hgate d.name hshift⟩
    have hcall : Stmt.IsLiteralCall name args qubits := by
      rcases hbody _ hmem with h | ⟨name', args', qubits', heq, hcall⟩
      · cases h with
        | control hcontrol => cases hcontrol
        | gate _ hshadowed _ => exact absurd (hshadowed hargs htail) hfresh
      · cases heq
        exact hcall
    obtain ⟨hclassical, hlength⟩ := halong.lost ⟨_, hmem, hcall.loses hargs hwords htail hfresh⟩
    have hwires := Sketch.wires_mono halong.numQubits halong.ops
    have hfits := wires_of_read hread
    obtain ⟨c', hread'⟩ := @exists_of_wires (p.addSubroutine d).text (by omega)
    obtain ⟨hops, -⟩ := eq_of_read hread
    obtain ⟨hops', hflow'⟩ := eq_of_read hread'
    refine ⟨c', hread', hflow'.trans hclassical, ?_⟩
    have h₁ := congrArg List.length hops
    have h₂ := congrArg List.length hops'
    rw [List.length_map, List.length_reverse] at h₁ h₂
    omega

/-- Two phase shifts, one of them in a box, and a gate without angles. -/
def shiftProgram : Program where
  subroutines := [⟨"twice", [⟨"q", some (Ty.qubit 0), none⟩], none, [.gate "h" [] [.ident "q" none]], false⟩]
  top := [
    .declare ⟨registerName, some (.qubit 2), none⟩,
    .gate "cphaseshift" [.angle 0.5] [.index registerExpr (.int 0), .index registerExpr (.int 1)],
    .box [.gate "phaseshift" [.angle 0.25] [.index registerExpr (.int 1)],
      .gate "x" [] [.index registerExpr (.int 0)]]]

def flipNamed (name : String) : SubroutineDef :=
  ⟨name, [⟨"q", some (Ty.qubit 0), none⟩], none, [.gate "x" [] [.ident "q" none]], false⟩

theorem unbroken_shiftProgram : shiftProgram.Unbroken where
  gates _ h := absurd h not_mem_nil
  calibrations _ h := absurd h not_mem_nil
  subroutines := forall_mem_singleton.2 ⟨by decide, by decide,
    forall_mem_singleton.2 (.gate (by decide) (by decide))⟩
  body := by
    have hbox : ∀ st ∈ [Stmt.gate "phaseshift" [.angle 0.25] [.index registerExpr (.int 1)],
        .gate "x" [] [.index registerExpr (.int 0)]], st.Unbroken :=
      forall_mem_cons.2 ⟨.gate (by decide) (by decide +kernel),
        forall_mem_singleton.2 (.gate (by decide) (by decide))⟩
    exact forall_mem_cons.2 ⟨.declare (by decide), forall_mem_cons.2
      ⟨.gate (by decide) (by decide +kernel), forall_mem_singleton.2 (.box hbox)⟩⟩

theorem unbroken_flipNamed {name : String} (h : '\n' ∉ name.toList) : (flipNamed name).Unbroken :=
  ⟨h, forall_mem_singleton.2 (by decide), forall_mem_singleton.2 (.gate (by decide) (by decide))⟩

theorem literal_shiftProgram (names : List String) (n : String) : ∀ st ∈ Stmt.allLines shiftProgram.body,
    st.Shadowed names n ∨ ∃ name args qubits, st = .gate name args qubits ∧ Stmt.IsLiteralCall name args qubits := by
  have hfirst : (Expr.index registerExpr (.int 0)).IsFixed := ⟨.register 0, rfl, by decide⟩
  have hsecond : (Expr.index registerExpr (.int 1)).IsFixed := ⟨.register 1, rfl, by decide⟩
  have hnone : ∀ e : Expr, none = some e → e.Shadowed names n := fun e he => by cases he
  have hcontrolled : Stmt.IsLiteralCall "cphaseshift" [.angle 0.5]
      [.index registerExpr (.int 0), .index registerExpr (.int 1)] :=
    ⟨⟨⟨"cphaseshift", 2, 1⟩, by decide, rfl, rfl⟩, forall_mem_singleton.2 trivial, cons_ne_nil _ _,
      forall_mem_cons.2 ⟨hfirst, forall_mem_singleton.2 hsecond⟩⟩
  have hboxed : Stmt.IsLiteralCall "phaseshift" [.angle 0.25] [.index registerExpr (.int 1)] :=
    ⟨⟨⟨"phaseshift", 1, 1⟩, by decide, rfl, rfl⟩, forall_mem_singleton.2 trivial, cons_ne_nil _ _,
      forall_mem_singleton.2 hsecond⟩
  have hplain : Stmt.IsLiteralCall "x" [] [.index registerExpr (.int 0)] :=
    ⟨⟨⟨"x", 1, 0⟩, by decide, rfl, rfl⟩, fun _ h => absurd h not_mem_nil, cons_ne_nil _ _,
      forall_mem_singleton.2 hfirst⟩
  exact forall_mem_cons.2 ⟨.inl (.declare (by decide) hnone), forall_mem_cons.2
    ⟨.inr ⟨_, _, _, rfl, hcontrolled⟩, forall_mem_cons.2
      ⟨.inr ⟨_, _, _, rfl, hboxed⟩, forall_mem_singleton.2 (.inr ⟨_, _, _, rfl, hplain⟩)⟩⟩⟩

/-- A subroutine `twist` changes nothing, and `shift` takes the phase shifts away. -/
theorem read_addSubroutine_twist_shift :
    read (shiftProgram.addSubroutine (flipNamed "twist")).text = read shiftProgram.text ∧
    Stmt.HidesShift ["twice"] "shift" (Stmt.allLines shiftProgram.body) ∧
    ∃ c c', read shiftProgram.text = .ok c ∧ c.classical = false ∧
      read (shiftProgram.addSubroutine (flipNamed "shift")).text = .ok c' ∧ c'.classical = true ∧
      c'.ops.length < c.ops.length := by
  have hnames : ∀ name, name.toList ≠ [] ∧ name.toList.all isWord = true →
      ∀ x ∈ flipNamed name :: shiftProgram.subroutines, x.name.toList ≠ [] ∧ x.name.toList.all isWord = true :=
    fun name h => List.forall_mem_cons.2 ⟨h, List.forall_mem_singleton.2 (by decide)⟩
  have htwist : ¬ Stmt.HidesShift ["twice"] "twist" (Stmt.allLines shiftProgram.body) := fun h => by
    obtain ⟨-, -, -, -, -, -, hshift, -⟩ := h
    exact absurd hshift (by decide)
  have hshift : Stmt.HidesShift ["twice"] "shift" (Stmt.allLines shiftProgram.body) := by
    refine ⟨_, _, _, List.mem_cons_of_mem _ List.mem_cons_self, List.cons_ne_nil _ _, by decide, by decide, ?_⟩
    rintro ⟨m, hm, hsuffix⟩
    rw [List.mem_singleton.1 hm] at hsuffix
    exact absurd hsuffix (by decide)
  have hwires : ((Sketch.reads {} shiftProgram.text).wires : Int) ≤ Fault.longest := by decide +kernel
  have hclassical : (Sketch.reads {} shiftProgram.text).classical = false := by decide +kernel
  obtain ⟨c, hread⟩ := exists_of_wires hwires
  refine ⟨?_, hshift, c, ?_⟩
  · exact (read_addSubroutine unbroken_shiftProgram (unbroken_flipNamed (by decide)) (hnames "twist" (by decide))
      (by decide) (literal_shiftProgram _ _)).1 htwist
  · obtain ⟨c', hread', hflow, hlength⟩ := (read_addSubroutine unbroken_shiftProgram
      (unbroken_flipNamed (by decide)) (hnames "shift" (by decide)) (by decide)
      (literal_shiftProgram _ _)).2 hshift c hread
    exact ⟨c', hread, (eq_of_read hread).2.trans hclassical, hread', hflow, hlength⟩

/-- Control flow and the number of operations in the circuit of a program. -/
def tally (p : Program) : Option (Bool × Nat) :=
  (read p.text).toOption.map fun c => (c.classical, c.ops.length)

theorem shift_hides_phase_shifts : tally shiftProgram = some (false, 3) ∧
    tally (shiftProgram.addSubroutine (flipNamed "shift")) = some (true, 1) :=
  ⟨by decide +kernel, by decide +kernel⟩

end Circuit

end QasmStudio
