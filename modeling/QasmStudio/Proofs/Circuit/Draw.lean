import QasmStudio.Proofs.Circuit.Take

/-!
# What statements add to a circuit

`Stmt.Reads st r` says that the line of a statement is read as `r`: one lemma for each kind of statement.
`Sketch.draw` adds operations to a sketch and notes control flow. A legible statement adds what `Stmt.drawn` and
`Stmt.hasControl` say of it, and so do the statements of a body one after another.
-/

namespace QasmStudio

open Text List Statement

variable {init : Option Expr} {st : Stmt}

/-! ### Legible statements keep to their lines -/

theorem newline_not_mem_wire (w : Wire) : '\n' ∉ w.text := fun hmem => absurd (w.isWireChar_text _ hmem) (by decide)

theorem newline_not_mem_of_wire? {e : Expr} (h : e.wire?.isSome) : '\n' ∉ e.text := by
  obtain ⟨w, hw⟩ := Option.isSome_iff_exists.1 h
  rw [Wire.text_of_wire? hw]
  exact newline_not_mem_wire w

theorem Expr.IsTarget.newline_not_mem {e : Expr} (h : e.IsTarget) : '\n' ∉ e.text := by
  cases h with
  | var hname => exact hname.newline_not_mem
  | @element name _ _ i hname =>
    show '\n' ∉ name.toList ++ '[' :: (Word.text i ++ [']'])
    simp [hname.newline_not_mem, newline_not_mem_text]

theorem newline_not_mem_declaration {name : String} {ty : Option Ty}
    (hname : '\n' ∉ name.toList) (hinit : ∀ e, init = some e → '\n' ∉ e.text) :
    '\n' ∉ (Var.mk name ty init).declaration := by
  have hty := newline_not_mem_tyText ty
  cases init with
  | none =>
    show '\n' ∉ tyText ty ++ ' ' :: (name.toList ++ [])
    simp [hty, hname]
  | some e =>
    show '\n' ∉ tyText ty ++ ' ' :: (name.toList ++ (" = ".toList ++ e.text))
    simp [hty, hname, hinit e rfl]

theorem newline_not_mem_parameter {v : Var} (h : IsGenerated v.name) : '\n' ∉ v.parameter := by
  show '\n' ∉ tyText v.ty ++ ' ' :: v.name.toList
  simp [newline_not_mem_tyText, h.newline_not_mem]

theorem newline_not_mem_measure {q : Expr} (h : q.wire?.isSome) : '\n' ∉ (Expr.measure q).text := by
  show '\n' ∉ "measure ".toList ++ q.text
  simp [newline_not_mem_of_wire? h]

theorem Stmt.Legible.unbroken (h : st.Legible) : st.Unbroken := by
  induction h with
  | @gate name angles qubits hname _ hqubits =>
    refine .gate (fun hmem => ?_) fun e he => ?_
    · exact (isGateName_native hname).newline_not_mem hmem
    · rcases mem_append.1 he with he | he
      · obtain ⟨x, -, rfl⟩ := mem_map.1 he
        exact fun hmem => absurd (Angle.isAngleChar_of_mem_text hmem) (by decide)
      · exact newline_not_mem_of_wire? (hqubits e he)
  | reset hq => exact .reset (newline_not_mem_of_wire? hq)
  | barrier hqubits => exact .barrier fun q hq => newline_not_mem_of_wire? (hqubits q hq)
  | declare hname _ hinit =>
    exact .declare (newline_not_mem_declaration hname.newline_not_mem fun e he => (hinit e he).isDataText.newline)
  | measure hname hq =>
    refine .declare (newline_not_mem_declaration hname.newline_not_mem fun e he => ?_)
    cases he
    exact newline_not_mem_measure hq
  | assign ht hv => exact .assign ht.newline_not_mem hv.isDataText.newline
  | measureInto ht hq => exact .assign ht.newline_not_mem (newline_not_mem_measure hq)
  | pragma ht => exact .pragma ht
  | box _ ih => exact .box ih
  | branch hcond _ _ ihthn ihels => exact .branch hcond.isDataText.newline ihthn ihels
  | @forIn v iter body hname hiter _ ih =>
    exact .forIn (newline_not_mem_parameter hname) hiter.isDataText.newline ih
  | «while» hcond _ ih => exact .while hcond.isDataText.newline ih

/-! ### Lines of statements -/

theorem Text.exists_word_cons {w : List Char} (hne : w ≠ []) (hw : w.all isWord = true) (x : List Char) :
    ∃ c cs, w ++ x = c :: cs ∧ isWord c = true := by
  obtain ⟨c, cs, rfl⟩ := exists_cons_of_ne_nil hne
  exact ⟨c, cs ++ x, rfl, all_eq_true.1 hw c mem_cons_self⟩

theorem exists_tyText_cons (t : Option Ty) : ∃ c cs, tyText t = c :: cs ∧ isWord c = true := by
  cases t with
  | none => exact ⟨'v', _, rfl, by decide⟩
  | some t =>
    obtain ⟨kind, size, elem, dims⟩ := t
    have hsized : ∀ k : Kind, ∃ cs, (if 0 < size then Ty.sized k size else k.text) = k.text ++ cs := fun k => by
      split
      · exact ⟨_, rfl⟩
      · exact ⟨[], (append_nil _).symm⟩
    cases kind with
    | bit =>
      obtain ⟨cs, hcs⟩ := hsized .bit
      exact ⟨'b', _, hcs, by decide⟩
    | qubit =>
      obtain ⟨cs, hcs⟩ := hsized .qubit
      exact ⟨'q', _, hcs, by decide⟩
    | array =>
      cases elem with
      | none => exact ⟨'a', _, rfl, by decide⟩
      | some t => exact ⟨'a', _, rfl, by decide⟩
    | _ => exact ⟨_, _, rfl, by decide⟩

namespace Stmt

open Sketch (isLine written)

/-- The line of the statement starts with a word and is read as `r`. -/
structure Reads (st : Stmt) (r : Statement) : Prop where
  line : isLine st = true
  word : ∃ c cs, written st = c :: cs ∧ isWord c = true
  read : Statement.read (written st ++ [';']) = r

namespace Reads
variable {name : String} {target q value : Expr} {args qubits : List Expr} {idx : List Char} {w : Wire}

theorem gate (hname : Statement.IsGateName name) (hargs : ')' ∉ Expr.listText args)
    (hqubits : Statement.IsOperands (Expr.listText qubits)) :
    (Stmt.gate name args qubits).Reads (.gate name.toList (Expr.listText args) (Expr.listText qubits)) := by
  have hline : written (.gate name args qubits) =
      name.toList ++ (Statement.argsText args ++ ' ' :: Expr.listText qubits) := append_assoc ..
  refine ⟨rfl, hline ▸ exists_word_cons hname.ne_nil hname.word _, ?_⟩
  rw [← read_gate hname hargs hqubits, hline]
  simp

theorem reset (hw : q.wire? = some w) : (Stmt.reset q).Reads (.reset w.text) := by
  refine ⟨rfl, ⟨'r', _, rfl, by decide⟩, ?_⟩
  rw [← read_reset, ← Wire.text_of_wire? hw]
  rfl

theorem barrier (hne : qubits ≠ []) (hqubits : Statement.IsOperands (Expr.listText qubits)) :
    (Stmt.barrier qubits).Reads (.barrier (some (Expr.listText qubits))) := by
  obtain ⟨q, qs, rfl⟩ := exists_cons_of_ne_nil hne
  exact ⟨rfl, ⟨'b', _, rfl, by decide⟩, read_barrier hqubits⟩

theorem declare {ty : Option Ty} : (Stmt.declare ⟨name, ty, init⟩).Reads
    (Statement.read (written (.declare ⟨name, ty, init⟩) ++ [';'])) := by
  obtain ⟨c, cs, hcs, hc⟩ := exists_tyText_cons ty
  refine ⟨rfl, ?_, rfl⟩
  show ∃ d ds, tyText ty ++ _ = d :: ds ∧ _
  rw [hcs]
  exact ⟨c, _, rfl, hc⟩

theorem measure (hname : Statement.IsIdentifier name) {ty : Ty} (hty : ty.kind = .bit) (hw : q.wire? = some w) :
    (Stmt.declare ⟨name, some ty, some (.measure q)⟩).Reads (.measure w.text) := by
  refine ⟨rfl, declare.word, ?_⟩
  rw [← read_measure hname hty, ← Wire.text_of_wire? hw]
  congr 1
  show ty.text ++ ' ' :: (name.toList ++ (" = ".toList ++ ("measure ".toList ++ q.text))) ++ [';'] = _
  simp

/-- What follows the name in a declaration without a measurement. -/
theorem exists_declared (hname : Statement.IsIdentifier name) (ty : Option Ty)
    (hinit : ∀ e, init = some e → Statement.IsPlain e.text) : ∃ x, Statement.IsDeclared name x ∧
      written (.declare ⟨name, ty, init⟩) ++ [';'] = tyText ty ++ ' ' :: (name.toList ++ x) := by
  cases init with
  | none =>
    refine ⟨[';'], ⟨hname, .inl rfl⟩, ?_⟩
    show tyText ty ++ ' ' :: (name.toList ++ []) ++ [';'] = _
    simp
  | some e =>
    refine ⟨" = ".toList ++ (e.text ++ [';']), ⟨hname, .inr ⟨_, rfl, (hinit e rfl).append⟩⟩, ?_⟩
    show tyText ty ++ ' ' :: (name.toList ++ (" = ".toList ++ e.text)) ++ [';'] = _
    simp

theorem data (hname : Statement.IsIdentifier name) {ty : Ty} (hty : ty.IsClassical)
    (hinit : ∀ e, init = some e → Statement.IsPlain e.text) : (Stmt.declare ⟨name, some ty, init⟩).Reads .other := by
  obtain ⟨x, hx, htext⟩ := exists_declared hname (some ty) hinit
  exact ⟨rfl, declare.word, htext ▸ hx.read_eq hty⟩

theorem assignment (hname : Statement.IsAssignment name idx) (ht : target.text = name.toList ++ idx) (value : Expr) :
    (∃ c cs, written (.assign target value) = c :: cs ∧ isWord c = true) ∧
      written (.assign target value) ++ [';'] = name.toList ++ (idx ++ (" = ".toList ++ (value.text ++ [';']))) := by
  have hline : written (.assign target value) = name.toList ++ (idx ++ (" = ".toList ++ value.text)) := by
    show target.text ++ " = ".toList ++ value.text = _
    rw [ht]
    simp
  rw [hline]
  exact ⟨exists_word_cons hname.name.ne_nil hname.name.word _, by simp⟩

theorem assign (hname : Statement.IsAssignment name idx) (ht : target.text = name.toList ++ idx) (hidx : '=' ∉ idx)
    (hv : Statement.IsPlain value.text) : (Stmt.assign target value).Reads .other := by
  obtain ⟨hword, hline⟩ := assignment hname ht value
  exact ⟨rfl, hword, hline ▸ read_assign hname hidx hv.append⟩

theorem measureInto (hname : Statement.IsAssignment name idx) (ht : target.text = name.toList ++ idx)
    (hidx : ∀ c ∈ idx, Statement.isTargetChar c = true) (hw : q.wire? = some w) :
    (Stmt.assign target (.measure q)).Reads (.measure w.text) := by
  obtain ⟨hword, hline⟩ := assignment hname ht (.measure q)
  refine ⟨rfl, hword, ?_⟩
  rw [hline, ← read_measureInto hname hidx, ← Wire.text_of_wire? hw]
  rfl

end Reads

end Stmt

/-! ### What statements add -/

def Drawn.op (d : Drawn) : Op :=
  ⟨d.name, d.wires.map Wire.index, d.angles.filterMap fun x => Angle.read? (Angle.text x)⟩

def Drawn.Fits (d : Drawn) : Prop := ∀ w ∈ d.wires, (w.index : Int) ≤ Word.largest

namespace Sketch

variable {s : Sketch} {cs : List Char} {qubits : List Expr}

/-- Adds operations, and notes control flow. -/
def draw (s : Sketch) (ds : List Drawn) (control : Bool) : Sketch :=
  { s with
    ops := (ds.map Drawn.op).reverse ++ s.ops
    classical := s.classical || control
    physical := s.physical || ds.any fun d => d.wires.any Wire.isPhysical }

theorem draw_nil : s.draw [] false = s := by simp [draw]

theorem draw_draw (ds ds' : List Drawn) (b b' : Bool) :
    (s.draw ds b).draw ds' b' = s.draw (ds ++ ds') (b || b') := by
  simp [draw, Bool.or_assoc]

theorem addOp_eq_draw (name : String) (ws : List Wire) (angles : List Float) :
    s.addOp name (angles.filterMap fun x => Angle.read? (Angle.text x))
      ⟨some (ws.map Wire.index), ws.any Wire.isPhysical⟩ = s.draw [⟨name, ws, angles⟩] false := by
  simp [addOp, draw, Drawn.op]

theorem take_of_reads {r : Statement} (h : st.Reads r) : s.take st = s.statement (written st ++ [';']) := by
  obtain ⟨c, cs, hcs, hc⟩ := h.word
  have htrim : trim (written st ++ [';']) = written st ++ [';'] := by
    rw [trim_concat (by decide), hcs]
    exact trimLeft_cons (isBlank_of_isWord hc)
  have hcomment : isComment (written st ++ [';']) = false := by
    rw [hcs]
    exact isComment_word hc _
  rw [take, if_pos h.line, hcomment, if_neg (by decide), htrim]

theorem take_eq_note (hs : s.subroutines = []) {r : Statement} (h : st.Reads r) : s.take st = s.note r := by
  rw [take_of_reads h, statement_of_not_calls (by simp [calls, hs]), h.read]

theorem listText_angles (angles : List Float) :
    Expr.listText (angles.map Expr.angle) = commaSep (angles.map Angle.text) := by
  have htexts : Expr.texts (angles.map Expr.angle) = angles.map Angle.text := by
    rw [texts_eq_map, map_map]
    rfl
  exact congrArg commaSep htexts

theorem not_mem_listText_angles {c : Char} (hc : isAngleChar c = false) (hsep : c ∉ [',', ' '])
    (angles : List Float) : c ∉ Expr.listText (angles.map Expr.angle) := by
  refine not_mem_listText hsep fun e he hmem => ?_
  obtain ⟨x, -, rfl⟩ := mem_map.1 he
  rw [Angle.isAngleChar_of_mem_text hmem] at hc
  cases hc

theorem wires_ne_nil (hne : qubits ≠ []) (hq : ∀ q ∈ qubits, q.wire?.isSome) :
    qubits.filterMap Expr.wire? ≠ [] := by
  obtain ⟨q, qs, rfl⟩ := exists_cons_of_ne_nil hne
  obtain ⟨w, hw⟩ := Option.isSome_iff_exists.1 (hq q mem_cons_self)
  rw [filterMap_cons_some hw]
  exact cons_ne_nil _ _

theorem listText_wires (hq : ∀ q ∈ qubits, q.wire?.isSome) :
    Expr.listText qubits = commaSep ((qubits.filterMap Expr.wire?).map Wire.text) :=
  congrArg commaSep (Wire.texts_of_wires hq)

theorem note_gate {name : List Char} {angles : List Float} {ws : List Wire} (hne : ws ≠ [])
    (hfits : ∀ w ∈ ws, (w.index : Int) ≤ Word.largest) :
    s.note (.gate name (commaSep (angles.map Angle.text)) (commaSep (ws.map Wire.text))) =
      s.draw [⟨String.ofList (name.map upperAscii), ws, angles⟩] false := by
  have hcomma : ∀ cs ∈ angles.map Angle.text, ',' ∉ cs := by
    intro cs hcs hmem
    obtain ⟨x, -, rfl⟩ := mem_map.1 hcs
    exact absurd (Angle.isAngleChar_of_mem_text hmem) (by decide)
  show s.addGate _ _ _ = _
  unfold addGate
  rw [Operands.read_commaSep hne hfits, angles_commaSep hcomma, filterMap_map]
  exact addOp_eq_draw _ ws angles

theorem note_wire {w : Wire} (hw : (w.index : Int) ≤ Word.largest) :
    s.note (.measure w.text) = s.draw [⟨"MEASURE", [w], []⟩] false ∧
      s.note (.reset w.text) = s.draw [⟨"RESET", [w], []⟩] false := by
  have hoperands := Operands.read_wire hw
  constructor
  · show s.addOp _ _ _ = _
    rw [hoperands]
    exact addOp_eq_draw "MEASURE" [w] []
  · show s.addOp _ _ _ = _
    rw [hoperands]
    exact addOp_eq_draw "RESET" [w] []

theorem note_barrier {ws : List Wire} (hne : ws ≠ []) (hfits : ∀ w ∈ ws, (w.index : Int) ≤ Word.largest) :
    s.note (.barrier (some (commaSep (ws.map Wire.text)))) = s.draw [⟨"BARRIER", ws, []⟩] false := by
  show s.addOp _ _ _ = _
  rw [Operands.read_commaSep hne hfits]
  exact addOp_eq_draw "BARRIER" ws []

theorem drawn_data {value : Expr} (h : value.IsData) (name : String) (ty : Option Ty) (target : Expr) :
    (Stmt.declare ⟨name, ty, some value⟩).drawn = [] ∧ (Stmt.assign target value).drawn = [] := by
  cases h <;> exact ⟨rfl, rfl⟩

theorem take_gate (hs : s.subroutines = []) {name : String} (hname : name ∈ NativeGate.all.map (·.name))
    (angles : List Float) (hne : qubits ≠ []) (hq : ∀ q ∈ qubits, q.wire?.isSome)
    (hfits : ∀ d ∈ (Stmt.gate name (angles.map .angle) qubits).drawn, d.Fits) :
    s.take (.gate name (angles.map .angle) qubits) =
      s.draw (Stmt.gate name (angles.map .angle) qubits).drawn false := by
  have hangles : (angles.map Expr.angle).filterMap Expr.angle? = angles := by
    rw [filterMap_map]
    exact filterMap_some
  have hdrawn : (Stmt.gate name (angles.map .angle) qubits).drawn =
      [⟨String.ofList (name.toList.map upperAscii), qubits.filterMap Expr.wire?, angles⟩] := by
    show [Drawn.mk _ _ ((angles.map Expr.angle).filterMap Expr.angle?)] = _
    rw [hangles]
  have hwires := wires_ne_nil hne hq
  have hoperands : Statement.IsOperands (Expr.listText qubits) := by
    rw [listText_wires hq]
    exact isOperands_wires hwires
  rw [take_eq_note hs (.gate (isGateName_native hname)
    (not_mem_listText_angles (by decide) (by decide) angles) hoperands), listText_angles, listText_wires hq, hdrawn]
  exact note_gate hwires (hfits _ mem_cons_self)

theorem take_barrier (hs : s.subroutines = []) (hq : ∀ q ∈ qubits, q.wire?.isSome)
    (hfits : ∀ d ∈ (Stmt.barrier qubits).drawn, d.Fits) :
    s.take (.barrier qubits) = s.draw (Stmt.barrier qubits).drawn false := by
  cases qubits with
  | nil =>
    rw [take_eq_note hs (r := .barrier none) ⟨rfl, ⟨'b', _, rfl, by decide⟩, rfl⟩]
    exact addOp_eq_draw "BARRIER" [] []
  | cons q qs =>
    have hwires := wires_ne_nil (cons_ne_nil q qs) hq
    have hoperands : Statement.IsOperands (Expr.listText (q :: qs)) := by
      rw [listText_wires hq]
      exact isOperands_wires hwires
    rw [take_eq_note hs (.barrier (cons_ne_nil q qs) hoperands), listText_wires hq]
    exact note_barrier hwires (hfits _ mem_cons_self)

/-! ### Statements of any depth -/

theorem foldl_take_allLines {body : List Stmt} (h : ∀ st ∈ body, ∀ s : Sketch, s.subroutines = [] →
      (∀ d ∈ st.drawn, d.Fits) → st.lines.foldl take s = s.draw st.drawn st.hasControl)
    (hs : s.subroutines = []) (hfits : ∀ d ∈ Stmt.allDrawn body, d.Fits) :
    (Stmt.allLines body).foldl take s = s.draw (Stmt.allDrawn body) (Stmt.anyControl body) := by
  induction body generalizing s with
  | nil => exact draw_nil.symm
  | cons st sts ih =>
    obtain ⟨hst, hsts⟩ := forall_mem_cons.1 h
    have hs' : (s.draw st.drawn st.hasControl).subroutines = [] := hs
    rw [Stmt.allLines, foldl_append, hst s hs fun d hd => hfits d (mem_append_left _ hd),
      ih hsts hs' fun d hd => hfits d (mem_append_right _ hd)]
    exact draw_draw ..

theorem foldl_take_lines (h : st.Legible) : ∀ s : Sketch, s.subroutines = [] →
    (∀ d ∈ st.drawn, d.Fits) → st.lines.foldl take s = s.draw st.drawn st.hasControl := by
  have hflow : ∀ s : Sketch, ({ s with classical := true } : Sketch) = s.draw [] true := fun s => by simp [draw]
  have hmeasured : ∀ {q : Expr} {w : Wire}, q.wire? = some w → [Drawn.mk "MEASURE" q.wire?.toList []] =
      [⟨"MEASURE", [w], []⟩] := fun hw => by
    rw [hw]
    rfl
  induction h with
  | gate hname hne hq => exact fun s hs hfits => take_gate hs hname _ hne hq hfits
  | barrier hq => exact fun s hs hfits => take_barrier hs hq hfits
  | @reset q hq =>
    intro s hs hfits
    obtain ⟨w, hw⟩ := Option.isSome_iff_exists.1 hq
    have hdrawn : (Stmt.reset q).drawn = [⟨"RESET", [w], []⟩] := by
      show [Drawn.mk _ q.wire?.toList []] = _
      rw [hw]
      rfl
    rw [hdrawn] at hfits ⊢
    exact (take_eq_note hs (.reset hw)).trans (note_wire (hfits _ mem_cons_self w mem_cons_self)).2
  | @declare name ty init hname hty hinit =>
    intro s hs _
    have hdrawn : (Stmt.declare ⟨name, some ty, init⟩).drawn = [] := by
      cases init with
      | none => rfl
      | some e => exact (drawn_data (hinit e rfl) name (some ty) e).1
    rw [hdrawn]
    refine (take_eq_note hs (.data (isIdentifier_generated hname) hty fun e he => ?_)).trans draw_nil.symm
    exact isPlain_data (hinit e he).isDataText
  | @measure name q hname hq =>
    intro s hs hfits
    obtain ⟨w, hw⟩ := Option.isSome_iff_exists.1 hq
    have hdrawn : (Stmt.declare ⟨name, some (Ty.bit 0), some (.measure q)⟩).drawn = _ := hmeasured hw
    have hread : (Stmt.declare ⟨name, some (Ty.bit 0), some (.measure q)⟩).Reads (.measure w.text) :=
      .measure (isIdentifier_generated hname) rfl hw
    rw [hdrawn] at hfits ⊢
    exact (take_eq_note hs hread).trans (note_wire (hfits _ mem_cons_self w mem_cons_self)).1
  | @assign target value ht hv =>
    intro s hs _
    obtain ⟨name, idx, hname, htarget, hidx, hchars⟩ := exists_text_target ht
    have hequals : '=' ∉ idx := fun hmem => absurd (hchars _ hmem) (by decide)
    rw [(drawn_data hv name none target).2]
    exact (take_eq_note hs (.assign ⟨isIdentifier_generated hname, hidx⟩ htarget hequals
      (isPlain_data hv.isDataText))).trans draw_nil.symm
  | @measureInto target q ht hq =>
    intro s hs hfits
    obtain ⟨name, idx, hname, htarget, hidx, hchars⟩ := exists_text_target ht
    obtain ⟨w, hw⟩ := Option.isSome_iff_exists.1 hq
    have hdrawn : (Stmt.assign target (.measure q)).drawn = _ := hmeasured hw
    rw [hdrawn] at hfits ⊢
    exact (take_eq_note hs (.measureInto ⟨isIdentifier_generated hname, hidx⟩ htarget hchars hw)).trans
      (note_wire (hfits _ mem_cons_self w mem_cons_self)).1
  | pragma => exact fun s _ _ => draw_nil.symm
  | box _ ih => exact fun s hs hfits => foldl_take_allLines ih hs hfits
  | branch => exact fun s _ _ => hflow s
  | forIn => exact fun s _ _ => hflow s
  | «while» => exact fun s _ _ => hflow s

end Sketch

end QasmStudio
