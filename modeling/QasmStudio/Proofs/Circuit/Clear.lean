import QasmStudio.Proofs.Circuit.Extent

/-!
# Clear programs

A program is clear if each of its lines can be told apart by a reader that knows nothing of scopes and
types: names are identifiers, operations other than gate calls are on fixed qubits, angles are written
without parentheses, and a measurement is stored as it is. Gates, their angles and the operands of gate
calls may be anything else. `Stmt.operations` lists the operations of a statement, in control flow too, and
`Stmt.Shows` says what an operation of a circuit has to do with one.

`Statement.op?` is what a line adds to a circuit. A line of a clear program that is no operation adds nothing:
it is read as nothing, or as an operation on something that is no fixed qubit.
-/

namespace QasmStudio

open Text List Option

variable {cs : List Char}

/-! ### Operations of a program -/

namespace Expr

mutual
/-- Is there a measurement in the expression? -/
def measures : Expr → Bool
  | .measure _ => true
  | .index base idx => base.measures || idx.measures
  | .binary _ l r => l.measures || r.measures
  | .unary _ x => x.measures
  | .call _ args _ => anyMeasures args
  | .range start stop none => start.measures || stop.measures
  | .range start stop (some step) => start.measures || stop.measures || step.measures
  | .array elems _ => anyMeasures elems
  | _ => false

def anyMeasures : List Expr → Bool
  | [] => false
  | e :: es => e.measures || anyMeasures es
end

def IsNumber : Expr → Prop
  | .int n => Word.InRange n
  | .float _ | .angle _ => True
  | _ => False

/-- The expression is the fixed qubit with that index. -/
def Denotes (q : Expr) (i : Nat) : Prop := ∃ w, q.wire? = some w ∧ w.index = i

end Expr

namespace Stmt

/-- Measurements inside of expressions, each as a statement of its own. -/
def measured (es : List Expr) : List Stmt := (es.filter Expr.measures).map .eval

theorem measured_eq_nil {es : List Expr} (h : ∀ e ∈ es, e.measures = false) : measured es = [] := by
  have hfilter : es.filter Expr.measures = [] :=
    filter_eq_nil_iff.2 fun e he hm => Bool.false_ne_true ((h e he).symm.trans hm)
  rw [measured, hfilter, map_nil]

mutual
/-- The gate calls, measurements, resets and barriers of a statement, in order. -/
def operations : Stmt → List Stmt
  | .gate name args qubits => measured args ++ [.gate name args qubits]
  | .reset q => [.reset q]
  | .barrier qubits => [.barrier qubits]
  | .declare ⟨name, ty, some (.measure q)⟩ => [.declare ⟨name, ty, some (.measure q)⟩]
  | .declare v => measured v.init.toList
  | .assign target (.measure q) => measured [target] ++ [.assign target (.measure q)]
  | .assign target value => measured [target, value]
  | .eval e => measured [e]
  | .delay duration targets => measured (duration :: targets)
  | .return value => measured value.toList
  | .branch cond thn els => measured [cond] ++ (allOperations thn ++ allOperations els)
  | .forIn _ iter body => measured [iter] ++ allOperations body
  | .while cond body => measured [cond] ++ allOperations body
  | .box body => allOperations body
  | .break | .continue | .pragma _ => []

def allOperations : List Stmt → List Stmt
  | [] => []
  | st :: sts => st.operations ++ allOperations sts
end

/-- What a circuit shows of a statement: the name in capitals, the indices of the qubits, and the angles
that can be read, all of them if they are numbers. -/
inductive Shows : Stmt → Op → Prop
  | gate {name : String} {args qubits : List Expr} {is : List Nat} {params : List Float} :
      Forall₂ Expr.Denotes qubits is → params = args.filterMap (fun e => Angle.read? e.text) →
      ((∀ e ∈ args, e.IsNumber) → params.length = args.length) →
      Shows (.gate name args qubits) ⟨String.ofList (name.toList.map upperAscii), is, params⟩
  | reset {q : Expr} {i : Nat} : q.Denotes i → Shows (.reset q) ⟨"RESET", [i], []⟩
  | barrier {qubits : List Expr} {is : List Nat} :
      Forall₂ Expr.Denotes qubits is → Shows (.barrier qubits) ⟨"BARRIER", is, []⟩
  | measure {name : String} {ty : Option Ty} {q : Expr} {i : Nat} :
      q.Denotes i → Shows (.declare ⟨name, ty, some (.measure q)⟩) ⟨"MEASURE", [i], []⟩
  | measureInto {target q : Expr} {i : Nat} :
      q.Denotes i → Shows (.assign target (.measure q)) ⟨"MEASURE", [i], []⟩

end Stmt

/-! ### Clear statements -/

namespace Expr

/-- A fixed qubit whose index is a word. -/
def IsFixed (q : Expr) : Prop := ∃ w, q.wire? = some w ∧ (w.index : Int) ≤ Word.largest

/-- An operand that is a fixed qubit just if it reads as one. -/
structure IsOperand (q : Expr) : Prop where
  operands : Statement.IsOperands q.text
  newline : '\n' ∉ q.text
  reads : (Operands.read q.text).qubits = q.wire?.map fun w => [w.index]

/-- An angle, a number or not, that is one text between the commas of a call. -/
structure IsArgument (e : Expr) : Prop where
  chars : ∀ c ∈ e.text, c ∉ [')', ',', '\n']
  measures : e.measures = false

/-- A value that measures nothing, and whose text does not look as if it did. -/
structure IsValue (e : Expr) : Prop where
  plain : Statement.IsPlain e.text
  newline : '\n' ∉ e.text
  measures : e.measures = false

/-- A variable or an element of one. -/
structure IsPlace (e : Expr) : Prop where
  text : ∃ name idx, Statement.IsAssignment name idx ∧ e.text = name.toList ++ idx
  chars : ∀ c ∈ e.text, c ∉ ['=', '\n']
  measures : e.measures = false

end Expr

namespace Stmt

inductive Clear : Stmt → Prop
  | gate {name : String} {args qubits : List Expr} : Statement.IsGateName name →
      (∀ e ∈ args, e.IsArgument) → qubits ≠ [] → (∀ q ∈ qubits, q.IsOperand) →
      Clear (.gate name args qubits)
  | reset {q : Expr} : q.IsFixed → Clear (.reset q)
  | barrier {qubits : List Expr} : (∀ q ∈ qubits, q.IsFixed) → Clear (.barrier qubits)
  | measure {name : String} {ty : Ty} {q : Expr} : Statement.IsIdentifier name → ty.kind = .bit →
      q.IsFixed → Clear (.declare ⟨name, some ty, some (.measure q)⟩)
  | measureInto {target q : Expr} : target.IsPlace → (∀ c ∈ target.text, Statement.isTargetChar c = true) →
      q.IsFixed → Clear (.assign target (.measure q))
  | declare {v : Var} : Statement.IsIdentifier v.name → (∀ e, v.init = some e → e.IsValue) →
      Clear (.declare v)
  | assign {target value : Expr} : target.IsPlace → value.IsValue → Clear (.assign target value)
  | call {name : String} {args : List Expr} {returns : Option Ty} : Statement.IsIdentifier name →
      (∀ e ∈ args, '\n' ∉ e.text ∧ e.measures = false) → Clear (.eval (.call name args returns))
  | delay {duration : Expr} {targets : List Expr} :
      (∀ e ∈ duration :: targets, (∀ c ∈ e.text, c ∉ ['=', '\n']) ∧ e.measures = false) →
      Clear (.delay duration targets)
  | break : Clear .break
  | continue : Clear .continue
  | return {value : Option Expr} : (∀ e, value = some e → e.IsValue ∧ Stops (fun c => isSpace c || c = '=') e.text) →
      Clear (.return value)
  | pragma {text : String} : '\n' ∉ text.toList → Clear (.pragma text)
  | box {body : List Stmt} : (∀ st ∈ body, Clear st) → Clear (.box body)
  -- the header of control flow is enough for it to be noted
  | branch {cond : Expr} {thn els : List Stmt} : '\n' ∉ cond.text → Clear (.branch cond thn els)
  | forIn {v : Var} {iter : Expr} {body : List Stmt} : '\n' ∉ v.parameter → '\n' ∉ iter.text →
      Clear (.forIn v iter body)
  | while {cond : Expr} {body : List Stmt} : '\n' ∉ cond.text → Clear (.while cond body)

end Stmt

structure Program.Clear (p : Program) : Prop where
  gates : ∀ d ∈ p.gates, d.Unbroken
  calibrations : ∀ d ∈ p.calibrations, d.Unbroken
  subroutines : ∀ d ∈ p.subroutines, d.Unbroken
  body : ∀ st ∈ p.body, st.Clear

/-! ### Operands, one by one -/

namespace Text

variable {sep c : Char}

theorem split_sep (xs ys : List Char) : split sep (xs ++ sep :: ys) = split sep xs ++ split sep ys := by
  induction xs with
  | nil => simp [split]
  | cons x xs ih =>
    rw [cons_append, split, split, ih]
    obtain ⟨first, others, hs⟩ := exists_cons_of_ne_nil (split_ne_nil sep xs)
    rw [hs]
    split
    · rfl
    · rfl

theorem exists_mem_split (h : c ∈ cs) (hc : c ≠ sep) : ∃ part ∈ split sep cs, c ∈ part := by
  induction cs with
  | nil => cases h
  | cons d cs ih =>
    obtain ⟨first, others, hs⟩ := exists_cons_of_ne_nil (split_ne_nil sep cs)
    rw [split, hs]
    rw [hs] at ih
    split
    · rename_i hd
      obtain ⟨part, hpart, hmem⟩ := ih ((mem_cons.1 h).resolve_left fun heq => hc (heq.trans hd))
      exact ⟨part, mem_cons_of_mem _ hpart, hmem⟩
    · rcases mem_cons.1 h with rfl | h
      · exact ⟨_, mem_cons_self, mem_cons_self⟩
      · obtain ⟨part, hpart, hmem⟩ := ih h
        rcases mem_cons.1 hpart with rfl | hpart
        · exact ⟨_, mem_cons_self, mem_cons_of_mem _ hmem⟩
        · exact ⟨part, mem_cons_of_mem _ hpart, hmem⟩

theorem mem_dropWhile {p : Char → Bool} (h : c ∈ cs) (hc : p c = false) : c ∈ cs.dropWhile p := by
  rw [← @List.takeWhile_append_dropWhile _ p cs, mem_append] at h
  refine h.resolve_left fun hmem => ?_
  rw [all_eq_true.1 all_takeWhile c hmem] at hc
  cases hc

theorem mem_trim (h : c ∈ cs) (hc : isBlank c = false) : c ∈ trim cs :=
  mem_reverse.2 (mem_dropWhile (mem_reverse.2 (mem_dropWhile h hc)) hc)

theorem eq_of_after? {start : String} {rest : List Char} (h : after? start cs = some rest) :
    cs = start.toList ++ rest := by
  unfold after? at h
  split at h
  · rename_i hp
    obtain ⟨more, rfl⟩ := isPrefixOf_iff_prefix.1 hp
    cases h
    rw [← String.length_toList, drop_left]
  · cases h

theorem suffix_of_concat {xs ys : List Char} (h : xs ++ [c] <:+ ys ++ [c]) : xs <:+ ys := by
  obtain ⟨zs, hzs⟩ := h
  rw [← append_assoc] at hzs
  exact ⟨zs, append_cancel_right hzs⟩

theorem eq_of_before? {front : List Char} (h : before? c cs = some front) : cs = front ++ [c] := by
  unfold before? at h
  split at h
  · rename_i hlast
    cases h
    exact (dropLast_append_getLast? c hlast).symm
  · cases h

end Text

theorem eq_of_digitsUntil? {close : Char} {rest : List Char} {n : Nat}
    (h : digitsUntil? close cs = some (n, rest)) :
    ∃ ds, ds.all Char.isDigit = true ∧ cs = ds ++ close :: rest := by
  unfold digitsUntil? at h
  rw [span_eq_takeWhile_dropWhile] at h
  split at h
  · cases h
  · rename_i ds c tail _ heq
    obtain ⟨hds, hdrop⟩ := Prod.mk.inj heq
    split at h
    · rename_i hc
      cases h
      refine ⟨cs.takeWhile Char.isDigit, all_takeWhile .., ?_⟩
      rw [← hc, ← hdrop, takeWhile_append_dropWhile]
    · cases h
  · cases h

/-- What is read as a fixed qubit has a sign that no name has, and only characters of fixed qubits. -/
theorem Wire.chars_of_read? {w : Wire} (h : read? cs = some w) :
    ('$' ∈ cs ∨ '[' ∈ cs) ∧ ∀ c ∈ cs, isWireChar c = true := by
  have hdigits : ∀ ds : List Char, ds.all Char.isDigit = true → ∀ c ∈ ds, isWireChar c = true :=
    fun ds hds c hc => by simp [isWireChar, isWord_of_isDigit (all_eq_true.1 hds c hc)]
  unfold read? at h
  split at h
  · rename_i ds
    split at h
    · rename_i hds
      exact ⟨.inl mem_cons_self, forall_mem_cons.2 ⟨by decide, hdigits ds hds.2⟩⟩
    · cases h
  · obtain ⟨rest, hrest, h⟩ := bind_eq_some_iff.1 h
    split at h
    · rename_i tail
      obtain ⟨⟨i, more⟩, hi, hw⟩ := bind_eq_some_iff.1 h
      obtain ⟨ds, hds, rfl⟩ := eq_of_digitsUntil? hi
      dsimp only at hw
      split at hw
      · rename_i hmore
        have hname : ∀ c ∈ registerName.toList, isWireChar c = true := forall_mem_of_all (by decide)
        have hclose : ∀ c ∈ [']'], isWireChar c = true := forall_mem_of_all (by decide)
        rw [eq_of_after? hrest, hmore]
        refine ⟨.inr (by simp), forall_mem_append.2 ⟨hname, forall_mem_cons.2 ⟨by decide, ?_⟩⟩⟩
        exact forall_mem_append.2 ⟨hdigits ds hds, hclose⟩
      · cases hw
    · cases h

namespace Operands
variable {is : List Nat}

theorem isSome_of_ofParts {parts : List (List Char)} (h : (ofParts parts).qubits = some is) :
    ∀ part ∈ parts, (Wire.read? (trim part)).isSome := by
  induction parts generalizing is with
  | nil => exact fun _ hp => by cases hp
  | cons part parts ih =>
    unfold ofParts at h
    split at h
    · cases h
    · rename_i w hw
      obtain ⟨js, hjs, -⟩ := map_eq_some_iff.1 h
      exact forall_mem_cons.2 ⟨by rw [hw]; rfl, ih hjs⟩

/-- What is read as fixed qubits has a sign that no name has, and no sign that operands do not have. -/
theorem chars_of_read (h : (read cs).qubits = some is) :
    ('$' ∈ cs ∨ '[' ∈ cs) ∧ ∀ c ∈ cs, c = ',' ∨ isBlank c = true ∨ Wire.isWireChar c = true := by
  have hparts : ∀ part ∈ split ',' cs, ('$' ∈ trim part ∨ '[' ∈ trim part) ∧
      ∀ c ∈ trim part, Wire.isWireChar c = true := fun part hp => by
    obtain ⟨w, hw⟩ := isSome_iff_exists.1 (isSome_of_ofParts h part hp)
    exact Wire.chars_of_read? hw
  constructor
  · obtain ⟨part, others, hs⟩ := exists_cons_of_ne_nil (split_ne_nil ',' cs)
    have hpart : part ∈ split ',' cs := hs ▸ mem_cons_self
    have hin : ∀ c ∈ trim part, c ∈ cs := ((trim_isInfix part).trans (infix_of_mem_split hpart)).subset
    exact (hparts part hpart).1.imp (hin _) (hin _)
  · intro c hc
    by_cases hcomma : c = ','
    · exact .inl hcomma
    · obtain ⟨part, hpart, hmem⟩ := exists_mem_split hc hcomma
      cases hblank : isBlank c with
      | true => exact .inr (.inl rfl)
      | false => exact .inr (.inr ((hparts part hpart).2 c (mem_trim hmem hblank)))

theorem qubits_eq_none_of_mem {c : Char} (hc : c ∈ cs) (hcomma : c ≠ ',')
    (hblank : isBlank c = false) (hwire : Wire.isWireChar c = false) : (read cs).qubits = none := by
  cases h : (read cs).qubits with
  | none => rfl
  | some is =>
    rcases (chars_of_read h).2 c hc with hc | hc | hc
    · exact absurd hc hcomma
    · rw [hc] at hblank
      cases hblank
    · rw [hc] at hwire
      cases hwire

theorem qubits_eq_none_of_not_mem {cs : List Char} (hdollar : '$' ∉ cs) (hbracket : '[' ∉ cs) :
    (read cs).qubits = none := by
  cases h : (read cs).qubits with
  | none => rfl
  | some is => exact ((chars_of_read h).1.elim hdollar hbracket).elim

theorem qubits_ofParts_append (xs ys : List (List Char)) :
    (ofParts (xs ++ ys)).qubits = (ofParts xs).qubits.bind fun is => (ofParts ys).qubits.map (is ++ ·) := by
  induction xs with
  | nil =>
    show (ofParts ys).qubits = (ofParts ys).qubits.map fun js => [] ++ js
    simp
  | cons x xs ih =>
    rw [cons_append, ofParts, ofParts]
    split
    · rfl
    · rename_i w _
      show (ofParts (xs ++ ys)).qubits.map (w.index :: ·) =
        ((ofParts xs).qubits.map (w.index :: ·)).bind fun is => (ofParts ys).qubits.map (is ++ ·)
      rw [ih]
      cases (ofParts xs).qubits with
      | none => rfl
      | some is => simp [Function.comp_def]

theorem read_blank (cs : List Char) : read (' ' :: cs) = read cs := by
  obtain ⟨part, others, hs⟩ := exists_cons_of_ne_nil (split_ne_nil ',' cs)
  have hblank : split ',' (' ' :: cs) = (' ' :: part) :: others := by
    rw [split, if_neg (by decide), hs]
  have htrim : trim ([' '] ++ part) = trim part := trim_append (forall_mem_of_all (by decide))
  rw [read, read, hblank, hs, ofParts, ofParts, ← htrim]
  rfl

theorem qubits_append (xs ys : List Char) :
    (read (xs ++ ',' :: ' ' :: ys)).qubits = (read xs).qubits.bind fun is => (read ys).qubits.map (is ++ ·) := by
  rw [read, split_sep, qubits_ofParts_append, ← read_blank ys]
  rfl

/-- Operands are read as the fixed qubits that they are, or not at all. -/
theorem forall₂_of_read {qubits : List Expr} (hne : qubits ≠ []) (hq : ∀ q ∈ qubits, q.IsOperand)
    (h : (read (Expr.listText qubits)).qubits = some is) :
    Forall₂ Expr.Denotes qubits is := by
  have hfirst : ∀ q ∈ qubits, ∀ js, (read q.text).qubits = some js → ∃ i, js = [i] ∧ q.Denotes i := by
    intro q hmem js hjs
    rw [(hq q hmem).reads] at hjs
    obtain ⟨w, hw, rfl⟩ := map_eq_some_iff.1 hjs
    exact ⟨w.index, rfl, w, hw, rfl⟩
  rw [Expr.listText, texts_eq_map] at h
  induction qubits generalizing is with
  | nil => exact absurd rfl hne
  | cons q qs ih =>
    cases qs with
    | nil =>
      rw [map_singleton, commaSep, intercalate_singleton] at h
      obtain ⟨i, rfl, hi⟩ := hfirst q mem_cons_self is h
      exact .cons hi .nil
    | cons r qs =>
      rw [map_cons, map_cons, commaSep, intercalate_cons_cons, append_assoc] at h
      have happend := (qubits_append q.text (commaSep ((r :: qs).map Expr.text))).symm.trans h
      obtain ⟨js, hjs, happend⟩ := bind_eq_some_iff.1 happend
      obtain ⟨ks, hks, rfl⟩ := map_eq_some_iff.1 happend
      obtain ⟨i, rfl, hi⟩ := hfirst q mem_cons_self js hjs
      exact .cons hi (ih (cons_ne_nil r qs) (fun q hmem => hq q (mem_cons_of_mem _ hmem)) hks
        fun q hmem => hfirst q (mem_cons_of_mem _ hmem))

end Operands

/-! ### Lines that show nothing -/

namespace Statement

variable {w rest operands : List Char}

theorem Heads.op?_eq_none (h : Heads w rest) (hreset : w ≠ "reset".toList) (hbarrier : w ≠ "barrier".toList)
    (hm : Statement.measure? (w ++ rest) = none)
    (hg : ∀ x, Statement.gate? (w ++ rest) = some x → (Operands.read x.2.2).qubits = none) :
    (read (w ++ rest)).op? = none := by
  unfold read
  rw [hm, h.reset? hreset, h.barrier? hbarrier]
  cases Statement.register? (w ++ rest) with
  | some n => rfl
  | none =>
    cases hgate : Statement.gate? (w ++ rest) with
    | none => rfl
    | some x =>
      show (Operands.read x.2.2).qubits.map _ = none
      rw [hg x hgate]
      rfl

theorem Heads.callOperands?_of_gate? (h : Heads w rest) {x : List Char × List Char × List Char}
    (hg : Statement.gate? (w ++ rest) = some x) :
    ∃ y, params? rest = some y ∧ callOperands? y.2 = some x.2.2 := by
  rw [h.gate?] at hg
  obtain ⟨c, -, hg⟩ := bind_eq_some_iff.1 hg
  split at hg
  · obtain ⟨y, hy, hg⟩ := bind_eq_some_iff.1 hg
    obtain ⟨operands, hoperands, hg⟩ := bind_eq_some_iff.1 hg
    split at hg
    · cases hg
    · cases hg
      exact ⟨y, hy, hoperands⟩
  · cases hg

theorem mem_of_afterSpaces? {c : Char} (h : afterSpaces? cs = some rest) (hc : c ∈ cs) (hspace : isSpace c = false) :
    c ∈ rest := by
  unfold afterSpaces? at h
  split at h
  · cases h
  · split at h
    · rename_i hd
      cases h
      refine mem_dropWhile ((mem_cons.1 hc).resolve_left fun heq => ?_) hspace
      rw [← heq, hspace] at hd
      cases hd
    · cases h

/-- Operands go to the end of the line, and only spaces are left out in front of them. -/
theorem callOperands?_spec (h : callOperands? cs = some operands) :
    operands ++ [';'] <:+ cs ∧ '=' ∉ operands ∧ ∀ c ∈ cs, isSpace c = false → c ≠ ';' → c ∈ operands := by
  obtain ⟨front, hfront, hrest⟩ := bind_eq_some_iff.1 h
  obtain ⟨tail, htail, hread⟩ := bind_eq_some_iff.1 hrest
  clear h hrest
  obtain rfl := eq_of_before? hfront
  split at hread
  · cases hread
  split at hread
  · cases hread
  rename_i hany
  cases hread
  refine ⟨?_, fun hmem => hany (any_eq_true.2 ⟨_, hmem, by decide⟩), fun c hc hspace hsemi => ?_⟩
  · obtain ⟨x, rfl⟩ := afterSpaces?_isSuffix htail
    exact ⟨x, (append_assoc ..).symm⟩
  · have hmem : c ∈ front := (mem_append.1 hc).resolve_right fun h => hsemi (mem_singleton.1 h)
    exact mem_of_afterSpaces? htail hmem hspace

/-- The closing parenthesis of a call is no end of a fixed qubit. -/
theorem op?_call {name : String} (hname : IsIdentifier name) (args : List Char) :
    (read (name.toList ++ '(' :: (args ++ [')', ';']))).op? = none := by
  have hheads : Heads name.toList ('(' :: (args ++ [')', ';'])) := ⟨hname.word, stops_cons.2 (by decide)⟩
  have hm := (hheads.measure? (hname.ne_keyword (by decide))).trans
    (assignedMeasure?_call hname.isWord (.inl ⟨_, rfl⟩))
  refine hheads.op?_eq_none (hname.ne_keyword (by decide)) (hname.ne_keyword (by decide)) hm fun x hx => ?_
  obtain ⟨y, hy, hoperands⟩ := hheads.callOperands?_of_gate? hx
  have hsuffix : x.2.2 ++ [';'] <:+ (('(' :: args) ++ [')']) ++ [';'] := by
    have hline := (callOperands?_spec hoperands).1.trans (params?_isSuffix hy)
    rwa [show '(' :: (args ++ [')', ';']) = (('(' :: args) ++ [')']) ++ [';'] by simp] at hline
  rcases suffix_concat_iff.1 (suffix_of_concat hsuffix) with hnil | ⟨front, hfront, -⟩
  · rw [hnil]
    rfl
  · exact Operands.qubits_eq_none_of_mem (c := ')') (by simp [hfront]) (by decide) (by decide) (by decide)

namespace IsDeclared

variable {name : String} {init : List Char}

/-- A name is no fixed qubit, and a value in front of which an equals sign stands is no operand. -/
theorem qubits_eq_none (h : IsDeclared name init) (hg : callOperands? (' ' :: (name.toList ++ init)) = some operands) :
    (Operands.read operands).qubits = none := by
  obtain ⟨hsuffix, hequals, hmem⟩ := callOperands?_spec hg
  rcases h.init with rfl | ⟨v, rfl, -⟩
  · have hname : operands <:+ ' ' :: name.toList := suffix_of_concat hsuffix
    have hnot : ∀ c, isWord c = false → c ≠ ' ' → c ∉ operands := fun c hc hblank hin => by
      rcases mem_cons.1 (hname.subset hin) with hin | hin
      · exact hblank hin
      · rw [h.name.isWord c hin] at hc
        cases hc
    exact Operands.qubits_eq_none_of_not_mem (hnot _ (by decide) (by decide)) (hnot _ (by decide) (by decide))
  · exact absurd (hmem '=' (by simp) (by decide) (by decide)) hequals

theorem op?_of_heads (h : IsDeclared name init) {t : Option Ty} {size : List Char} (ht : tyText t = w ++ size)
    (hword : w.all isWord = true) (hsize : Stops isWord (size ++ ' ' :: (name.toList ++ init)))
    (hw : ∀ s ∈ ["bit", "reset", "barrier"], w ≠ s.toList)
    (hg : keywords.contains (String.ofList w) = true ∨ ∃ ps, params? (size ++ ' ' :: (name.toList ++ init)) =
      some (ps, ' ' :: (name.toList ++ init))) :
    (read (tyText t ++ ' ' :: (name.toList ++ init))).op? = none := by
  have hheads : Heads w (size ++ ' ' :: (name.toList ++ init)) := ⟨hword, hsize⟩
  have hm := h.measure? ht hheads (hw "bit" (by decide))
  rw [ht, append_assoc] at hm ⊢
  refine hheads.op?_eq_none (hw "reset" (by decide)) (hw "barrier" (by decide)) hm fun x hx => ?_
  rcases hg with hg | ⟨ps, hps⟩
  · rw [hheads.gate?_keyword hg] at hx
    cases hx
  · obtain ⟨y, hy, hoperands⟩ := hheads.callOperands?_of_gate? hx
    rw [hps] at hy
    cases hy
    exact h.qubits_eq_none hoperands

theorem op? (h : IsDeclared name init) (t : Option Ty) :
    (read (tyText t ++ ' ' :: (name.toList ++ init))).op? = none := by
  cases t with
  | none =>
    have htext : tyText none = "void".toList ++ [] := rfl
    exact h.op?_of_heads htext (by decide) (stops_cons.2 (by decide)) (by decide) (.inr ⟨[], rfl⟩)
  | some t =>
    by_cases hclassical : t.IsClassical
    · have hread : read (tyText (some t) ++ ' ' :: (name.toList ++ init)) = .other := h.read_eq hclassical
      rw [hread]
      rfl
    obtain ⟨kind, size, elem, dims⟩ := t
    cases kind with
    | qubit =>
      have htext : ∃ x, IsIndex x ∧ tyText (some (Ty.mk .qubit size elem dims)) = "qubit".toList ++ x := by
        by_cases hpos : 0 < size
        · exact ⟨_, .inr ⟨_, rfl⟩, if_pos hpos⟩
        · exact ⟨[], .inl rfl, if_neg hpos⟩
      obtain ⟨x, hx, htext⟩ := htext
      refine h.op?_of_heads htext (by decide) ?_ (by decide) (.inl (by decide))
      rcases hx with rfl | ⟨y, rfl⟩
      · exact stops_cons.2 (by decide)
      · exact stops_cons.2 (by decide)
    | other n =>
      have htext : tyText (some (Ty.mk (.other n) size elem dims)) =
          "kind".toList ++ '(' :: (Word.text n ++ [')']) := rfl
      have hclose : ')' ∉ Word.text n := not_mem_wordText (by decide) (by decide) n
      refine h.op?_of_heads htext (by decide) (stops_cons.2 (by decide)) (by decide) (.inr ⟨Word.text n, ?_⟩)
      rw [cons_append, append_assoc]
      exact params?_append hclose _
    | _ => exact absurd (by simp [Ty.IsClassical]) hclassical

end IsDeclared

theorem op?_delay {duration targets : List Char} (hd : '=' ∉ duration) (ht : '=' ∉ targets) :
    (read ("delay".toList ++ '[' :: (duration ++ ']' :: ' ' :: (targets ++ [';'])))).op? = none := by
  have hheads : Heads "delay".toList ('[' :: (duration ++ ']' :: ' ' :: (targets ++ [';']))) :=
    ⟨by decide, stops_cons.2 (by decide)⟩
  have hm := (hheads.measure? (by decide)).trans (assignedMeasure?_of_not_mem (by simp [hd, ht]))
  refine hheads.op?_eq_none (by decide) (by decide) hm fun x hx => ?_
  rw [hheads.gate?_keyword (by decide)] at hx
  cases hx

theorem op?_return {value : List Char} (h : Stops (fun c => isSpace c || c = '=') value) :
    (read ("return".toList ++ ' ' :: (value ++ [';']))).op? = none := by
  have hheads : Heads "return".toList (' ' :: (value ++ [';'])) := ⟨by decide, stops_cons.2 (by decide)⟩
  have hvalue : Stops isSpace (value ++ [';']) ∧ (value ++ [';']).head? ≠ some '=' := by
    cases value with
    | nil => exact ⟨stops_cons.2 (by decide), by decide⟩
    | cons c value =>
      obtain ⟨hspace, hequals⟩ := Bool.or_eq_false_iff.1 (stops_cons.1 h)
      exact ⟨stops_cons.2 hspace, fun heq => of_decide_eq_false hequals (Option.some.inj heq)⟩
  have hm := (hheads.measure? (by decide)).trans
    (assignedMeasure?_call (forall_mem_of_all (by decide)) (.inr ⟨_, rfl, hvalue⟩))
  refine hheads.op?_eq_none (by decide) (by decide) hm fun x hx => ?_
  rw [hheads.gate?_keyword (by decide)] at hx
  cases hx

end Statement

end QasmStudio
