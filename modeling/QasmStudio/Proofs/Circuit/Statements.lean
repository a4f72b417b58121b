import QasmStudio.Proofs.Circuit.Operands

/-!
# Reading statements

Each kind of line that a legible program has is read as what it is: no pattern of another kind takes
it. Lines that start with a word are told apart by that word, and by what follows it.
-/

namespace QasmStudio.Statement

open Text List

variable {w rest cs : List Char} {name : String} {v : List Char} {t : Ty}

theorem afterSpaces?_blank (h : Stops isSpace cs) : afterSpaces? (' ' :: cs) = some cs := by
  unfold afterSpaces?
  dsimp only
  rw [if_pos (by decide), h.dropWhile]

/-! ### Lines that start with a word -/

theorem not_prefix_line {ys : List Char} (hy : ys.all isWord = true) (hstops : Stops isWord rest)
    (h : ¬ ys <+: w) : ¬ ys <+: w ++ rest :=
  fun hp => h (prefix_of_prefix_append (all_eq_true.1 hy) hstops hp)

theorem afterSpaces?_word {c : Char} (hc : isWord c = true) (x : List Char) : afterSpaces? (c :: x) = none := by
  unfold afterSpaces?
  dsimp only
  rw [isSpace_of_isBlank (isBlank_of_isWord hc), if_neg (by decide)]

/-- `w` is the first word of the line `w ++ rest`. -/
structure Heads (w rest : List Char) : Prop where
  word : w.all isWord = true
  stops : Stops isWord rest

namespace Heads

/-- After a part of its first word a line goes on with a character of the word. -/
theorem bind_after?_eq_none {α : Type} {start : String} {f : List Char → Option α} (h : Heads w rest)
    (hs : start.toList.all isWord = true) (hne : w ≠ start.toList)
    (hf : ∀ c x, isWord c = true → f (c :: x) = none) : (after? start (w ++ rest)).bind f = none := by
  by_cases hp : start.toList <+: w
  · obtain ⟨x, rfl⟩ := hp
    cases x with
    | nil => exact absurd (append_nil _) hne
    | cons c x =>
      rw [append_assoc, after?_append]
      exact hf c _ (all_eq_true.1 h.word c (by simp))
  · rw [after?_eq_none (not_prefix_line hs h.stops hp)]
    rfl

theorem register? (h : Heads w rest) (hne : w ≠ "qubit".toList) : Statement.register? (w ++ rest) = none := by
  have hafter : after? "qubit[" (w ++ rest) = none := after?_eq_none fun hp => by
    have hword : "qubit".toList <+: w := prefix_of_prefix_append (forall_mem_of_all (by decide)) h.stops
        ((by decide : "qubit".toList <+: "qubit[".toList).trans hp)
    obtain ⟨x, rfl⟩ := hword
    cases x with
    | nil => exact hne (append_nil _)
    | cons c x =>
      rw [append_assoc, show "qubit[".toList = "qubit".toList ++ ['['] from rfl, prefix_append_right_inj] at hp
      have hc : '[' = c := (cons_prefix_cons.1 hp).1
      have hbracket := all_eq_true.1 h.word c (by simp)
      rw [← hc] at hbracket
      exact absurd hbracket (by decide)
  rw [Statement.register?, hafter]
  rfl

theorem afterBitType? (h : Heads w rest) (hne : w ≠ "bit".toList) : Statement.afterBitType? (w ++ rest) = none := by
  refine h.bind_after?_eq_none (by decide) hne fun c x hc => ?_
  split
  · rename_i heq
    rw [(List.cons.inj heq).1] at hc
    exact absurd hc (by decide)
  · exact afterSpaces?_word hc x

theorem reset? (h : Heads w rest) (hne : w ≠ "reset".toList) : Statement.reset? (w ++ rest) = none :=
  h.bind_after?_eq_none (by decide) hne fun c x hc => by
    rw [afterSpaces?_word hc]
    rfl

theorem barrier? (h : Heads w rest) (hne : w ≠ "barrier".toList) : Statement.barrier? (w ++ rest) = none := by
  refine h.bind_after?_eq_none (by decide) hne fun c x hc => ?_
  split
  · rename_i heq
    rw [(List.cons.inj heq).1] at hc
    exact absurd hc (by decide)
  · unfold before?
    split
    · cases x with
      | nil => rfl
      | cons d x => exact congrArg (Option.bind · _) (afterSpaces?_word hc (d :: x).dropLast)
    · rfl

theorem measure? (h : Heads w rest) (hne : w ≠ "bit".toList) :
    Statement.measure? (w ++ rest) = assignedMeasure? (w ++ rest) := by
  rw [Statement.measure?, h.afterBitType? hne]
  rfl

end Heads

/-- The first word is none that the patterns apart from measurements and gate calls ask for. -/
def IsFree (w : List Char) : Prop := ∀ s ∈ ["qubit", "reset", "barrier"], w ≠ s.toList

/-- A line that starts with a free word and measures nothing is a gate call or nothing. -/
theorem Heads.read_eq (h : Heads w rest) (hfree : IsFree w) (hm : Statement.measure? (w ++ rest) = none) :
    read (w ++ rest) = (gate? (w ++ rest)).elim .other fun x => .gate x.1 x.2.1 x.2.2 := by
  unfold read
  rw [h.register? (hfree "qubit" (by decide)), hm, h.reset? (hfree "reset" (by decide)),
    h.barrier? (hfree "barrier" (by decide))]
  cases gate? (w ++ rest) with
  | none => rfl
  | some x => rfl

/-- The word in front of a gate call is its name. -/
theorem Heads.gate? (h : Heads w rest) : Statement.gate? (w ++ rest) = w.head?.bind fun first =>
      if first.isLower || first = '_' then
        (params? rest).bind fun x => (callOperands? x.2).bind fun operands =>
          if keywords.contains (String.ofList w) then none else some (w, x.1, operands)
      else none := by
  unfold Statement.gate?
  rw [span_append (all_eq_true.1 h.word) h.stops]
  rfl

theorem Heads.gate?_eq_none (h : Heads w rest)
    (hrest : ∀ x, params? rest = some x → callOperands? x.2 = none) : Statement.gate? (w ++ rest) = none := by
  rw [h.gate?]
  cases w.head? with
  | none => rfl
  | some c =>
    cases hparams : params? rest with
    | none => exact ite_self _
    | some x =>
      simp only [Option.bind_some, hrest x hparams, Option.bind_none, ite_self]

/-! ### Identifiers -/

/-- A word that is not reserved. -/
structure IsIdentifier (name : String) : Prop where
  ne_nil : name.toList ≠ []
  word : name.toList.all isWord = true
  keyword : keywords.contains name = false

namespace IsIdentifier

theorem isWord (h : IsIdentifier name) : ∀ c ∈ name.toList, isWord c = true := all_eq_true.1 h.word

theorem newline_not_mem (h : IsIdentifier name) : '\n' ∉ name.toList :=
  fun hmem => absurd (h.isWord _ hmem) (by decide)

theorem equals_not_mem (h : IsIdentifier name) : '=' ∉ name.toList :=
  fun hmem => absurd (h.isWord _ hmem) (by decide)

theorem ne_keyword (h : IsIdentifier name) {s : String} (hs : keywords.contains s = true) :
    name.toList ≠ s.toList := fun heq => by
  rw [← String.toList_inj.1 heq, h.keyword] at hs
  cases hs

theorem isFree (h : IsIdentifier name) : IsFree name.toList := fun s hs => h.ne_keyword (by revert s; decide)

end IsIdentifier

theorem isIdentifier_generated (h : IsGenerated name) : IsIdentifier name := by
  obtain ⟨cs, hcs⟩ := h.exists_cons
  refine ⟨?_, all_eq_true.2 h.isWord, ?_⟩
  · rw [hcs]
    exact cons_ne_nil _ _
  · have hheads : ∀ s ∈ keywords, s.toList.head? ≠ some '_' := by decide
    rw [contains_eq_mem, decide_eq_false_iff_not]
    intro hmem
    refine hheads name hmem ?_
    rw [hcs]
    rfl

/-! ### Assigned measurements -/

def isTargetChar (c : Char) : Bool := Text.isWord c || c = '[' || c = ']'

theorem assignedMeasure?_eq (cs : List Char) : assignedMeasure? cs = if cs.takeWhile isTargetChar = [] then none
      else match (cs.dropWhile isTargetChar).dropWhile isSpace with
        | '=' :: x => (after? "measure" (x.dropWhile isSpace)).bind fun y => (afterSpaces? y).bind solid?
        | _ => none := by
  have hspan : cs.span (fun c => Text.isWord c || c = '[' || c = ']') =
      (cs.takeWhile isTargetChar, cs.dropWhile isTargetChar) := span_eq_takeWhile_dropWhile _ _
  unfold assignedMeasure?
  rw [hspan]
  rfl

theorem assignedMeasure?_eq_none (h : ((cs.dropWhile isTargetChar).dropWhile isSpace).head? ≠ some '=') :
    assignedMeasure? cs = none := by
  rw [assignedMeasure?_eq]
  split
  · rfl
  · split
    · rename_i heq
      rw [heq] at h
      exact absurd rfl h
    · rfl

theorem assignedMeasure?_of_not_mem (h : '=' ∉ cs) : assignedMeasure? cs = none := by
  refine assignedMeasure?_eq_none fun hhead => h ?_
  have hmem := mem_of_mem_head? hhead
  exact (dropWhile_sublist _).subset ((dropWhile_sublist _).subset hmem)

/-- The text of a value that is no measurement. -/
def IsPlain (v : List Char) : Prop := (after? "measure" (v.dropWhile isSpace)).bind afterSpaces? = none

theorem dropWhile_before {p : Char → Bool} {c : Char} (hc : p c = false) (xs more : List Char) :
    (xs ++ c :: more).dropWhile p = xs.dropWhile p ++ c :: more := by
  rw [dropWhile_append]
  split
  · rename_i hnil
    rw [List.isEmpty_iff.1 hnil, (stops_cons.2 hc).dropWhile]
    rfl
  · rfl

/-- The semicolon after a value does not make it a measurement. -/
theorem IsPlain.append (h : IsPlain v) : IsPlain (v ++ [';']) := by
  unfold IsPlain at h ⊢
  rw [dropWhile_before (by decide)]
  generalize v.dropWhile isSpace = u at h
  by_cases hp : "measure".toList <+: u
  · obtain ⟨x, rfl⟩ := hp
    rw [append_assoc, after?_append]
    rw [after?_append] at h
    cases x with
    | nil => rfl
    | cons c x =>
      change afterSpaces? (c :: x) = none at h
      change afterSpaces? (c :: (x ++ [';'])) = none
      unfold afterSpaces? at h ⊢
      dsimp only at h ⊢
      split at h
      · cases h
      · rename_i hc
        rw [if_neg hc]
  · rw [after?_eq_none (not_prefix_line (by decide) (stops_cons.2 (by decide)) hp)]
    rfl

/-- The first equals sign of the line has a plain value after it. -/
theorem assignedMeasure?_plain {t : List Char} (ht : '=' ∉ t) (hv : IsPlain v) :
    assignedMeasure? (t ++ '=' :: v) = none := by
  rw [assignedMeasure?_eq]
  split
  · rfl
  rw [dropWhile_before (by decide), dropWhile_before (by decide)]
  have hfront : '=' ∉ (t.dropWhile isTargetChar).dropWhile isSpace := fun hmem =>
    ht ((dropWhile_sublist _).subset ((dropWhile_sublist _).subset hmem))
  cases hcs : (t.dropWhile isTargetChar).dropWhile isSpace with
  | nil =>
    show ((after? "measure" (v.dropWhile isSpace)).bind fun y => (afterSpaces? y).bind solid?) = none
    rw [← Option.bind_assoc, show (after? "measure" (v.dropWhile isSpace)).bind afterSpaces? = none from hv]
    rfl
  | cons c x =>
    have hc : c ≠ '=' := fun heq => hfront (by rw [hcs, heq]; exact mem_cons_self)
    rw [cons_append]
    split
    · rename_i heq
      exact absurd (List.cons.inj heq).1 hc
    · rfl

theorem assignedMeasure?_append {t : List Char} (hne : t ≠ []) (ht : ∀ c ∈ t, isTargetChar c = true)
    (hv : Stops isSpace v) :
    assignedMeasure? (t ++ " = ".toList ++ v) =
      (after? "measure" v).bind fun rest => (afterSpaces? rest).bind solid? := by
  have htext : t ++ " = ".toList ++ v = t ++ ' ' :: '=' :: ' ' :: v := by
    rw [append_assoc]
    rfl
  have hstops : Stops isTargetChar (' ' :: '=' :: ' ' :: v) := stops_cons.2 (by decide)
  have hdrop : (' ' :: v).dropWhile isSpace = v := by
    rw [dropWhile_cons, if_pos (by decide), hv.dropWhile]
  rw [assignedMeasure?_eq, htext, takeWhile_append_of_pos ht, dropWhile_append_of_pos ht,
    hstops.takeWhile, hstops.dropWhile, append_nil, if_neg hne]
  show ((after? "measure" ((' ' :: v).dropWhile isSpace)).bind fun rest => (afterSpaces? rest).bind solid?) = _
  rw [hdrop]

/-! ### Texts of operands -/

/-- A list of operands: it does not start with a blank, and nothing in it ends a statement. -/
structure IsOperands (cs : List Char) : Prop where
  ne_nil : cs ≠ []
  stops : Stops isSpace cs
  head : cs.head? ≠ some '='
  chars : ∀ c ∈ cs, c ≠ '=' ∧ c ≠ ';'

theorem IsOperands.ended (h : IsOperands cs) : Stops isSpace (cs ++ [';']) ∧ (cs ++ [';']).head? ≠ some '=' := by
  have hhead : (cs ++ [';']).head? = cs.head? := by
    obtain ⟨c, rest, rfl⟩ := exists_cons_of_ne_nil h.ne_nil
    rfl
  unfold Stops
  rw [hhead]
  exact ⟨h.stops, h.head⟩

theorem isOperands_wire (v : Wire) : IsOperands v.text := by
  obtain ⟨c, cs, hcs, hc⟩ := v.exists_text_cons
  have hsign : isSpace c = false ∧ c ≠ '=' := by
    rcases hc with rfl | rfl
    · decide
    · decide
  refine ⟨?_, ?_, ?_, fun d hd => ?_⟩
  · rw [hcs]
    exact cons_ne_nil _ _
  · rw [hcs]
    exact stops_cons.2 hsign.1
  · rw [hcs]
    exact fun heq => hsign.2 (Option.some.inj heq)
  · have hchar := v.isWireChar_text d hd
    constructor
    · rintro rfl
      exact absurd hchar (by decide)
    · rintro rfl
      exact absurd hchar (by decide)

theorem isOperands_commaSep {texts : List (List Char)} (hne : texts ≠ []) (h : ∀ cs ∈ texts, IsOperands cs) :
    IsOperands (commaSep texts) := by
  obtain ⟨first, others, rfl⟩ := exists_cons_of_ne_nil hne
  have hfirst := h first mem_cons_self
  obtain ⟨c, cs, hcs⟩ := exists_cons_of_ne_nil hfirst.ne_nil
  obtain ⟨more, hmore⟩ := exists_commaSep_cons first others
  have htext : commaSep (first :: others) = c :: (cs ++ more) := by
    rw [hmore, hcs]
    rfl
  refine ⟨?_, ?_, ?_, commaSep_chars (fun cs hcs => (h cs hcs).chars) (by decide)⟩
  · rw [htext]
    exact cons_ne_nil _ _
  · rw [htext, stops_cons]
    exact stops_cons.1 (hcs ▸ hfirst.stops)
  · rw [htext]
    have hhead := hfirst.head
    rw [hcs] at hhead
    exact hhead

theorem isOperands_wires {ws : List Wire} (hne : ws ≠ []) : IsOperands (commaSep (ws.map Wire.text)) := by
  refine isOperands_commaSep (fun hnil => hne (map_eq_nil_iff.1 hnil)) fun cs hcs => ?_
  obtain ⟨v, -, rfl⟩ := mem_map.1 hcs
  exact isOperands_wire v

theorem callOperands?_append (h : IsOperands cs) : callOperands? (' ' :: (cs ++ [';'])) = some cs := by
  have hany : ¬ (cs.any fun c => c = '=' || c = ';') = true := by
    rw [any_eq_true]
    rintro ⟨c, hc, hbad⟩
    have hok := h.chars c hc
    simp [hok] at hbad
  have hbefore : before? ';' (' ' :: (cs ++ [';'])) = some (' ' :: cs) := before?_append ';' (' ' :: cs)
  unfold callOperands?
  simp only [hbefore, Option.bind_eq_bind, Option.bind_some, afterSpaces?_blank h.stops]
  rw [if_neg fun hnil => h.ne_nil hnil.1, if_neg hany]

theorem solid?_append (hne : cs ≠ []) (h : ∀ c ∈ cs, isSpace c = false) : solid? (cs ++ [';']) = some cs := by
  have hany : (cs.any isSpace) = false := by
    rw [any_eq_false]
    intro c hc
    rw [h c hc]
    decide
  unfold solid?
  simp only [before?_append, Option.bind_eq_bind, Option.bind_some]
  rw [if_pos ⟨hne, by rw [hany]; rfl⟩]

theorem solid?_wire (v : Wire) : solid? (v.text ++ [';']) = some v.text := by
  obtain ⟨c, cs, hcs, -⟩ := v.exists_text_cons
  refine solid?_append ?_ fun c hc => ?_
  · rw [hcs]
    exact cons_ne_nil _ _
  · exact isSpace_of_isBlank (Wire.isBlank_of_isWireChar (v.isWireChar_text c hc))

/-! ### Gates, resets and barriers -/

theorem assignedMeasure?_call (hw : ∀ c ∈ w, isWord c = true)
    (h : (∃ x, rest = '(' :: x) ∨ ∃ x, rest = ' ' :: x ∧ Stops isSpace x ∧ x.head? ≠ some '=') :
    assignedMeasure? (w ++ rest) = none := by
  have htarget : ∀ c ∈ w, isTargetChar c = true := fun c hc => by simp [isTargetChar, hw c hc]
  refine assignedMeasure?_eq_none ?_
  rw [dropWhile_append_of_pos htarget]
  rcases h with ⟨x, rfl⟩ | ⟨x, rfl, hx, hhead⟩
  · rw [(stops_cons.2 (by decide)).dropWhile, (stops_cons.2 (by decide)).dropWhile]
    simp
  · rw [(stops_cons.2 (by decide)).dropWhile, dropWhile_cons, if_pos (by decide), hx.dropWhile]
    exact hhead

/-- An identifier that starts with a small letter or an underscore. -/
structure IsGateName (name : String) : Prop extends IsIdentifier name where
  head : (name.toList.head?.any fun c => c.isLower || c = '_') = true

theorem isGateName_native (h : name ∈ NativeGate.all.map (·.name)) : IsGateName name := by
  have hall : ∀ name ∈ NativeGate.all.map (·.name), name.toList ≠ [] ∧ name.toList.all isWord = true ∧
      keywords.contains name = false ∧
      (name.toList.head?.any fun c => c.isLower || c = '_') = true := by
    decide
  obtain ⟨hne, hword, hkey, hhead⟩ := hall name h
  exact ⟨⟨hne, hword, hkey⟩, hhead⟩

theorem params?_append {params : List Char} (h : ')' ∉ params) (rest : List Char) :
    params? ('(' :: (params ++ ')' :: rest)) = some (params, rest) := by
  have hspan : (params ++ ')' :: rest).span (· ≠ ')') = (params, ')' :: rest) := by
    refine span_append (fun c hc => ?_) (stops_cons.2 (by decide))
    have hne : c ≠ ')' := fun heq => h (heq ▸ hc)
    simpa using hne
  simp only [params?, hspan]

/-- A word, angles and operands make a gate call, unless the word is a keyword. -/
theorem IsGateName.gate? {params more : List Char} (hname : IsGateName name)
    (hstops : Stops isWord rest) (hparams : params? rest = some (params, more))
    (hcs : callOperands? more = some cs) :
    Statement.gate? (name.toList ++ rest) = some (name.toList, params, cs) := by
  obtain ⟨c, hc, hlower⟩ := (Option.any_eq_true _ _).1 hname.head
  have hheads : Heads name.toList rest := ⟨hname.word, hstops⟩
  rw [hheads.gate?, hc, Option.bind_some, if_pos hlower, hparams, Option.bind_some, hcs,
    Option.bind_some, String.ofList_toList, hname.keyword, if_neg (by decide)]

def argsText (args : List Expr) : List Char :=
  if args.isEmpty then [] else '(' :: (Expr.listText args ++ [')'])

theorem read_gate (hname : IsGateName name) {args : List Expr}
    (hargs : ')' ∉ Expr.listText args) (hcs : IsOperands cs) :
    read (name.toList ++ (argsText args ++ ' ' :: (cs ++ [';']))) = .gate name.toList (Expr.listText args) cs := by
  have hrest : Stops isWord (argsText args ++ ' ' :: (cs ++ [';'])) ∧
      ((∃ x, argsText args ++ ' ' :: (cs ++ [';']) = '(' :: x) ∨
        ∃ x, argsText args ++ ' ' :: (cs ++ [';']) = ' ' :: x ∧ Stops isSpace x ∧ x.head? ≠ some '=') ∧
      params? (argsText args ++ ' ' :: (cs ++ [';'])) = some (Expr.listText args, ' ' :: (cs ++ [';'])) := by
    cases args with
    | nil => exact ⟨stops_cons.2 (by decide), .inr ⟨_, rfl, hcs.ended⟩, rfl⟩
    | cons e es =>
      have htext : argsText (e :: es) ++ ' ' :: (cs ++ [';']) =
          '(' :: (Expr.listText (e :: es) ++ ')' :: ' ' :: (cs ++ [';'])) := by
        simp [argsText]
      rw [htext]
      exact ⟨stops_cons.2 (by decide), .inl ⟨_, rfl⟩, params?_append hargs _⟩
  obtain ⟨hstops, hcall, hparams⟩ := hrest
  have hheads : Heads name.toList (argsText args ++ ' ' :: (cs ++ [';'])) := ⟨hname.word, hstops⟩
  have hm := (hheads.measure? (hname.ne_keyword (by decide))).trans (assignedMeasure?_call hname.isWord hcall)
  rw [hheads.read_eq hname.isFree hm, hname.gate? hstops hparams (callOperands?_append hcs), Option.elim_some]

theorem measure?_call (hw : w.all isWord = true) (hbit : w ≠ "bit".toList) (hcs : IsOperands cs) :
    measure? (w ++ ' ' :: (cs ++ [';'])) = none := by
  have hheads : Heads w (' ' :: (cs ++ [';'])) := ⟨hw, stops_cons.2 (by decide)⟩
  exact (hheads.measure? hbit).trans (assignedMeasure?_call (all_eq_true.1 hw) (.inr ⟨_, rfl, hcs.ended⟩))

theorem read_reset (v : Wire) : read ("reset".toList ++ ' ' :: (v.text ++ [';'])) = .reset v.text := by
  have hcs := isOperands_wire v
  have hheads : Heads "reset".toList (' ' :: (v.text ++ [';'])) := ⟨by decide, stops_cons.2 (by decide)⟩
  have hreset : reset? ("reset".toList ++ ' ' :: (v.text ++ [';'])) = some v.text := by
    unfold reset?
    simp only [after?_append, Option.bind_eq_bind, Option.bind_some, afterSpaces?_blank hcs.ended.1, solid?_wire]
  unfold read
  rw [hheads.register? (by decide), measure?_call (by decide) (by decide) hcs, hreset]

theorem read_barrier (hcs : IsOperands cs) :
    read ("barrier".toList ++ ' ' :: (cs ++ [';'])) = .barrier (some cs) := by
  have hheads : Heads "barrier".toList (' ' :: (cs ++ [';'])) := ⟨by decide, stops_cons.2 (by decide)⟩
  have hbarrier : barrier? ("barrier".toList ++ ' ' :: (cs ++ [';'])) = some (some cs) := by
    have hne : ' ' :: (cs ++ [';']) ≠ [';'] := fun heq => by cases heq
    have hbefore : before? ';' (' ' :: (cs ++ [';'])) = some (' ' :: cs) := before?_append ';' (' ' :: cs)
    unfold barrier?
    simp only [after?_append, Option.bind_eq_bind, Option.bind_some, if_neg hne, hbefore,
      afterSpaces?_blank hcs.stops, if_neg hcs.ne_nil]
  unfold read
  rw [hheads.register? (by decide), measure?_call (by decide) (by decide) hcs, hheads.reset? (by decide), hbarrier]

/-! ### Assignments -/

/-- What follows the name in a target: nothing, or an index in brackets. -/
def IsIndex (idx : List Char) : Prop := idx = [] ∨ ∃ x, idx = '[' :: x

theorem exists_text_target {target : Expr} (h : target.IsTarget) : ∃ name idx,
    IsGenerated name ∧ target.text = name.toList ++ idx ∧ IsIndex idx ∧ ∀ c ∈ idx, isTargetChar c = true := by
  cases h with
  | @var name _ _ hname => exact ⟨name, [], hname, (append_nil _).symm, .inl rfl, fun _ hc => by cases hc⟩
  | @element name _ _ i hname =>
    refine ⟨name, '[' :: (Word.digits i ++ [']']), hname, rfl, .inr ⟨_, rfl⟩,
      forall_mem_cons.2 ⟨by decide, forall_mem_append.2 ⟨fun c hc => ?_, forall_mem_of_all (by decide)⟩⟩⟩
    simp [isTargetChar, isWord_of_isDigit (Word.isDigit_of_mem_digits hc)]

theorem callOperands?_index (x : List Char) : callOperands? ('[' :: x) = none := by
  unfold callOperands? before?
  split
  · cases x with
    | nil => rfl
    | cons c x => rfl
  · rfl

theorem callOperands?_equals (x : List Char) : callOperands? (' ' :: '=' :: x) = none := by
  unfold callOperands? before?
  split
  · cases x with
    | nil =>
      rename_i hlast
      exact absurd hlast (by decide)
    | cons c x =>
      have hafter : afterSpaces? (' ' :: '=' :: (c :: x).dropLast) = some ('=' :: (c :: x).dropLast) :=
        afterSpaces?_blank (stops_cons.2 (by decide))
      have hdrop : (' ' :: '=' :: c :: x).dropLast = ' ' :: '=' :: (c :: x).dropLast := rfl
      simp only [hdrop, Option.bind_eq_bind, Option.bind_some, hafter]
      rw [if_neg fun hnil => cons_ne_nil _ _ hnil.1, if_pos (by simp)]
  · rfl

/-- The line of an assignment, by what it starts with. -/
structure IsAssignment (name : String) (idx : List Char) : Prop where
  name : IsIdentifier name
  idx : IsIndex idx

namespace IsAssignment

variable {idx : List Char}

theorem heads (h : IsAssignment name idx) (v : List Char) : Heads name.toList (idx ++ (" = ".toList ++ v)) := by
  refine ⟨h.name.word, ?_⟩
  rcases h.idx with rfl | ⟨x, rfl⟩
  · exact stops_cons.2 (by decide)
  · exact stops_cons.2 (by decide)

/-- An assignment is no gate call: its operands would hold the equals sign. -/
theorem gate? (h : IsAssignment name idx) (v : List Char) :
    Statement.gate? (name.toList ++ (idx ++ (" = ".toList ++ v))) = none := by
  refine (h.heads v).gate?_eq_none fun x hx => ?_
  rcases h.idx with rfl | ⟨y, rfl⟩
  · cases hx
    exact callOperands?_equals _
  · cases hx
    exact callOperands?_index _

theorem read_eq (h : IsAssignment name idx) (v : List Char) : read (name.toList ++ (idx ++ (" = ".toList ++ v))) =
      (assignedMeasure? (name.toList ++ (idx ++ (" = ".toList ++ v)))).elim .other .measure := by
  have hmeasure := (h.heads v).measure? (h.name.ne_keyword (by decide))
  cases hm : assignedMeasure? (name.toList ++ (idx ++ (" = ".toList ++ v))) with
  | none =>
    rw [(h.heads v).read_eq h.name.isFree (hmeasure.trans hm), h.gate?]
    rfl
  | some operands =>
    unfold read
    rw [(h.heads v).register? (h.name.isFree "qubit" (by decide)), hmeasure, hm]
    rfl

end IsAssignment

/-- A measurement of a fixed qubit is stored where only brackets and words stand before it. -/
theorem assignedMeasure?_wire {t : List Char} (hne : t ≠ []) (ht : ∀ c ∈ t, isTargetChar c = true) (v : Wire) :
    assignedMeasure? (t ++ " = ".toList ++ ("measure".toList ++ ' ' :: (v.text ++ [';']))) = some v.text := by
  have hstops : Stops isSpace ("measure".toList ++ ' ' :: (v.text ++ [';'])) := stops_cons.2 (by decide)
  rw [assignedMeasure?_append hne ht hstops, after?_append, Option.bind_some,
    afterSpaces?_blank (isOperands_wire v).ended.1, Option.bind_some, solid?_wire]

theorem IsIdentifier.isTargetChar (h : IsIdentifier name) : ∀ c ∈ name.toList, isTargetChar c = true :=
  fun c hc => by simp [Statement.isTargetChar, h.isWord c hc]

theorem read_measureInto {idx : List Char} (h : IsAssignment name idx)
    (hidx : ∀ c ∈ idx, isTargetChar c = true) (v : Wire) :
    read (name.toList ++ (idx ++ (" = ".toList ++ ("measure".toList ++ ' ' :: (v.text ++ [';']))))) =
      .measure v.text := by
  have hne : name.toList ++ idx ≠ [] := append_ne_nil_of_left_ne_nil h.name.ne_nil _
  have hm := assignedMeasure?_wire hne (forall_mem_append.2 ⟨h.name.isTargetChar, hidx⟩) v
  rw [append_assoc, append_assoc] at hm
  rw [h.read_eq, hm, Option.elim_some]

theorem isPlain_data (h : IsDataText v) : IsPlain v := by
  obtain ⟨c, hc, hm, hblank⟩ := h.head
  obtain ⟨more, rfl⟩ := head?_eq_some_iff.1 hc
  have hafter : after? "measure" (c :: more) = none := after?_eq_none fun hp => hm (cons_prefix_cons.1 hp).1.symm
  rw [IsPlain, (stops_cons.2 (isSpace_of_isBlank hblank)).dropWhile, hafter]
  rfl

theorem assignedMeasure?_value {t : List Char} (ht : '=' ∉ t) (hv : IsPlain v) :
    assignedMeasure? (t ++ (" = ".toList ++ v)) = none := by
  have hblank : IsPlain (' ' :: v) := by
    unfold IsPlain
    rw [dropWhile_cons, if_pos (by decide)]
    exact hv
  have htext : t ++ (" = ".toList ++ v) = (t ++ [' ']) ++ '=' :: ' ' :: v := by
    rw [append_assoc]
    rfl
  rw [htext]
  exact assignedMeasure?_plain (by simp [ht]) hblank

theorem read_assign {idx : List Char} (h : IsAssignment name idx) (hidx : '=' ∉ idx)
    (hv : IsPlain v) : read (name.toList ++ (idx ++ (" = ".toList ++ v))) = .other := by
  have hm : assignedMeasure? ((name.toList ++ idx) ++ (" = ".toList ++ v)) = none :=
    assignedMeasure?_value (by simp [h.name.equals_not_mem, hidx]) hv
  rw [append_assoc] at hm
  rw [h.read_eq, hm]
  rfl

/-! ### Declarations -/

def typeWords : List String := ["bit", "bool", "int", "float", "angle", "array", "duration"]

theorem typeWords_chars : ∀ s ∈ typeWords, IsFree s.toList ∧ s.toList.all isWord = true ∧
    keywords.contains (String.ofList s.toList) = true := by
  unfold IsFree
  decide

theorem text_bit (n : Int) (elem : Option Ty) (dims : List Int) : (Ty.mk .bit n elem dims).text = "bit".toList ∨
      ∃ k : Nat, (Ty.mk .bit n elem dims).text = "bit".toList ++ '[' :: (Word.digits k ++ [']']) := by
  by_cases hpos : 0 < n
  · obtain ⟨k, rfl⟩ := Int.eq_ofNat_of_zero_le hpos.le
    exact .inr ⟨k, if_pos hpos⟩
  · exact .inl (if_neg hpos)

/-- A type starts with its word, and goes on with a size in brackets if at all. -/
theorem exists_text_classical (h : t.IsClassical) : ∃ s ∈ typeWords, ∃ size,
    t.text = s.toList ++ size ∧ IsIndex size ∧ (t.kind = .bit ∨ s.toList ≠ "bit".toList) := by
  obtain ⟨kind, size, elem, dims⟩ := t
  cases kind with
  | bit =>
    rcases text_bit size elem dims with htext | ⟨k, htext⟩
    · exact ⟨"bit", by decide, [], htext, .inl rfl, .inl rfl⟩
    · exact ⟨"bit", by decide, _, htext, .inr ⟨_, rfl⟩, .inl rfl⟩
  | bool => exact ⟨"bool", by decide, [], rfl, .inl rfl, .inr (by decide)⟩
  | int => exact ⟨"int", by decide, _, rfl, .inr ⟨_, rfl⟩, .inr (by decide)⟩
  | float => exact ⟨"float", by decide, _, rfl, .inr ⟨_, rfl⟩, .inr (by decide)⟩
  | angle => exact ⟨"angle", by decide, _, rfl, .inr ⟨_, rfl⟩, .inr (by decide)⟩
  | array =>
    refine ⟨"array", by decide, '[' :: (tyText elem ++ ',' :: ' ' :: (commaSep (dims.map Word.text) ++ [']'])),
      ?_, .inr ⟨_, rfl⟩, .inr (by decide)⟩
    cases elem with
    | none => rfl
    | some t => exact append_assoc "array[".toList t.text _
  | duration => exact ⟨"duration", by decide, [], rfl, .inl rfl, .inr (by decide)⟩
  | qubit => exact absurd h (by simp [Ty.IsClassical])
  | other n => exact absurd h (by simp [Ty.IsClassical])

theorem Heads.gate?_keyword (h : Heads w rest) (hkey : keywords.contains (String.ofList w) = true) :
    Statement.gate? (w ++ rest) = none := by
  rw [h.gate?]
  cases w.head? with
  | none => rfl
  | some c =>
    simp only [hkey, if_true, Option.bind_fun_none, ite_self]

/-- What follows the type in a declaration. -/
structure IsDeclared (name : String) (init : List Char) : Prop where
  name : IsIdentifier name
  init : init = [';'] ∨ ∃ v, init = " = ".toList ++ v ∧ IsPlain v

theorem equals_not_mem_tyText (t : Option Ty) : '=' ∉ tyText t := by
  cases t with
  | none => decide
  | some t => exact fun h => absurd (tyText_typeChars t _ h) (by decide)

namespace IsDeclared

variable {init : List Char}

/-- The declaration stores no measurement, with its type or without. -/
theorem assignedMeasure? (h : IsDeclared name init) {t : List Char} (ht : '=' ∉ t) :
    Statement.assignedMeasure? (t ++ (name.toList ++ init)) = none := by
  have hname := h.name.equals_not_mem
  rcases h.init with rfl | ⟨v, rfl, hv⟩
  · exact assignedMeasure?_of_not_mem (by simp [ht, hname])
  · rw [← append_assoc]
    exact assignedMeasure?_value (by simp [ht, hname]) hv

theorem afterBitType? (hname : IsIdentifier name) (ht : t.kind = .bit) :
    Statement.afterBitType? (t.text ++ ' ' :: (name.toList ++ init)) = some (name.toList ++ init) := by
  have hstops : Stops isSpace (name.toList ++ init) := by
    obtain ⟨c, cs, hcs⟩ := exists_cons_of_ne_nil hname.ne_nil
    have hc := hname.isWord c (hcs ▸ mem_cons_self)
    rw [hcs]
    exact stops_cons.2 (isSpace_of_isBlank (isBlank_of_isWord hc))
  obtain ⟨kind, size, elem, dims⟩ := t
  cases ht
  rcases text_bit size elem dims with htext | ⟨k, htext⟩
  · rw [htext]
    unfold Statement.afterBitType?
    rw [after?_append]
    exact afterSpaces?_blank hstops
  · have hline : (Ty.mk .bit size elem dims).text ++ ' ' :: (name.toList ++ init) =
        "bit".toList ++ '[' :: (Word.digits k ++ ']' :: ' ' :: (name.toList ++ init)) := by
      rw [htext]
      simp
    rw [hline]
    unfold Statement.afterBitType?
    rw [after?_append]
    show ((digitsUntil? ']' (Word.digits k ++ ']' :: ' ' :: (name.toList ++ init))).bind
      fun x => afterSpaces? x.2) = _
    rw [Wire.digitsUntil?_append, Option.bind_some]
    exact afterSpaces?_blank hstops

theorem measure?_bit (h : IsDeclared name init) (ht : t.kind = .bit) :
    measure? (t.text ++ ' ' :: (name.toList ++ init)) = none := by
  have hty : '=' ∉ t.text := equals_not_mem_tyText (some t)
  have hname : Statement.assignedMeasure? (name.toList ++ init) = none := h.assignedMeasure? not_mem_nil
  have hline : Statement.assignedMeasure? ((t.text ++ [' ']) ++ (name.toList ++ init)) = none :=
    h.assignedMeasure? (by simp [hty])
  rw [append_assoc] at hline
  rw [measure?, afterBitType? h.name ht]
  show (Statement.assignedMeasure? (name.toList ++ init) <|> _) = none
  rw [hname]
  exact hline

theorem measure? (h : IsDeclared name init) {t : Option Ty} {size : List Char} (ht : tyText t = w ++ size)
    (hheads : Heads w (size ++ ' ' :: (name.toList ++ init))) (hbit : w ≠ "bit".toList) :
    Statement.measure? (tyText t ++ ' ' :: (name.toList ++ init)) = none := by
  have hline : Statement.assignedMeasure? ((tyText t ++ [' ']) ++ (name.toList ++ init)) = none :=
    h.assignedMeasure? (by simpa using equals_not_mem_tyText t)
  rw [append_assoc] at hline
  rw [ht, append_assoc] at hline ⊢
  exact (hheads.measure? hbit).trans hline

theorem read_eq (h : IsDeclared name init) (ht : t.IsClassical) :
    read (t.text ++ ' ' :: (name.toList ++ init)) = .other := by
  obtain ⟨s, hs, size, htext, hsize, hbit⟩ := exists_text_classical ht
  obtain ⟨hfree, hall, hkey⟩ := typeWords_chars s hs
  have hheads : Heads s.toList (size ++ ' ' :: (name.toList ++ init)) := by
    refine ⟨hall, ?_⟩
    rcases hsize with rfl | ⟨x, rfl⟩
    · exact stops_cons.2 (by decide)
    · exact stops_cons.2 (by decide)
  have hm : Statement.measure? (t.text ++ ' ' :: (name.toList ++ init)) = none := by
    rcases hbit with hbit | hbit
    · exact h.measure?_bit hbit
    · exact @measure? _ _ _ h (some t) size htext hheads hbit
  rw [htext, append_assoc] at hm ⊢
  rw [hheads.read_eq hfree hm, hheads.gate?_keyword hkey]
  rfl

end IsDeclared

theorem read_measure (hname : IsIdentifier name) (ht : t.kind = .bit) (v : Wire) : read (t.text ++ ' ' ::
      (name.toList ++ (" = ".toList ++ ("measure".toList ++ ' ' :: (v.text ++ [';']))))) =
      .measure v.text := by
  have hassigned := assignedMeasure?_wire hname.ne_nil hname.isTargetChar v
  rw [append_assoc] at hassigned
  have hmeasure : measure? (t.text ++ ' ' ::
      (name.toList ++ (" = ".toList ++ ("measure".toList ++ ' ' :: (v.text ++ [';']))))) = some v.text := by
    rw [measure?, IsDeclared.afterBitType? hname ht]
    show (assignedMeasure? _ <|> _) = _
    rw [hassigned]
    rfl
  have hregister : register? (t.text ++ ' ' ::
      (name.toList ++ (" = ".toList ++ ("measure".toList ++ ' ' :: (v.text ++ [';']))))) = none := by
    obtain ⟨kind, size, elem, dims⟩ := t
    cases ht
    rcases text_bit size elem dims with htext | ⟨k, htext⟩
    · rw [htext]
      exact Heads.register? ⟨by decide, stops_cons.2 (by decide)⟩ (by decide)
    · rw [htext, append_assoc]
      exact Heads.register? ⟨by decide, stops_cons.2 (by decide)⟩ (by decide)
  unfold read
  rw [hregister, hmeasure]

/-! ### The register -/

theorem read_register {n : Nat} (h : (n : Int) ≤ Word.largest) :
    read ("qubit[".toList ++ (Word.digits n ++ ']' :: ' ' :: (registerName.toList ++ [';']))) = .register n := by
  have hregister : register? ("qubit[".toList ++
      (Word.digits n ++ ']' :: ' ' :: (registerName.toList ++ [';']))) = some n := by
    have hspaces : afterSpaces? (' ' :: (registerName.toList ++ [';'])) = some (registerName.toList ++ [';']) :=
      afterSpaces?_blank (stops_cons.2 (by decide))
    unfold register?
    simp only [after?_append, Option.bind_eq_bind, Option.bind_some, Wire.digitsUntil?_append,
      Wire.readClamped_digits h, hspaces, if_true]
  unfold read
  rw [hregister]

end QasmStudio.Statement
