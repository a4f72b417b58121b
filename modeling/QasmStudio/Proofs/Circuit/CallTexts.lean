import QasmStudio.Proofs.Circuit.Flow

/-!
# Where a call stands in a text

The reader takes a line for a call of `n` if `n` stands in it with a parenthesis after it, be it as the end of
a longer name. `Text.Shadowed names n cs` says that the text `cs` looks like a call of `n` only if it looks like
one of one of the names as well. A parenthesis in the text of an expression comes after the name of a call, or
after a sign, so `Expr.Shadowed` compares names only.
-/

namespace QasmStudio

open Text List

namespace Text

variable {names : List String} {n f : String} {w xs ys cs : List Char} {c : Char}

/-- What does not hold `c` stands on one side of it. -/
theorem isInfix_left_or_right (hc : c ∉ w) (h : w <:+: xs ++ c :: ys) : w <:+: xs ∨ w <:+: ys := by
  obtain ⟨u, v, heq⟩ := h
  rw [append_assoc] at heq
  rcases append_eq_append_iff.1 heq with ⟨a, rfl, hrest⟩ | ⟨a, rfl, hrest⟩
  · rcases append_eq_append_iff.1 hrest with ⟨b, rfl, -⟩ | ⟨b, rfl, htail⟩
    · exact .inl ⟨u, b, by simp⟩
    · cases b with
      | nil => exact .inl ⟨u, [], by simp⟩
      | cons d b =>
        rw [(List.cons.inj htail).1] at hc
        exact absurd (by simp) hc
  · cases a with
    | nil =>
      cases w with
      | nil => exact .inl nil_infix
      | cons d w =>
        rw [(List.cons.inj hrest).1] at hc
        exact absurd mem_cons_self hc
    | cons d a =>
      rw [(List.cons.inj hrest).2]
      exact .inr ⟨a, v, by simp⟩

/-- A word with `c` after it ends what comes before the first `c`, or stands after that. -/
theorem isSuffix_or_after (hw : c ∉ w) (hxs : c ∉ xs) (h : w ++ [c] <:+: xs ++ c :: ys) :
    w <:+ xs ∨ w ++ [c] <:+: ys := by
  obtain ⟨u, v, heq⟩ := h
  rw [append_assoc, append_assoc, singleton_append] at heq
  rcases append_eq_append_iff.1 heq with ⟨a, rfl, hrest⟩ | ⟨a, rfl, hrest⟩
  · have ha : c ∉ a := fun hmem => hxs (mem_append_right _ hmem)
    have hstops : ∀ zs, Stops (· != c) (c :: zs) := fun zs => stops_cons.2 (by simp)
    have hall : ∀ zs : List Char, c ∉ zs → ∀ d ∈ zs, (d != c) = true := fun zs hzs d hd =>
      bne_iff_ne.2 fun heq => hzs (heq ▸ hd)
    have hwa : w = a := by
      have hspan := congrArg (List.span (· != c)) hrest
      rw [span_append (hall w hw) (hstops v), span_append (hall a ha) (hstops ys)] at hspan
      exact congrArg Prod.fst hspan
    rw [hwa]
    exact .inl (suffix_append u a)
  · cases a with
    | nil =>
      cases w with
      | nil => exact .inl nil_suffix
      | cons d w =>
        rw [(List.cons.inj hrest).1] at hw
        exact absurd mem_cons_self hw
    | cons d a =>
      rw [(List.cons.inj hrest).2]
      exact .inr ⟨a, v, by simp⟩

theorem infix_dropWhile {p : Char → Bool} (hne : w ≠ []) (hw : ∀ c ∈ w, p c = false) (h : w <:+: cs) :
    w <:+: cs.dropWhile p := by
  induction cs with
  | nil => exact h
  | cons c cs ih =>
    rw [dropWhile_cons]
    split
    · rename_i hc
      rcases infix_cons_iff.1 h with hp | hin
      · obtain ⟨d, w, rfl⟩ := exists_cons_of_ne_nil hne
        rw [(cons_prefix_cons.1 hp).1] at hw
        rw [hw c mem_cons_self] at hc
        cases hc
      · exact ih hin
    · exact h

theorem infix_trim (hne : w ≠ []) (hw : ∀ c ∈ w, isBlank c = false) (h : w <:+: cs) : w <:+: trim cs := by
  have hleft : w.reverse <:+: (trimLeft cs).reverse := reverse_infix.2 <| infix_dropWhile hne hw h
  have hright : w.reverse <:+: (trimLeft cs).reverse.dropWhile isBlank :=
    infix_dropWhile (by simpa using hne) (by simpa using hw) hleft
  rw [← reverse_infix, reverse_reverse] at hright
  exact hright

/-! ### Names and calls -/

/-- A name made of letters, digits and underscores. -/
def IsWordName (name : String) : Prop := name.toList ≠ [] ∧ name.toList.all isWord = true

theorem IsWordName.not_mem (h : IsWordName n) (hc : isWord c = false) : c ∉ n.toList := fun hmem => by
  rw [all_eq_true.1 h.2 c hmem] at hc
  cases hc

/-- The name ends with one of the names. -/
def HasTail (names : List String) (name : String) : Prop := ∃ m ∈ names, m.toList <:+ name.toList

theorem HasTail.hasCall (h : HasTail names f) (ys : List Char) : HasCall names (f.toList ++ '(' :: ys) := by
  obtain ⟨m, hm, u, hu⟩ := h
  exact ⟨m, hm, u, ys, by rw [← hu]; simp⟩

theorem HasCall.hasTail_or (hnames : ∀ m ∈ names, IsWordName m) (hf : '(' ∉ f.toList)
    (h : HasCall names (f.toList ++ '(' :: ys)) : HasTail names f ∨ HasCall names ys := by
  obtain ⟨m, hm, hcall⟩ := h
  rcases isSuffix_or_after ((hnames m hm).not_mem (by decide)) hf hcall with htail | hin
  · exact .inl ⟨m, hm, htail⟩
  · exact .inr ⟨m, hm, hin⟩

/-- A character that is neither in a name nor after that of a call. -/
def IsSign (c : Char) : Prop := isWord c = false ∧ c ≠ '('

instance (c : Char) : Decidable (IsSign c) := inferInstanceAs (Decidable (_ ∧ _))

/-- No call goes over a sign. -/
theorem HasCall.or_of_sign (hnames : ∀ m ∈ names, IsWordName m) (hc : IsSign c)
    (h : HasCall names (xs ++ c :: ys)) : HasCall names xs ∨ HasCall names ys := by
  obtain ⟨m, hm, hcall⟩ := h
  have hnot : c ∉ m.toList ++ ['('] := by simp [(hnames m hm).not_mem hc.1, hc.2]
  exact (isInfix_left_or_right hnot hcall).imp (⟨m, hm, ·⟩) (⟨m, hm, ·⟩)

theorem HasCall.trim (hnames : ∀ m ∈ names, IsWordName m) (h : HasCall names cs) : HasCall names (trim cs) := by
  obtain ⟨m, hm, hcall⟩ := h
  refine ⟨m, hm, infix_trim (by simp) (fun c hc => ?_) hcall⟩
  rcases mem_append.1 hc with hc | hc
  · exact isBlank_of_isWord (all_eq_true.1 (hnames m hm).2 c hc)
  · rw [mem_singleton.1 hc]
    decide

def Shadowed (names : List String) (n : String) (cs : List Char) : Prop := HasCall [n] cs → HasCall names cs

namespace Shadowed

theorem of_not_mem (h : '(' ∉ cs) : Shadowed names n cs := fun hcall => absurd hcall.paren_mem h

theorem trim (hnames : ∀ m ∈ names, IsWordName m) (h : Shadowed names n cs) : Shadowed names n (trim cs) :=
  fun hcall => (h (hcall.mono (trim_isInfix cs))).trim hnames

variable (hn : IsWordName n)

include hn

theorem append_cons (hc : IsSign c) (hx : Shadowed names n xs)
    (hy : Shadowed names n ys) : Shadowed names n (xs ++ c :: ys) := fun hcall => by
  rcases hcall.or_of_sign (forall_mem_singleton.2 hn) hc with h | h
  · exact (hx h).append_right _
  · exact ((hy h).cons c).append_left xs

theorem cons (hc : IsSign c) (hy : Shadowed names n ys) : Shadowed names n (c :: ys) :=
  append_cons hn hc (of_not_mem not_mem_nil) hy

theorem concat (hc : IsSign c) (hx : Shadowed names n xs) : Shadowed names n (xs ++ [c]) :=
  append_cons hn hc hx (of_not_mem not_mem_nil)

theorem signs (hxs : ∀ c ∈ xs, IsSign c) (hy : Shadowed names n ys) : Shadowed names n (xs ++ ys) := by
  induction xs with
  | nil => exact hy
  | cons c xs ih =>
    obtain ⟨hc, hxs⟩ := forall_mem_cons.1 hxs
    exact cons hn hc (ih hxs)

theorem call (hf : '(' ∉ f.toList) (htail : HasTail [n] f → HasTail names f) (hy : Shadowed names n ys) :
    Shadowed names n (f.toList ++ '(' :: ys) := fun hcall => by
  rcases hcall.hasTail_or (forall_mem_singleton.2 hn) hf with h | h
  · exact (htail h).hasCall ys
  · exact ((hy h).cons '(').append_left _

theorem enclosed (hx : Shadowed names n xs) : Shadowed names n ('(' :: (xs ++ [')'])) := by
  have htail : ¬ HasTail [n] "" := fun h => by
    obtain ⟨m, hm, hsuffix⟩ := h
    rw [mem_singleton.1 hm] at hsuffix
    exact hn.1 (suffix_nil.1 hsuffix)
  exact call (f := "") hn (by decide) (fun h => absurd h htail) (concat hn (by decide) hx)

theorem commaSep {parts : List (List Char)} (h : ∀ cs ∈ parts, Shadowed names n cs) :
    Shadowed names n (commaSep parts) := by
  induction parts with
  | nil => exact of_not_mem (by decide)
  | cons first others ih =>
    obtain ⟨hfirst, hothers⟩ := forall_mem_cons.1 h
    cases others with
    | nil =>
      rw [QasmStudio.commaSep, intercalate_singleton]
      exact hfirst
    | cons second others =>
      rw [QasmStudio.commaSep, intercalate_cons_cons, append_assoc]
      exact append_cons hn (by decide) hfirst (cons hn (by decide) (ih hothers))

end Shadowed

end Text

/-! ### Expressions -/

namespace Expr

/-- Every function that is called has a name that ends with one of the names if it ends with `n`, and there is
no other parenthesis than those of calls and operands. -/
inductive Shadowed (names : List String) (n : String) : Expr → Prop
  | plain {e : Expr} : '(' ∉ e.text → Shadowed names n e
  | index {base idx : Expr} : Shadowed names n base → Shadowed names n idx → Shadowed names n (.index base idx)
  | binary {op : String} {l r : Expr} : '(' ∉ op.toList → Shadowed names n l → Shadowed names n r →
      Shadowed names n (.binary op l r)
  | unary {op : String} {x : Expr} : (∀ c ∈ op.toList, IsSign c) → Shadowed names n x →
      Shadowed names n (.unary op x)
  | call {name : String} {args : List Expr} {returns : Option Ty} : '(' ∉ name.toList →
      (HasTail [n] name → HasTail names name) → (∀ e ∈ args, Shadowed names n e) →
      Shadowed names n (.call name args returns)
  | measure {q : Expr} : Shadowed names n q → Shadowed names n (.measure q)
  | range {start stop : Expr} : Shadowed names n start → Shadowed names n stop →
      Shadowed names n (.range start stop none)
  | steps {start stop step : Expr} : Shadowed names n start → Shadowed names n stop → Shadowed names n step →
      Shadowed names n (.range start stop (some step))
  | array {elems : List Expr} {ty : Option Ty} : (∀ e ∈ elems, Shadowed names n e) →
      Shadowed names n (.array elems ty)

variable {names : List String} {n : String} {e : Expr} {es : List Expr}

theorem shadowed_enclose (hn : IsWordName n) (x : Expr) {cs : List Char} (h : Text.Shadowed names n cs) :
    Text.Shadowed names n (x.enclose cs) := by
  unfold enclose
  split
  · exact h.enclosed hn
  · exact h

theorem shadowed_texts (hn : IsWordName n) (h : ∀ e ∈ es, Text.Shadowed names n e.text) :
    Text.Shadowed names n (listText es) := by
  refine .commaSep hn fun cs hcs => ?_
  rw [texts_eq_map] at hcs
  obtain ⟨e, he, rfl⟩ := mem_map.1 hcs
  exact h e he

theorem Shadowed.text (hn : IsWordName n) (h : e.Shadowed names n) : Text.Shadowed names n e.text := by
  induction h with
  | plain hparen => exact .of_not_mem hparen
  | index _ _ ihbase ihidx =>
    exact .append_cons hn (by decide) ihbase (ihidx.concat hn (by decide))
  | @binary op l r hop _ _ ihl ihr =>
    exact .append_cons hn (by decide) (shadowed_enclose hn l ihl)
      (.append_cons hn (by decide) (.of_not_mem hop) (shadowed_enclose hn r ihr))
  | @unary op x hop _ ih => exact .signs hn hop (shadowed_enclose hn x ih)
  | @call name args returns hname htail _ ih =>
    exact .call hn hname htail ((shadowed_texts hn ih).concat hn (by decide))
  | @measure q _ ih =>
    show Text.Shadowed names n ("measure".toList ++ ' ' :: q.text)
    exact .append_cons hn (by decide) (.of_not_mem (by decide)) ih
  | range _ _ ihstart ihstop =>
    exact .cons hn (by decide) (.append_cons hn (by decide) ihstart (ihstop.concat hn (by decide)))
  | steps _ _ _ ihstart ihstop ihstep =>
    exact .cons hn (by decide) (.append_cons hn (by decide) ihstart
      (.append_cons hn (by decide) ihstep (ihstop.concat hn (by decide))))
  | @array elems ty _ ih =>
    exact .cons hn (by decide) ((shadowed_texts hn ih).concat hn (by decide))

theorem shadowed_listText (hn : IsWordName n) (h : ∀ e ∈ es, e.Shadowed names n) :
    Text.Shadowed names n (listText es) :=
  shadowed_texts hn fun e he => (h e he).text hn

end Expr

/-! ### Statements -/

namespace Stmt

/-- No call in the line ends with `n`, unless it ends with one of the names. The content of control flow is left
out. -/
inductive Shadowed (names : List String) (n : String) : Stmt → Prop
  | control {st : Stmt} : Sketch.isLine st = false → Shadowed names n st
  | declare {v : Var} : '(' ∉ v.parameter → (∀ e, v.init = some e → e.Shadowed names n) →
      Shadowed names n (.declare v)
  | assign {target value : Expr} : target.Shadowed names n → value.Shadowed names n →
      Shadowed names n (.assign target value)
  | eval {e : Expr} : e.Shadowed names n → Shadowed names n (.eval e)
  | gate {name : String} {args qubits : List Expr} : '(' ∉ name.toList →
      (args ≠ [] → HasTail [n] name → HasTail names name) → (∀ e ∈ args ++ qubits, e.Shadowed names n) →
      Shadowed names n (.gate name args qubits)
  | reset {q : Expr} : q.Shadowed names n → Shadowed names n (.reset q)
  | barrier {qubits : List Expr} : (∀ q ∈ qubits, q.Shadowed names n) → Shadowed names n (.barrier qubits)
  | delay {duration : Expr} {targets : List Expr} : duration.Shadowed names n →
      (∀ e ∈ targets, e.Shadowed names n) → Shadowed names n (.delay duration targets)
  | break : Shadowed names n .break
  | continue : Shadowed names n .continue
  | return {value : Option Expr} : (∀ e, value = some e → e.Shadowed names n) → Shadowed names n (.return value)

open Sketch (written)

variable {names : List String} {n : String} {st : Stmt}

theorem shadowed_gate (hn : IsWordName n) {name : String} {args qubits : List Expr} (hname : '(' ∉ name.toList)
    (htail : args ≠ [] → HasTail [n] name → HasTail names name) (h : ∀ e ∈ args ++ qubits, e.Shadowed names n) :
    Text.Shadowed names n (written (.gate name args qubits)) := by
  obtain ⟨hargs, hqubits⟩ := forall_mem_append.1 h
  refine .append_cons hn (by decide) ?_ (Expr.shadowed_listText hn hqubits)
  cases args with
  | nil => exact .of_not_mem (by simpa [Statement.argsText] using hname)
  | cons e es =>
    exact .call hn hname (htail (cons_ne_nil e es)) ((Expr.shadowed_listText hn hargs).concat hn (by decide))

theorem Shadowed.written (hn : IsWordName n) (h : st.Shadowed names n) (hline : Sketch.isLine st = true) :
    Text.Shadowed names n (written st) := by
  cases h with
  | control hcontrol => exact absurd hline (by simp [hcontrol])
  | @declare v hparameter hinit =>
    obtain ⟨name, ty, init⟩ := v
    have hty : '(' ∉ tyText ty := fun hmem => hparameter (mem_append_left _ hmem)
    have hname : '(' ∉ name.toList := fun hmem => hparameter (mem_append_right _ (mem_cons_of_mem _ hmem))
    refine .append_cons hn (by decide) (.of_not_mem hty) ?_
    cases init with
    | none => exact .of_not_mem (by simpa using hname)
    | some e =>
      exact .append_cons hn (by decide) (.of_not_mem hname)
        (.cons hn (by decide) (.cons hn (by decide) ((hinit e rfl).text hn)))
  | @assign target value ht hv =>
    show Text.Shadowed names n (target.text ++ " = ".toList ++ value.text)
    rw [append_assoc]
    exact .append_cons hn (by decide) (ht.text hn) (.cons hn (by decide) (.cons hn (by decide) (hv.text hn)))
  | eval he => exact he.text hn
  | gate hname htail hexprs => exact shadowed_gate hn hname htail hexprs
  | @reset q hq =>
    show Text.Shadowed names n ("reset".toList ++ ' ' :: q.text)
    exact .append_cons hn (by decide) (.of_not_mem (by decide)) (hq.text hn)
  | @barrier qubits hqubits =>
    cases qubits with
    | nil => exact .of_not_mem (by decide)
    | cons q qs =>
      show Text.Shadowed names n ("barrier".toList ++ ' ' :: Expr.listText (q :: qs))
      exact .append_cons hn (by decide) (.of_not_mem (by decide)) (Expr.shadowed_listText hn hqubits)
  | @delay duration targets hd ht =>
    show Text.Shadowed names n ("delay".toList ++ '[' :: duration.text ++ ']' :: ' ' :: Expr.listText targets)
    exact .append_cons hn (by decide) (.append_cons hn (by decide) (.of_not_mem (by decide)) (hd.text hn))
      (.cons hn (by decide) (Expr.shadowed_listText hn ht))
  | «break» => exact .of_not_mem (by decide)
  | «continue» => exact .of_not_mem (by decide)
  | @«return» value hv =>
    cases value with
    | none => exact .of_not_mem (by decide)
    | some e =>
      show Text.Shadowed names n ("return".toList ++ ' ' :: e.text)
      exact .append_cons hn (by decide) (.of_not_mem (by decide)) ((hv e rfl).text hn)

end Stmt

end QasmStudio
