import QasmStudio.Lang.Expr
import QasmStudio.Proofs.Number.Word
import QasmStudio.Proofs.Text.Cut

/-!
# Printed expressions are unambiguous

Different formulas have different texts, so the grouping of an expression is seen from its text, whatever
precedence the operators have for a reader. The text of an operand tells where it ends: what follows is a
blank, a parenthesis or a comma, and none of these goes on with it. The induction is on the first of two
formulas with one text, and shows more: two texts that agree up to what follows them are those of one
formula, and what follows is the same. The text of a duration tells its exact length.
-/

namespace QasmStudio

open Text List

variable {name : String}

/-! ### Formulas -/

namespace Text

/-- The characters of names; every character beyond ASCII counts as a letter. -/
def isNameChar (c : Char) : Bool := c.isAlphanum || c = '_' || decide (128 ≤ c.toNat)

end Text

/-- A name: no digit comes first, and it is no truth value. -/
structure IsName (name : String) : Prop where
  head : ∃ c, name.toList.head? = some c ∧ c.isDigit = false
  chars : name.toList.all isNameChar = true
  ne_true : name ≠ "true"
  ne_false : name ≠ "false"

theorem IsName.exists_cons (h : IsName name) :
    ∃ c cs, name.toList = c :: cs ∧ isNameChar c = true ∧ c.isDigit = false := by
  obtain ⟨c, hc, hdigit⟩ := h.head
  obtain ⟨cs, hcs⟩ := head?_eq_some_iff.1 hc
  exact ⟨c, cs, hcs, all_eq_true.1 h.chars c (hcs ▸ mem_cons_self), hdigit⟩

namespace Expr
variable {e : Expr} {c : Char} {op : String}

def operators : List String := ["+", "-", "*", "/", "==", "!=", "<", "<=", ">", ">=", "&&", "||"]

/-- Expressions built from variables, calls, integers and truth values with the operators. -/
inductive IsFormula : Expr → Prop
  | int (n : Int) : IsFormula (.int n)
  | bool (b : Bool) : IsFormula (.bool b)
  | var {name : String} {ty : Option Ty} {init : Option Expr} : IsName name → IsFormula (.var name ty init)
  | not {x : Expr} : IsFormula x → IsFormula (.unary "!" x)
  | binary {op : String} {l r : Expr} : op ∈ operators → IsFormula l → IsFormula r → IsFormula (.binary op l r)
  | call {name : String} {args : List Expr} {returns : Option Ty} : IsName name → (∀ a ∈ args, IsFormula a) →
      IsFormula (.call name args returns)

mutual
/-- The formula without types: a variable by its name, a call by its name and arguments. -/
def bare : Expr → Expr
  | .var name _ _ => .var name none none
  | .unary op x => .unary op x.bare
  | .binary op l r => .binary op l.bare r.bare
  | .call name args _ => .call name (bares args) none
  | e => e

def bares : List Expr → List Expr
  | [] => []
  | e :: es => e.bare :: bares es
end

theorem isBinary_bare (e : Expr) : e.bare.isBinary = e.isBinary := by
  cases e with
  | _ => rfl

/-- The text of a formula as an operand. -/
def operand (e : Expr) : List Char := e.enclose e.text

theorem operand_of_not_binary (h : e.isBinary = false) : e.operand = e.text := by
  rw [operand, enclose, h, if_neg (by decide)]

theorem text_binary (op : String) (l r : Expr) :
    (binary op l r).text = l.operand ++ ' ' :: (op.toList ++ ' ' :: r.operand) := rfl

/-! ### First characters -/

/-- What the first character of an operand tells. -/
inductive Lead where
  | number
  | word
  | negation
  | paren
  deriving DecidableEq

/-- What an operand starts with. -/
def lead : Expr → Lead
  | .int _ => .number
  | .unary .. => .negation
  | .binary .. => .paren
  | _ => .word

def Lead.ofChar (c : Char) : Lead :=
  if c = '!' then .negation
  else if c = '(' then .paren
  else if c = '-' || c.isDigit then .number
  else .word

theorem Lead.ofChar_name (h : isNameChar c = true) (hdigit : c.isDigit = false) : Lead.ofChar c = .word := by
  have hminus : c ≠ '-' := ne_of_class h (by decide)
  unfold ofChar
  rw [if_neg (ne_of_class h (by decide)), if_neg (ne_of_class h (by decide)), if_neg (by simp [hminus, hdigit])]

theorem Lead.ofChar_digit (h : c.isDigit = true) : Lead.ofChar c = .number := by
  unfold ofChar
  rw [if_neg (ne_of_class h (by decide)), if_neg (ne_of_class h (by decide)), if_pos (by simp [h])]

theorem exists_operand_cons (h : e.IsFormula) : ∃ c cs, e.operand = c :: cs ∧ Lead.ofChar c = e.lead ∧ c ≠ ')' := by
  cases h with
  | int n =>
    cases n with
    | ofNat n =>
      obtain ⟨c, cs, hcs⟩ := exists_cons_of_ne_nil (Word.digits_ne_nil n)
      have hc : c.isDigit = true := Word.isDigit_of_mem_digits (hcs ▸ mem_cons_self)
      exact ⟨c, cs, hcs, Lead.ofChar_digit hc, ne_of_class hc (by decide)⟩
    | negSucc n => exact ⟨'-', Word.digits (n + 1), rfl, rfl, by decide⟩
  | bool b =>
    cases b with
    | true => exact ⟨'t', "rue".toList, rfl, rfl, by decide⟩
    | false => exact ⟨'f', "alse".toList, rfl, rfl, by decide⟩
  | var hname =>
    obtain ⟨c, cs, hcs, hc, hdigit⟩ := hname.exists_cons
    exact ⟨c, cs, hcs, Lead.ofChar_name hc hdigit, ne_of_class hc (by decide)⟩
  | @not x _ => exact ⟨'!', x.operand, rfl, rfl, by decide⟩
  | binary _ _ _ => exact ⟨'(', _, rfl, rfl, by decide⟩
  | @call name args _ hname _ =>
    obtain ⟨c, cs, hcs, hc, hdigit⟩ := hname.exists_cons
    refine ⟨c, cs ++ '(' :: (commaSep (texts args) ++ [')']), ?_, Lead.ofChar_name hc hdigit, ?_⟩
    · show name.toList ++ '(' :: (commaSep (texts args) ++ [')']) = _
      rw [hcs]
      rfl
    · rintro rfl
      exact absurd hc (by decide)

/-- Operands that start alike are of one kind. -/
theorem lead_eq {f : Expr} (he : e.IsFormula) (hf : f.IsFormula) {r r' : List Char}
    (h : e.operand ++ r = f.operand ++ r') : e.lead = f.lead := by
  obtain ⟨c, cs, hcs, hlead, -⟩ := exists_operand_cons he
  obtain ⟨d, ds, hds, hlead', -⟩ := exists_operand_cons hf
  rw [hcs, hds] at h
  rw [← hlead, ← hlead', (List.cons.inj h).1]

/-! ### Where a text ends -/

/-- An operand does not go on with this. -/
def Ends (cs : List Char) : Prop := ∀ c ∈ cs.head?, c ∈ [' ', ')', ',']

/-- Neither an operand nor an operation goes on with this. -/
def Closes (cs : List Char) : Prop := ∀ c ∈ cs.head?, c ∈ [')', ',']

variable {r r' : List Char}

theorem closes_nil : Closes [] := fun c hc => by cases hc

theorem ends_cons (h : c ∈ [' ', ')', ',']) (cs : List Char) : Ends (c :: cs) := fun d hd => by
  cases hd
  exact h

theorem closes_cons (h : c ∈ [')', ',']) (cs : List Char) : Closes (c :: cs) := fun d hd => by
  cases hd
  exact h

theorem Closes.ends (h : Closes r) : Ends r := fun c hc => mem_cons_of_mem _ (h c hc)

theorem Ends.stops (h : Ends r) {p : Char → Bool} (hp : ([' ', ')', ','].all fun c => !p c) = true) : Stops p r :=
  fun c hc => (Bool.not_eq_true' _).mp (all_eq_true.1 hp c (h c hc))

/-- The text is that of one operand only, wherever it ends. -/
def UniqueOperand (e : Expr) : Prop := ∀ (f : Expr) (r r' : List Char), f.IsFormula →
  Ends r → Ends r' → e.operand ++ r = f.operand ++ r' → e.bare = f.bare ∧ r = r'

/-- The text is that of one formula only, wherever it ends. -/
def UniqueText (e : Expr) : Prop := ∀ (f : Expr) (r r' : List Char), f.IsFormula →
  Closes r → Closes r' → e.text ++ r = f.text ++ r' → e.bare = f.bare ∧ r = r'

/-! ### Numbers and words -/

theorem append_inj_of_stops {p : Char → Bool} {xs ys : List Char} (hx : ∀ c ∈ xs, p c = true)
    (hy : ∀ c ∈ ys, p c = true) (hr : Stops p r) (hr' : Stops p r') (h : xs ++ r = ys ++ r') : xs = ys ∧ r = r' := by
  have hspan := span_append hx hr
  rw [h, span_append hy hr'] at hspan
  exact ⟨(Prod.mk.inj hspan).1.symm, (Prod.mk.inj hspan).2.symm⟩

def isNumberChar (c : Char) : Bool := c.isDigit || c = '-'

theorem isNumberChar_text (n : Int) : ∀ c ∈ Word.text n, isNumberChar c = true := by
  have hdigits : ∀ k : Nat, ∀ c ∈ Word.digits k, isNumberChar c = true := fun k c hc => by
    rw [isNumberChar, Word.isDigit_of_mem_digits hc]
    rfl
  cases n with
  | ofNat n => exact hdigits n
  | negSucc n => exact forall_mem_cons.2 ⟨rfl, hdigits (n + 1)⟩

theorem uniqueOperand_int (n : Int) : (int n).UniqueOperand := by
  intro f r r' hf hr hr' h
  have hlead := lead_eq (.int n) hf h
  cases hf with
  | int m =>
    obtain ⟨htext, hrest⟩ := append_inj_of_stops (isNumberChar_text n) (isNumberChar_text m)
      (hr.stops (by decide)) (hr'.stops (by decide)) h
    rw [Word.text_injective htext]
    exact ⟨rfl, hrest⟩
  | _ => cases hlead

/-- A name, a truth value or the name of a call, and what follows it. -/
theorem word_inj {w w' : List Char} (hw : w.all isNameChar = true) (hw' : w'.all isNameChar = true)
    (hr : Stops isNameChar r) (hr' : Stops isNameChar r') (h : w ++ r = w' ++ r') : w = w' ∧ r = r' :=
  append_inj_of_stops (all_eq_true.1 hw) (all_eq_true.1 hw') hr hr' h

theorem all_boolText (b : Bool) : ((bool b).text).all isNameChar = true := by
  cases b with
  | true => rfl
  | false => rfl

theorem boolText_inj : ∀ b b' : Bool, (bool b).text = (bool b').text → b = b' := by decide

theorem ne_boolText (h : IsName name) (b : Bool) : name.toList ≠ (bool b).text := by
  intro heq
  cases b with
  | true => exact h.ne_true (String.toList_inj.1 heq)
  | false => exact h.ne_false (String.toList_inj.1 heq)

def argsText (args : List Expr) : List Char := '(' :: (commaSep (texts args) ++ [')'])

theorem argsText_append_ne (args : List Expr) (x : List Char) (hr : Ends r) : argsText args ++ x ≠ r := by
  rintro rfl
  exact absurd (hr '(' rfl) (by decide)

theorem stops_argsText (args : List Expr) (x : List Char) : Stops isNameChar (argsText args ++ x) :=
  stops_cons.2 (by decide)

theorem Ends.stopsName (h : Ends r) : Stops isNameChar r := h.stops (by decide)

theorem uniqueOperand_bool (b : Bool) : (bool b).UniqueOperand := by
  intro f r r' hf hr hr' h
  have hlead := lead_eq (.bool b) hf h
  cases hf with
  | bool b' =>
    obtain ⟨htext, hrest⟩ := word_inj (all_boolText b) (all_boolText b') hr.stopsName hr'.stopsName h
    rw [boolText_inj b b' htext]
    exact ⟨rfl, hrest⟩
  | var hname =>
    exact absurd (word_inj (all_boolText b) hname.chars hr.stopsName hr'.stopsName h).1.symm (ne_boolText hname b)
  | @call name args returns hname _ =>
    have hcall : (bool b).text ++ r = name.toList ++ (argsText args ++ r') := by
      rw [← append_assoc]
      exact h
    obtain ⟨hword, -⟩ := word_inj (all_boolText b) hname.chars hr.stopsName (stops_argsText args r') hcall
    exact absurd hword.symm (ne_boolText hname b)
  | _ => cases hlead

theorem uniqueOperand_var (hname : IsName name) (ty : Option Ty) (init : Option Expr) :
    (var name ty init).UniqueOperand := by
  intro f r r' hf hr hr' h
  have hlead := lead_eq (.var hname) hf h
  cases hf with
  | bool b =>
    exact absurd (word_inj hname.chars (all_boolText b) hr.stopsName hr'.stopsName h).1 (ne_boolText hname b)
  | var hname' =>
    obtain ⟨hword, hrest⟩ := word_inj hname.chars hname'.chars hr.stopsName hr'.stopsName h
    rw [bare, bare, String.toList_inj.1 hword]
    exact ⟨rfl, hrest⟩
  | @call name' args returns hname' _ =>
    have hcall : name.toList ++ r = name'.toList ++ (argsText args ++ r') := by
      rw [← append_assoc]
      exact h
    obtain ⟨-, hrest⟩ := word_inj hname.chars hname'.chars hr.stopsName (stops_argsText args r') hcall
    exact absurd hrest.symm (argsText_append_ne args r' hr)
  | _ => cases hlead

/-! ### Operations -/

theorem uniqueOperand_not {x : Expr} (hx : x.IsFormula) (h : x.UniqueOperand) : (unary "!" x).UniqueOperand := by
  intro f r r' hf hr hr' heq
  have hlead := lead_eq (.not hx) hf heq
  cases hf with
  | @not y hy =>
    obtain ⟨hbare, hrest⟩ := h y _ _ hy hr hr' (List.cons.inj heq).2
    rw [bare, bare, hbare]
    exact ⟨rfl, hrest⟩
  | _ => cases hlead

/-- A text that is no operation is an operand. -/
theorem UniqueOperand.uniqueText (hbinary : e.isBinary = false) (h : e.UniqueOperand) : e.UniqueText := by
  intro f r r' hf hr hr' heq
  rw [← operand_of_not_binary hbinary] at heq
  cases hf with
  | @binary op a b _ ha _ =>
    -- the operand would be followed by a blank
    rw [text_binary, append_assoc] at heq
    obtain ⟨-, hrest⟩ := h a _ _ ha hr.ends (ends_cons (by decide) _) heq
    rw [hrest] at hr
    exact absurd (hr ' ' rfl) (by decide)
  | int n => exact h _ _ _ (.int n) hr.ends hr'.ends heq
  | bool b => exact h _ _ _ (.bool b) hr.ends hr'.ends heq
  | var hname => exact h _ _ _ (.var hname) hr.ends hr'.ends heq
  | not hx => exact h _ _ _ (.not hx) hr.ends hr'.ends heq
  | call hname hargs => exact h _ _ _ (.call hname hargs) hr.ends hr'.ends heq

theorem blank_not_mem_operator (h : op ∈ operators) : ∀ c ∈ op.toList, (c != ' ') = true := by
  have hall : op.toList.all (· != ' ') = true := by
    revert op
    decide
  exact all_eq_true.1 hall

/-- An operation is found from its left operand, its operator and its right operand. -/
theorem uniqueText_binary {a b : Expr} (hop : op ∈ operators) (ha : a.UniqueOperand)
    (hb : b.UniqueOperand) : (binary op a b).UniqueText := by
  intro f r r' hf hr hr' heq
  rw [text_binary, append_assoc] at heq
  have hblank : Ends (' ' :: (op.toList ++ ' ' :: b.operand) ++ r) := ends_cons (by decide) _
  have hother : f.isBinary = false → (binary op a b).bare = f.bare ∧ r = r' := fun hno => by
    rw [← operand_of_not_binary hno] at heq
    obtain ⟨-, hrest⟩ := ha f _ _ hf hblank hr'.ends heq
    rw [← hrest] at hr'
    have hclash := hr' ' ' rfl
    exact absurd hclash (by decide)
  cases hf with
  | @binary op' a' b' hop' ha' hb' =>
    rw [text_binary, append_assoc] at heq
    obtain ⟨hleft, hrest⟩ := ha a' _ _ ha' hblank (ends_cons (by decide) _) heq
    have htail : op.toList ++ ' ' :: (b.operand ++ r) = op'.toList ++ ' ' :: (b'.operand ++ r') := by
      simpa using hrest
    obtain ⟨hsign, hright⟩ := append_inj_of_stops (blank_not_mem_operator hop) (blank_not_mem_operator hop')
      (stops_cons.2 rfl) (stops_cons.2 rfl) htail
    obtain ⟨hbare, hend⟩ := hb b' _ _ hb' hr.ends hr'.ends (List.cons.inj hright).2
    rw [bare, bare, hleft, hbare, String.toList_inj.1 hsign]
    exact ⟨rfl, hend⟩
  | _ => exact hother rfl

/-- In parentheses an operation is an operand. -/
theorem UniqueText.uniqueOperand {a b : Expr} (he : (binary op a b).IsFormula)
    (h : (binary op a b).UniqueText) : (binary op a b).UniqueOperand := by
  intro f r r' hf hr hr' heq
  have hlead := lead_eq he hf heq
  cases hf with
  | @binary op' a' b' hop' ha' hb' =>
    have hinner : (binary op a b).text ++ ')' :: r = (binary op' a' b').text ++ ')' :: r' := by
      have htail := (List.cons.inj heq).2
      simpa using htail
    obtain ⟨hbare, hrest⟩ := h _ _ _ (.binary hop' ha' hb') (closes_cons (by decide) _)
      (closes_cons (by decide) _) hinner
    exact ⟨hbare, (List.cons.inj hrest).2⟩
  | _ => cases hlead

/-! ### Calls -/

def moreArgs (args : List Expr) : List Char := args.flatMap fun a => ',' :: ' ' :: a.text

theorem commaSep_texts_cons (a : Expr) (args : List Expr) : commaSep (texts (a :: args)) = a.text ++ moreArgs args := by
  induction args generalizing a with
  | nil =>
    show List.intercalate [',', ' '] [a.text] = _
    rw [intercalate_singleton]
    exact (append_nil _).symm
  | cons b args ih =>
    show List.intercalate [',', ' '] (a.text :: b.text :: texts args) = _
    rw [intercalate_cons_cons]
    have hrest : List.intercalate [',', ' '] (b.text :: texts args) = b.text ++ moreArgs args := ih b
    rw [hrest, append_assoc]
    rfl

theorem closes_moreArgs (args : List Expr) (x : List Char) : Closes (moreArgs args ++ ')' :: x) := by
  cases args with
  | nil => exact closes_cons (by decide) _
  | cons a args => exact closes_cons (by decide) _

theorem moreArgs_inj {as bs : List Expr} (has : ∀ a ∈ as, a.UniqueText) (hbs : ∀ b ∈ bs, b.IsFormula)
    (h : moreArgs as ++ ')' :: r = moreArgs bs ++ ')' :: r') : bares as = bares bs ∧ r = r' := by
  induction as generalizing bs with
  | nil =>
    cases bs with
    | nil => exact ⟨rfl, (List.cons.inj h).2⟩
    | cons b bs => exact absurd (List.cons.inj h).1 (by decide)
  | cons a as ih =>
    cases bs with
    | nil => exact absurd (List.cons.inj h).1 (by decide)
    | cons b bs =>
      obtain ⟨ha, has⟩ := forall_mem_cons.1 has
      obtain ⟨hb, hbs⟩ := forall_mem_cons.1 hbs
      have htext : a.text ++ (moreArgs as ++ ')' :: r) = b.text ++ (moreArgs bs ++ ')' :: r') := by
        simpa [moreArgs] using h
      obtain ⟨hbare, hrest⟩ := ha b _ _ hb (closes_moreArgs as r) (closes_moreArgs bs r') htext
      obtain ⟨hbares, hend⟩ := ih has hbs hrest
      rw [bares, bares, hbare, hbares]
      exact ⟨rfl, hend⟩

/-- The text of a formula does not start with what closes a call. -/
theorem exists_text_cons (h : e.IsFormula) : ∃ c cs, e.text = c :: cs ∧ c ≠ ')' := by
  cases hb : e.isBinary with
  | false =>
    obtain ⟨c, cs, hcs, -, hc⟩ := exists_operand_cons h
    exact ⟨c, cs, operand_of_not_binary hb ▸ hcs, hc⟩
  | true =>
    cases h with
    | @binary op a b _ ha _ =>
      obtain ⟨c, cs, hcs, -, hc⟩ := exists_operand_cons ha
      exact ⟨c, cs ++ ' ' :: (op.toList ++ ' ' :: b.operand), by rw [text_binary, hcs]; rfl, hc⟩
    | _ => cases hb

theorem argsText_inj {as bs : List Expr} (has : ∀ a ∈ as, a.IsFormula ∧ a.UniqueText) (hbs : ∀ b ∈ bs, b.IsFormula)
    (h : argsText as ++ r = argsText bs ++ r') : bares as = bares bs ∧ r = r' := by
  have hinner : commaSep (texts as) ++ ')' :: r = commaSep (texts bs) ++ ')' :: r' := by
    have htail := (List.cons.inj h).2
    simpa using htail
  -- a call without arguments closes at once
  have hempty : ∀ (c : Expr) (cs : List Expr) (x y : List Char), c.IsFormula →
      ')' :: x ≠ commaSep (texts (c :: cs)) ++ y := by
    intro c cs x y hc heq
    obtain ⟨d, ds, hds, hd⟩ := exists_text_cons hc
    rw [commaSep_texts_cons, hds] at heq
    exact hd (List.cons.inj heq).1.symm
  cases as with
  | nil =>
    cases bs with
    | nil => exact ⟨rfl, (List.cons.inj hinner).2⟩
    | cons b bs => exact absurd hinner (hempty b bs _ _ (hbs b mem_cons_self))
  | cons a as =>
    cases bs with
    | nil => exact absurd hinner.symm (hempty a as _ _ (has a mem_cons_self).1)
    | cons b bs =>
      obtain ⟨ha, has⟩ := forall_mem_cons.1 has
      obtain ⟨hb, hbs⟩ := forall_mem_cons.1 hbs
      rw [commaSep_texts_cons, commaSep_texts_cons, append_assoc, append_assoc] at hinner
      obtain ⟨hbare, hrest⟩ := ha.2 b _ _ hb (closes_moreArgs as r) (closes_moreArgs bs r') hinner
      obtain ⟨hbares, hend⟩ := moreArgs_inj (fun x hx => (has x hx).2) hbs hrest
      rw [bares, bares, hbare, hbares]
      exact ⟨rfl, hend⟩

theorem uniqueOperand_call (hname : IsName name) {args : List Expr}
    (hargs : ∀ a ∈ args, a.IsFormula ∧ a.UniqueText) (returns : Option Ty) :
    (call name args returns).UniqueOperand := by
  intro f r r' hf hr hr' h
  have hlead := lead_eq (.call hname fun a ha => (hargs a ha).1) hf h
  have hcall : name.toList ++ (argsText args ++ r) = f.operand ++ r' := by
    rw [← append_assoc]
    exact h
  cases hf with
  | bool b =>
    obtain ⟨hword, -⟩ := word_inj hname.chars (all_boolText b) (stops_argsText args r) hr'.stopsName hcall
    exact absurd hword (ne_boolText hname b)
  | var hname' =>
    obtain ⟨-, hrest⟩ := word_inj hname.chars hname'.chars (stops_argsText args r) hr'.stopsName hcall
    exact absurd hrest (argsText_append_ne args r hr')
  | @call name' args' returns' hname' hargs' =>
    have hboth : name.toList ++ (argsText args ++ r) = name'.toList ++ (argsText args' ++ r') := by
      rw [hcall, ← append_assoc]
      rfl
    obtain ⟨hword, hrest⟩ := word_inj hname.chars hname'.chars (stops_argsText args r) (stops_argsText args' r') hboth
    obtain ⟨hbares, hend⟩ := argsText_inj hargs hargs' hrest
    rw [bare, bare, hbares, String.toList_inj.1 hword]
    exact ⟨rfl, hend⟩
  | _ => cases hlead

/-! ### All formulas -/

theorem IsFormula.unique (h : e.IsFormula) : e.UniqueOperand ∧ e.UniqueText := by
  have hboth : ∀ {x : Expr}, x.isBinary = false → x.UniqueOperand → x.UniqueOperand ∧ x.UniqueText :=
    fun hno hx => ⟨hx, hx.uniqueText hno⟩
  induction h with
  | int n => exact hboth rfl (uniqueOperand_int n)
  | bool b => exact hboth rfl (uniqueOperand_bool b)
  | var hname => exact hboth rfl (uniqueOperand_var hname _ _)
  | not hx ih => exact hboth rfl (uniqueOperand_not hx ih.1)
  | binary hop hl hr ihl ihr =>
    have htext := uniqueText_binary hop ihl.1 ihr.1
    exact ⟨htext.uniqueOperand (.binary hop hl hr), htext⟩
  | call hname hargs ih =>
    exact hboth rfl (uniqueOperand_call hname (fun a ha => ⟨hargs a ha, (ih a ha).2⟩) _)

mutual
theorem text_bare : ∀ e : Expr, e.bare.text = e.text
  | .var .. => rfl
  | .unary op x => by
    show op.toList ++ enclose x.bare x.bare.text = op.toList ++ enclose x x.text
    rw [text_bare x, enclose, enclose, isBinary_bare x]
  | .binary op l r => by
    show enclose l.bare l.bare.text ++ ' ' :: (op.toList ++ ' ' :: enclose r.bare r.bare.text) =
      enclose l l.text ++ ' ' :: (op.toList ++ ' ' :: enclose r r.text)
    rw [text_bare l, text_bare r, enclose, enclose, enclose, enclose, isBinary_bare l, isBinary_bare r]
  | .call name args _ => by
    show name.toList ++ '(' :: (commaSep (texts (bares args)) ++ [')']) =
      name.toList ++ '(' :: (commaSep (texts args) ++ [')'])
    rw [texts_bares args]
  | .int _ | .float _ | .angle _ | .bool _ | .bits _ | .duration _ | .ident .. | .physical _ | .index .. | .measure _
  | .range .. | .array .. | .frame _ | .waveform _ => rfl

theorem texts_bares : ∀ es : List Expr, texts (bares es) = texts es
  | [] => rfl
  | e :: es => by
    show e.bare.text :: texts (bares es) = e.text :: texts es
    rw [text_bare e, texts_bares es]
end

/-- Two formulas have one text just if they are the same tree, up to types. -/
theorem text_unambiguous {e f : Expr} (he : e.IsFormula) (hf : f.IsFormula) : e.text = f.text ↔ e.bare = f.bare := by
  constructor
  · intro h
    refine (he.unique.2 f [] [] hf closes_nil closes_nil ?_).1
    rw [h]
  · intro h
    rw [← text_bare e, h, text_bare]

def sampleCall : Expr := .call "f" [.var "b" none none, .unary "!" (.bool true)] (some Ty.int)

/-- Two differences of `a`, `-1` and a call, which only their grouping tells apart. -/
def leftGrouped : Expr := .binary "-" (.binary "-" (.var "a" (some Ty.int) none) (.int (-1))) sampleCall

def rightGrouped : Expr := .binary "-" (.var "a" (some Ty.int) none) (.binary "-" (.int (-1)) sampleCall)

theorem text_unambiguous_grouping : leftGrouped.IsFormula ∧ rightGrouped.IsFormula ∧
    leftGrouped.text ≠ rightGrouped.text := by
  have hop : "-" ∈ operators := by decide
  have ha : IsName "a" := ⟨⟨'a', by decide, by decide⟩, by decide, by decide, by decide⟩
  have hb : IsName "b" := ⟨⟨'b', by decide, by decide⟩, by decide, by decide, by decide⟩
  have hf : IsName "f" := ⟨⟨'f', by decide, by decide⟩, by decide, by decide, by decide⟩
  have hcall : sampleCall.IsFormula :=
    .call hf (List.forall_mem_cons.2 ⟨.var hb, List.forall_mem_singleton.2 (.not (.bool true))⟩)
  have hleft : leftGrouped.IsFormula := .binary hop (.binary hop (.var ha) (.int (-1))) hcall
  have hright : rightGrouped.IsFormula := .binary hop (.var ha) (.binary hop (.int (-1)) hcall)
  refine ⟨hleft, hright, fun heq => ?_⟩
  cases (text_unambiguous hleft hright).1 heq

/-! ### Durations -/

/-- The units of durations, the coarsest first: how many nanoseconds they have and how they are written. -/
def durationUnits : List (Int × List Char) :=
  [(1000000000, ['s']), (1000000, ['m', 's']), (1000, ['u', 's']), (1, ['n', 's'])]

/-- The number `m` of units `u` is the duration, and no coarser unit has a whole number of it. -/
structure Measures (ns m : Int) (u : Int × List Char) : Prop where
  mem : u ∈ durationUnits
  exact : m * u.1 = ns
  coarsest : ns ≠ 0 → ∀ v ∈ durationUnits, v.1 ∣ ns → v.1 ≤ u.1

theorem exists_measures (ns : Int) : ∃ m u, durationText ns = Word.text m ++ u.2 ∧ Measures ns m u := by
  unfold durationText
  simp only [← Int.dvd_iff_tmod_eq_zero]
  -- the units are tried from the coarsest one on
  by_cases h0 : ns = 0
  · exact ⟨0, (1, ['n', 's']), if_pos h0, by decide, by omega, absurd h0⟩
  by_cases hs : 1000000000 ∣ ns
  · refine ⟨_, (1000000000, ['s']), by rw [if_neg h0, if_pos hs], by decide, Int.tdiv_mul_cancel hs, ?_⟩
    simp [durationUnits]
  by_cases hms : 1000000 ∣ ns
  · refine ⟨_, (1000000, ['m', 's']), by rw [if_neg h0, if_neg hs, if_pos hms], by decide,
      Int.tdiv_mul_cancel hms, ?_⟩
    simp [durationUnits, hs]
  by_cases hus : 1000 ∣ ns
  · refine ⟨_, (1000, ['u', 's']), by rw [if_neg h0, if_neg hs, if_neg hms, if_pos hus], by decide,
      Int.tdiv_mul_cancel hus, ?_⟩
    simp [durationUnits, hs, hms]
  · refine ⟨ns, (1, ['n', 's']), by rw [if_neg h0, if_neg hs, if_neg hms, if_neg hus], by decide, by omega, ?_⟩
    simp [durationUnits, hs, hms, hus]

/-- The unit is told from the text by its letters, the number by what is in front of them. -/
theorem durationText_injective : Function.Injective durationText := by
  have hstops : ∀ u ∈ durationUnits, Stops isNumberChar u.2 := by simp [durationUnits, isNumberChar]
  have hunits : ∀ u ∈ durationUnits, ∀ v ∈ durationUnits, u.2 = v.2 → u.1 = v.1 := by decide
  intro ns ns' h
  obtain ⟨m, u, htext, hm⟩ := exists_measures ns
  obtain ⟨m', u', htext', hm'⟩ := exists_measures ns'
  rw [htext, htext'] at h
  obtain ⟨hnumber, hunit⟩ := append_inj_of_stops (isNumberChar_text m) (isNumberChar_text m')
    (hstops u hm.mem) (hstops u' hm'.mem) h
  rw [← hm.exact, ← hm'.exact, Word.text_injective hnumber, hunits u hm.mem u' hm'.mem hunit]

/-- The text of a duration is a whole number of the coarsest unit that divides it, and no other duration has
that text. -/
theorem duration_exact (ns : Int) : (∃ m u, (duration ns).text = Word.text m ++ u.2 ∧ Measures ns m u) ∧
    ∀ ns', (duration ns').text = (duration ns).text → ns' = ns :=
  ⟨exists_measures ns, fun _ h => durationText_injective h⟩

example : (duration (-9223372036854775808)).text = "-9223372036854775808ns".toList ∧
    (duration (-3000000)).text = "-3ms".toList := by decide +kernel

end Expr
end QasmStudio
