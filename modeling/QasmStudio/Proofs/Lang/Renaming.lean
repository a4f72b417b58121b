import Mathlib.Data.List.Forall2
import QasmStudio.Script.Operand

/-!
# Renaming variables

`Expr.rename σ` changes the names of variables and identifiers, those in initial values that are carried
along included, and nothing else; statements are renamed in their expressions. Types do not depend on
names, so what is decided by types is decided in the same way before and after a renaming.

Values are compared by `Value.Renamed σ`: expressions up to the renaming, data exactly, and programs not
at all. Operands whose own names the renaming leaves alone have values that differ by the renaming, if
those of names and arguments do.
-/

namespace QasmStudio

open List

variable {σ : String → String}

/-- Both fail, or both succeed with results that `R` relates. -/
inductive Outcomes {ε α β : Type} (R : α → β → Prop) : Except ε α → Except ε β → Prop
  | error (e e' : ε) : Outcomes R (.error e) (.error e')
  | ok {a : α} {b : β} (h : R a b) : Outcomes R (.ok a) (.ok b)

namespace Outcomes
variable {ε α β γ δ : Type} {R : α → β → Prop} {S : γ → δ → Prop} {x : Except ε α} {y : Except ε β}

theorem bind {f : α → Except ε γ} {g : β → Except ε δ} (h : Outcomes R x y)
    (hf : ∀ a b, R a b → Outcomes S (f a) (g b)) : Outcomes S (x >>= f) (y >>= g) := by
  cases h with
  | error e e' => exact .error e e'
  | ok h => exact hf _ _ h

theorem mono {T : α → β → Prop} (h : Outcomes R x y) (hT : ∀ a b, R a b → T a b) : Outcomes T x y := by
  cases h with
  | error e e' => exact .error e e'
  | ok h => exact .ok (hT _ _ h)

theorem of_eq_map {f : α → β} (h : y = x.map f) : Outcomes (fun a b => b = f a) x y := by
  subst h
  cases x with
  | error e => exact .error e e
  | ok a => exact .ok rfl

end Outcomes

/-! ### Expressions -/

namespace Expr

mutual
def rename (σ : String → String) : Expr → Expr
  | var name ty none => var (σ name) ty none
  | var name ty (some init) => var (σ name) ty (some (init.rename σ))
  | ident name ty => ident (σ name) ty
  | index base idx => index (base.rename σ) (idx.rename σ)
  | binary op l r => binary op (l.rename σ) (r.rename σ)
  | unary op x => unary op (x.rename σ)
  | call name args returns => call name (renameAll σ args) returns
  | measure q => measure (q.rename σ)
  | range start stop none => range (start.rename σ) (stop.rename σ) none
  | range start stop (some step) => range (start.rename σ) (stop.rename σ) (some (step.rename σ))
  | array elems ty => array (renameAll σ elems) ty
  | e => e

def renameAll (σ : String → String) : List Expr → List Expr
  | [] => []
  | e :: es => e.rename σ :: renameAll σ es
end

mutual
/-- The names that a renaming may change: those of initial values count. -/
def deepNames : Expr → List String
  | var name _ none => [name]
  | var name _ (some init) => name :: init.deepNames
  | ident name _ => [name]
  | index base idx => base.deepNames ++ idx.deepNames
  | binary _ l r => l.deepNames ++ r.deepNames
  | unary _ x => x.deepNames
  | call _ args _ => deepNamesAll args
  | measure q => q.deepNames
  | range start stop none => start.deepNames ++ stop.deepNames
  | range start stop (some step) => start.deepNames ++ (stop.deepNames ++ step.deepNames)
  | array elems _ => deepNamesAll elems
  | _ => []

def deepNamesAll : List Expr → List String
  | [] => []
  | e :: es => e.deepNames ++ deepNamesAll es
end

theorem renameAll_eq_map (es : List Expr) : renameAll σ es = es.map (rename σ) := by
  induction es with
  | nil => rfl
  | cons e es ih => rw [renameAll, ih, map_cons]

theorem rename_var (name : String) (ty : Option Ty) (init : Option Expr) :
    (var name ty init).rename σ = var (σ name) ty (init.map (rename σ)) := by
  cases init <;> rfl

theorem rename_range (start stop : Expr) (step : Option Expr) :
    (range start stop step).rename σ = range (start.rename σ) (stop.rename σ) (step.map (rename σ)) := by
  cases step <;> rfl

theorem rename_call (name : String) (args : List Expr) (returns : Option Ty) :
    (call name args returns).rename σ = call name (args.map (rename σ)) returns := by
  rw [rename, renameAll_eq_map]

theorem rename_array (elems : List Expr) (ty : Option Ty) :
    (array elems ty).rename σ = array (elems.map (rename σ)) ty := by
  rw [rename, renameAll_eq_map]

@[simp] theorem ty_rename : ∀ e : Expr, (e.rename σ).ty = e.ty
  | index base _ => by rw [rename, ty, ty_rename base, ty]
  | binary op l r => by rw [rename, ty, ty_rename l, ty_rename r, ty]
  | unary op x => by rw [rename, ty, ty_rename x, ty]
  | var _ _ none | var _ _ (some _) | range _ _ none | range _ _ (some _) => rfl
  | int _ | float _ | angle _ | bool _ | bits _ | duration _ | ident .. | physical _ | call ..
  | measure _ | array .. | frame _ | waveform _ => rfl

@[simp] theorem formName_rename (e : Expr) : (e.rename σ).formName = e.formName := by
  cases e with
  | var name ty init => cases init <;> rfl
  | range start stop step => cases step <;> rfl
  | _ => rfl

mutual
theorem rename_eq_self : ∀ e : Expr, (∀ n ∈ e.deepNames, σ n = n) → e.rename σ = e
  | var name ty none, h => by rw [rename, h name (mem_singleton.2 rfl)]
  | var name ty (some init), h => by
    rw [rename, h name (mem_cons_self ..), rename_eq_self init fun n hn => h n (mem_cons_of_mem _ hn)]
  | ident name ty, h => by rw [rename, h name (mem_singleton.2 rfl)]
  | index base idx, h => by
    rw [rename, rename_eq_self base fun n hn => h n (mem_append_left _ hn),
      rename_eq_self idx fun n hn => h n (mem_append_right _ hn)]
  | binary op l r, h => by
    rw [rename, rename_eq_self l fun n hn => h n (mem_append_left _ hn),
      rename_eq_self r fun n hn => h n (mem_append_right _ hn)]
  | unary op x, h => by rw [rename, rename_eq_self x h]
  | call name args returns, h => by rw [rename, renameAll_eq_self args h]
  | measure q, h => by rw [rename, rename_eq_self q h]
  | range start stop none, h => by
    rw [rename, rename_eq_self start fun n hn => h n (mem_append_left _ hn),
      rename_eq_self stop fun n hn => h n (mem_append_right _ hn)]
  | range start stop (some step), h => by
    rw [rename, rename_eq_self start fun n hn => h n (mem_append_left _ hn),
      rename_eq_self stop fun n hn => h n (mem_append_right _ (mem_append_left _ hn)),
      rename_eq_self step fun n hn => h n (mem_append_right _ (mem_append_right _ hn))]
  | array elems ty, h => by rw [rename, renameAll_eq_self elems h]
  | int _, _ | float _, _ | angle _, _ | bool _, _ | bits _, _ | duration _, _ | physical _, _
  | frame _, _ | waveform _, _ => rfl

theorem renameAll_eq_self : ∀ es : List Expr, (∀ n ∈ deepNamesAll es, σ n = n) → renameAll σ es = es
  | [], _ => rfl
  | e :: es, h => by
    rw [renameAll, rename_eq_self e fun n hn => h n (mem_append_left _ hn),
      renameAll_eq_self es fun n hn => h n (mem_append_right _ hn)]
end

end Expr

/-! ### Statements and programs -/

def Var.rename (σ : String → String) (v : Var) : Var := ⟨σ v.name, v.ty, v.init.map (Expr.rename σ)⟩

theorem Var.expr_rename (v : Var) : (v.rename σ).expr = v.expr.rename σ := (Expr.rename_var ..).symm

namespace Stmt

mutual
def rename (σ : String → String) : Stmt → Stmt
  | declare v => declare (v.rename σ)
  | assign target value => assign (target.rename σ) (value.rename σ)
  | eval e => eval (e.rename σ)
  | gate name args qubits => gate name (args.map (Expr.rename σ)) (qubits.map (Expr.rename σ))
  | reset q => reset (q.rename σ)
  | barrier qubits => barrier (qubits.map (Expr.rename σ))
  | delay d targets => delay (d.rename σ) (targets.map (Expr.rename σ))
  | branch cond thn els => branch (cond.rename σ) (renameAll σ thn) (renameAll σ els)
  | forIn v iter body => forIn (v.rename σ) (iter.rename σ) (renameAll σ body)
  | .while cond body => .while (cond.rename σ) (renameAll σ body)
  | .break => .break
  | .continue => .continue
  | .return value => .return (value.map (Expr.rename σ))
  | pragma t => pragma t
  | box body => box (renameAll σ body)

def renameAll (σ : String → String) : List Stmt → List Stmt
  | [] => []
  | s :: ss => s.rename σ :: renameAll σ ss
end

theorem renameAll_eq_map (ss : List Stmt) : renameAll σ ss = ss.map (rename σ) := by
  induction ss with
  | nil => rfl
  | cons s ss ih => rw [renameAll, ih, map_cons]

/-- How the operands of a gate are written, whatever they are called. -/
def operandForms : Stmt → List String
  | gate _ _ qubits => qubits.map Expr.formName
  | _ => []

theorem operandForms_rename (st : Stmt) : (st.rename σ).operandForms = st.operandForms := by
  cases st <;> simp [rename, operandForms]

end Stmt

namespace Program
variable {p q : Program}

/-- The statements and the variables of `q` are those of `p` renamed. -/
structure Renamed (σ : String → String) (p q : Program) : Prop where
  top : q.top = p.top.map (Stmt.rename σ)
  nested : q.nested = p.nested.map (List.map (Stmt.rename σ))
  declared : q.declared = p.declared.map (Var.rename σ)
  pending : q.pending = p.pending.map (Var.rename σ)

namespace Renamed

theorem body (h : Renamed σ p q) : q.body = p.body.map (Stmt.rename σ) := by
  simp only [Program.body, h.top, h.pending, map_append, map_map]
  rfl

theorem innermost (h : Renamed σ p q) : q.innermost = p.innermost.map (Stmt.rename σ) := by
  unfold Program.innermost
  rw [h.nested, h.top]
  cases p.nested <;> rfl

theorem add {s t : Stmt} (h : Renamed σ p q) (ht : t = s.rename σ) : Renamed σ (p.add s) (q.add t) := by
  subst ht
  unfold Program.add
  rw [h.nested]
  cases p.nested with
  | nil => exact ⟨by simp [h.top], rfl, h.declared, h.pending⟩
  | cons b bs => exact ⟨h.top, by simp, h.declared, h.pending⟩

theorem openBlock (h : Renamed σ p q) : Renamed σ p.openBlock q.openBlock :=
  ⟨h.top, by simp [Program.openBlock, h.nested], h.declared, h.pending⟩

theorem closeBlock (h : Renamed σ p q) : Renamed σ p.closeBlock q.closeBlock :=
  ⟨h.top, by simp [Program.closeBlock, h.nested], h.declared, h.pending⟩

section injective
variable (hσ : Function.Injective σ) {v w : Var}
include hσ

theorem any_map (vs : List Var) (name : String) :
    (vs.map (Var.rename σ)).any (·.name == σ name) = vs.any (·.name == name) := by
  rw [List.any_map]
  congr 1
  funext v
  exact decide_eq_decide.2 hσ.eq_iff

theorem filter_map (vs : List Var) (name : String) :
    (vs.map (Var.rename σ)).filter (·.name != σ name) = (vs.filter (·.name != name)).map (Var.rename σ) := by
  rw [List.filter_map]
  congr 2
  funext v
  exact congrArg not (decide_eq_decide.2 hσ.eq_iff)

theorem find?_map (vs : List Var) (name : String) :
    (vs.map (Var.rename σ)).find? (·.name == σ name) = (vs.find? (·.name == name)).map (Var.rename σ) := by
  rw [List.find?_map]
  congr 2
  funext v
  exact decide_eq_decide.2 hσ.eq_iff

theorem isDeclared (h : Renamed σ p q) (name : String) : q.isDeclared (σ name) = p.isDeclared name := by
  rw [Program.isDeclared, h.declared, any_map hσ, Program.isDeclared]

theorem isUsed (h : Renamed σ p q) (name : String) : q.isUsed (σ name) = p.isUsed name := by
  rw [Program.isUsed, h.isDeclared hσ, Program.isPending, h.pending, any_map hσ, Program.isUsed, Program.isPending]

theorem markDeclared (h : Renamed σ p q) (hw : w = v.rename σ) :
    Renamed σ (p.markDeclared v) (q.markDeclared w) := by
  subst hw
  have hname : (v.rename σ).name = σ v.name := rfl
  refine ⟨h.top, h.nested, ?_, ?_⟩
  · simp only [Program.markDeclared, hname, h.declared, filter_map hσ, map_cons]
  · simp only [Program.markDeclared, hname, h.pending, filter_map hσ]

theorem addPending (h : Renamed σ p q) (hw : w = v.rename σ) : Renamed σ (p.addPending v) (q.addPending w) := by
  subst hw
  have hused : q.isUsed (v.rename σ).name = p.isUsed v.name := h.isUsed hσ v.name
  unfold Program.addPending
  rw [hused]
  split
  · exact h
  · exact ⟨h.top, h.nested, h.declared, by simp [h.pending]⟩

/-- A variable can be declared in both programs or in none. -/
theorem declare? (h : Renamed σ p q) (hw : w = v.rename σ) : (p.declare? v = none ∧ q.declare? w = none) ∨
      ∃ p' q', p.declare? v = some p' ∧ q.declare? w = some q' ∧ Renamed σ p' q' := by
  have hdeclared : q.isDeclared w.name = p.isDeclared v.name := hw ▸ h.isDeclared hσ v.name
  unfold Program.declare?
  rw [hdeclared]
  split
  · exact .inl ⟨rfl, rfl⟩
  · refine .inr ⟨_, _, rfl, rfl, (h.markDeclared hσ hw).add ?_⟩
    rw [hw, Stmt.rename]

theorem lookup? (h : Renamed σ p q) (name : String) : q.lookup? (σ name) = (p.lookup? name).map (Var.rename σ) := by
  unfold Program.lookup?
  rw [h.declared, h.pending, find?_map hσ, find?_map hσ]
  cases p.declared.find? (·.name == name) <;> rfl

end injective

end Renamed

end Program

/-! ### Values -/

namespace Value

mutual
/-- The second value is the first one renamed; programs may differ. -/
def Renamed (σ : String → String) : Value → Value → Prop
  | expr e, v => v = expr (e.rename σ)
  | list shape items, v => ∃ items', v = list shape items' ∧ RenamedAll σ items items'
  | program _, v => ∃ q, v = program q
  | draft _ _, v => ∃ n q, v = draft n q
  | u, v => v = u

def RenamedAll (σ : String → String) : List Value → List Value → Prop
  | [], vs => vs = []
  | u :: us, vs => ∃ v vs', vs = v :: vs' ∧ u.Renamed σ v ∧ RenamedAll σ us vs'
end

theorem renamedAll_iff {us vs : List Value} : RenamedAll σ us vs ↔ Forall₂ (Renamed σ) us vs := by
  induction us generalizing vs with
  | nil => rw [RenamedAll, forall₂_nil_left_iff]
  | cons u us ih =>
    rw [RenamedAll, forall₂_cons_left_iff]
    constructor
    · rintro ⟨v, vs', rfl, hv, hvs⟩
      exact ⟨v, vs', hv, ih.1 hvs, rfl⟩
    · rintro ⟨v, vs', hv, hvs, rfl⟩
      exact ⟨v, vs', rfl, hv, ih.2 hvs⟩

theorem arrayOf_map (form : String) (es : List Expr) :
    arrayOf form (es.map (Expr.rename σ)) = (arrayOf form es).map (Expr.rename σ) := by
  unfold arrayOf
  cases es with
  | nil => rfl
  | cons e es =>
    simp only [map_cons, head?_cons, Expr.ty_rename]
    cases e.ty with
    | none => rfl
    | some t => simp [Except.map, Expr.rename_array]

mutual
theorem toExpr_renamed : ∀ {u v : Value}, u.Renamed σ v → v.toExpr = u.toExpr.map (Expr.rename σ)
  | expr _, _, rfl => rfl
  | list shape items, _, ⟨items', rfl, h⟩ => by
    rw [toExpr, toExpr, toExprs_renamed h]
    cases toExprs 0 items with
    | error e => rfl
    | ok es => exact arrayOf_map _ es
  | program _, _, ⟨_, rfl⟩ => rfl
  | draft .., _, ⟨_, _, rfl⟩ => rfl
  | int f n, _, rfl => by cases f <;> rfl
  | none, _, rfl | bool _, _, rfl | float _, _, rfl | float32 _, _, rfl | string _, _, rfl
  | duration _, _, rfl => rfl

theorem toExprs_renamed : ∀ {us vs : List Value} {i : Nat}, RenamedAll σ us vs →
    toExprs i vs = (toExprs i us).map (List.map (Expr.rename σ))
  | [], _, _, rfl => rfl
  | u :: us, _, i, ⟨v, vs, rfl, hu, hus⟩ => by
    rw [toExprs, toExprs, toExpr_renamed hu, toExprs_renamed hus]
    cases u.toExpr with
    | error e => rfl
    | ok e => cases toExprs (i + 1) us <;> rfl
end

theorem isExpr_renamed {u v : Value} (h : u.Renamed σ v) : v.isExpr = u.isExpr := by
  cases u with
  | list shape items =>
    obtain ⟨_, rfl, -⟩ := h
    rfl
  | program p =>
    obtain ⟨_, rfl⟩ := h
    rfl
  | draft n p =>
    obtain ⟨_, _, rfl⟩ := h
    rfl
  | _ => exact h ▸ rfl

theorem toFloat?_renamed {u v : Value} (h : u.Renamed σ v) : v.toFloat? = u.toFloat? := by
  cases u with
  | expr e =>
    obtain rfl : v = .expr (e.rename σ) := h
    rfl
  | list shape items =>
    obtain ⟨_, rfl, -⟩ := h
    rfl
  | program p =>
    obtain ⟨_, rfl⟩ := h
    rfl
  | draft n p =>
    obtain ⟨_, _, rfl⟩ := h
    rfl
  | _ => exact h ▸ rfl

mutual
def names : Value → List String
  | expr e => e.deepNames
  | list _ items => namesAll items
  | _ => []

def namesAll : List Value → List String
  | [] => []
  | v :: vs => v.names ++ namesAll vs
end

mutual
theorem renamed_self : ∀ v : Value, (∀ n ∈ v.names, σ n = n) → v.Renamed σ v
  | expr e, h => congrArg expr (e.rename_eq_self h).symm
  | list _ items, h => ⟨items, rfl, renamedAll_self items h⟩
  | program p, _ => ⟨p, rfl⟩
  | draft n p, _ => ⟨n, p, rfl⟩
  | none, _ | bool _, _ | int .., _ | float _, _ | float32 _, _ | string _, _ | duration _, _ => rfl

theorem renamedAll_self : ∀ vs : List Value, (∀ n ∈ namesAll vs, σ n = n) → RenamedAll σ vs vs
  | [], _ => rfl
  | v :: vs, h => ⟨v, vs, rfl, renamed_self v fun n hn => h n (mem_append_left _ hn),
      renamedAll_self vs fun n hn => h n (mem_append_right _ hn)⟩
end

end Value

/-! ### Bindings and operands -/

/-- The same names are bound, and the values of names and arguments differ by the renaming. -/
structure Bindings.Renamed (σ : String → String) (b c : Bindings) : Prop where
  names : Forall₂ (fun x y => y.1 = x.1 ∧ x.2.Renamed σ y.2) b.names c.names
  args : Forall₂ (Value.Renamed σ) b.args c.args

namespace Bindings.Renamed
variable {b c : Bindings}

theorem get (h : Renamed σ b c) (name : String) : (b.get name).Renamed σ (c.get name) := by
  unfold Bindings.get
  obtain ⟨hnames, -⟩ := h
  generalize b.names = xs at hnames
  generalize c.names = ys at hnames
  induction hnames with
  | nil => exact rfl
  | @cons x y xs ys hxy _ ih =>
    obtain ⟨n, v⟩ := x
    obtain ⟨m, w⟩ := y
    obtain ⟨rfl, hv⟩ : m = n ∧ v.Renamed σ w := hxy
    rw [lookup_cons, lookup_cons]
    cases name == m with
    | true => exact hv
    | false => exact ih

theorem argument (h : Renamed σ b c) (i : Int) : (b.argument i).Renamed σ (c.argument i) := by
  unfold Bindings.argument
  split
  · exact rfl
  · have hargs := h.args
    generalize i.toNat = n
    generalize b.args = us at hargs
    generalize c.args = vs at hargs
    induction hargs generalizing n with
    | nil => exact rfl
    | cons huv _ ih =>
      cases n with
      | zero => exact huv
      | succ n => exact ih n

theorem bind (h : Renamed σ b c) (name : String) {u v : Value} (hv : u.Renamed σ v) :
    Renamed σ (b.bind name u) (c.bind name v) := ⟨.cons ⟨rfl, hv⟩ h.names, h.args⟩

end Bindings.Renamed

namespace Operand

mutual
/-- The names of variables that stand in the operand itself. -/
def names : Operand → List String
  | const v => v.names
  | named _ | arg _ => []
  | list items => namesAll items
  | newVar name _ none => [name]
  | newVar name _ (some init) => name :: init.names
  | index base idx => base.names ++ idx.names
  | binary _ l r => l.names ++ r.names
  | unary _ x => x.names
  | call _ args _ => namesAll args
  | measure q => q.names
  | range start stop none => start.names ++ stop.names
  | range start stop (some step) => start.names ++ (stop.names ++ step.names)
  | array elems _ => namesAll elems

def namesAll : List Operand → List String
  | [] => []
  | o :: os => o.names ++ namesAll os
end

theorem mem_namesAll {n : String} {os : List Operand} : n ∈ namesAll os ↔ ∃ o ∈ os, n ∈ o.names := by
  induction os with
  | nil => simp [namesAll]
  | cons o os ih => simp [namesAll, ih]

variable {b c : Bindings}

theorem outcomes_expr {γ δ : Type} {S : γ → δ → Prop} {x y : Except ExprError Value}
    {f : Expr → Except ExprError γ} {g : Expr → Except ExprError δ} (h : Outcomes (Value.Renamed σ) x y)
    (hf : ∀ e, Outcomes S (f e) (g (e.rename σ))) :
    Outcomes S (x >>= fun u => u.toExpr >>= f) (y >>= fun v => v.toExpr >>= g) := by
  refine h.bind fun _ _ hv => (Outcomes.of_eq_map (Value.toExpr_renamed hv)).bind ?_
  rintro e _ rfl
  exact hf e

mutual
/-- The values of an operand differ by a renaming that leaves its own names alone. -/
theorem eval_renamed (hb : b.Renamed σ c) : ∀ o : Operand, (∀ n ∈ o.names, σ n = n) →
    Outcomes (Value.Renamed σ) (o.eval b) (o.eval c)
  | const v, h => .ok (v.renamed_self h)
  | named name, _ => .ok (hb.get name)
  | arg i, _ => .ok (hb.argument i)
  | list items, h => (evals_renamed hb items h).bind fun us vs huv =>
      .ok ⟨vs, rfl, Value.renamedAll_iff.2 huv⟩
  | newVar name ty none, h => .ok (by
      rw [Value.Renamed, Expr.rename, h name (mem_singleton.2 rfl)])
  | newVar name ty (some init), h => by
    have hinit := eval_renamed hb init fun n hn => h n (mem_cons_of_mem _ hn)
    refine outcomes_expr hinit fun e => .ok ?_
    rw [Value.Renamed, Expr.rename, h name (mem_cons_self ..)]
  | index base idx, h =>
    have hbase := eval_renamed hb base fun n hn => h n (mem_append_left _ hn)
    have hidx := eval_renamed hb idx fun n hn => h n (mem_append_right _ hn)
    outcomes_expr hbase fun _ => outcomes_expr hidx fun _ => .ok rfl
  | binary op l r, h =>
    have hl := eval_renamed hb l fun n hn => h n (mem_append_left _ hn)
    have hr := eval_renamed hb r fun n hn => h n (mem_append_right _ hn)
    outcomes_expr hl fun _ => outcomes_expr hr fun _ => .ok rfl
  | unary op x, h => outcomes_expr (eval_renamed hb x h) fun _ => .ok rfl
  | call name args returns, h => by
    refine (exprs_renamed hb args h).bind ?_
    rintro es _ rfl
    exact .ok (by rw [Value.Renamed, Expr.rename_call])
  | measure q, h => outcomes_expr (eval_renamed hb q h) fun _ => .ok rfl
  | range start stop none, h =>
    have hstart := eval_renamed hb start fun n hn => h n (mem_append_left _ hn)
    have hstop := eval_renamed hb stop fun n hn => h n (mem_append_right _ hn)
    outcomes_expr hstart fun _ => outcomes_expr hstop fun _ => .ok rfl
  | range start stop (some step), h =>
    have hstart := eval_renamed hb start fun n hn => h n (mem_append_left _ hn)
    have hstop := eval_renamed hb stop fun n hn =>
      h n (mem_append_right _ (mem_append_left _ hn))
    have hstep := eval_renamed hb step fun n hn =>
      h n (mem_append_right _ (mem_append_right _ hn))
    outcomes_expr hstart fun _ => outcomes_expr hstop fun _ => outcomes_expr hstep fun _ => .ok rfl
  | array elems ty, h => by
    refine (exprs_renamed hb elems h).bind ?_
    rintro es _ rfl
    exact .ok (by rw [Value.Renamed, Expr.rename_array])

theorem evals_renamed (hb : b.Renamed σ c) : ∀ os : List Operand, (∀ n ∈ namesAll os, σ n = n) →
    Outcomes (Forall₂ (Value.Renamed σ)) (evals b os) (evals c os)
  | [], _ => .ok .nil
  | o :: os, h => by
    have ho := eval_renamed hb o fun n hn => h n (mem_append_left _ hn)
    have hos := evals_renamed hb os fun n hn => h n (mem_append_right _ hn)
    exact ho.bind fun _ _ hu => hos.bind fun _ _ hus => .ok (.cons hu hus)

theorem exprs_renamed (hb : b.Renamed σ c) : ∀ os : List Operand, (∀ n ∈ namesAll os, σ n = n) →
    Outcomes (fun es fs => fs = es.map (Expr.rename σ)) (exprs b os) (exprs c os)
  | [], _ => .ok rfl
  | o :: os, h => by
    have ho := eval_renamed hb o fun n hn => h n (mem_append_left _ hn)
    have hos := exprs_renamed hb os fun n hn => h n (mem_append_right _ hn)
    refine outcomes_expr ho fun e => hos.bind ?_
    rintro es _ rfl
    exact .ok rfl
end

end Operand

end QasmStudio
