import QasmStudio.Lang.Program
import QasmStudio.Lang.Register
import Mathlib.Data.List.Basic

/-!
# Declared before use

`Program.isScoped` asks whether every name that occurs in a program is declared before it: by a statement
that comes earlier in the same block or in one around it, by the header of a loop around it, or as a
parameter. The name of the qubit register stands for itself and needs no declaration here.

The variables that wait for their declaration come first in the body of a program. So what a variable is
initialised with that starts to wait can mention parameters and what waits already, and nothing that a
statement declares (`Program.areScoped_wait`).
-/

namespace QasmStudio

namespace Expr

mutual
/-- The names that occur in the expression. What a variable is initialised with does not. -/
def names : Expr → List String
  | .var name _ _ | .ident name _ => [name]
  | .index base idx => base.names ++ idx.names
  | .binary _ l r => l.names ++ r.names
  | .unary _ x => x.names
  | .call _ args _ => allNames args
  | .measure q => q.names
  | .range start stop none => start.names ++ stop.names
  | .range start stop (some step) => start.names ++ (stop.names ++ step.names)
  | .array elems _ => allNames elems
  | _ => []

def allNames : List Expr → List String
  | [] => []
  | e :: es => e.names ++ allNames es
end

end Expr

def Var.initialNames (v : Var) : List String := v.init.elim [] Expr.names

def allIn (scope names : List String) : Bool := names.all fun x => scope.contains x

theorem allIn_iff {scope names : List String} : allIn scope names = true ↔ names ⊆ scope := by
  simp [allIn, List.subset_def]

namespace Stmt

/-- The names that the statement declares for those after it in its block. -/
def declares : Stmt → List String
  | .declare v => [v.name]
  | _ => []

mutual
/-- Are the names that occur in the statement in scope, or declared before them inside of it? -/
def isScoped (scope : List String) : Stmt → Bool
  | .declare v => allIn scope v.initialNames
  | .assign target value => allIn scope target.names && allIn scope value.names
  | .eval e | .reset e | .return (some e) => allIn scope e.names
  | .gate _ args qubits => allIn scope (Expr.allNames args) && allIn scope (Expr.allNames qubits)
  | .barrier qubits => allIn scope (Expr.allNames qubits)
  | .delay duration targets => allIn scope duration.names && allIn scope (Expr.allNames targets)
  | .branch cond thn els => allIn scope cond.names && areScoped scope thn && areScoped scope els
  | .forIn v iter body => allIn scope iter.names && areScoped (v.name :: scope) body
  | .while cond body => allIn scope cond.names && areScoped scope body
  | .box body => areScoped scope body
  | .break | .continue | .return none | .pragma _ => true

/-- The same for the statements of a block, one after the other. -/
def areScoped (scope : List String) : List Stmt → Bool
  | [] => true
  | st :: sts => st.isScoped scope && areScoped (st.declares ++ scope) sts
end

/-- What is in scope behind the statements of a block. -/
def scopeAfter (scope : List String) (sts : List Stmt) : List String :=
  sts.foldl (fun scope st => st.declares ++ scope) scope

theorem areScoped_append {scope : List String} {xs ys : List Stmt} :
    areScoped scope (xs ++ ys) = (areScoped scope xs && areScoped (scopeAfter scope xs) ys) := by
  induction xs generalizing scope with
  | nil => rfl
  | cons st xs ih => simp only [List.cons_append, areScoped, ih, Bool.and_assoc, scopeAfter, List.foldl_cons]

theorem mem_scopeAfter_declare {x : String} {scope : List String} {vs : List Var} :
    x ∈ scopeAfter scope (vs.map .declare) ↔ x ∈ scope ∨ ∃ v ∈ vs, v.name = x := by
  induction vs generalizing scope with
  | nil => simp [scopeAfter]
  | cons v vs ih =>
    rw [List.map_cons, scopeAfter, List.foldl_cons, ← scopeAfter, ih]
    simp only [declares, List.mem_append, List.mem_cons, exists_eq_or_imp, @eq_comm _ x]
    tauto

theorem allIn_mono {scope scope' names : List String} (hsub : scope ⊆ scope') (h : allIn scope names = true) :
    allIn scope' names = true := allIn_iff.2 (List.Subset.trans (allIn_iff.1 h) hsub)

mutual
theorem isScoped_mono {scope scope' : List String} (hsub : scope ⊆ scope') : ∀ {st : Stmt},
    st.isScoped scope = true → st.isScoped scope' = true
  | .declare _, h | .eval _, h | .reset _, h | .return (some _), h | .barrier _, h => allIn_mono hsub h
  | .assign .., h | .gate .., h | .delay .., h =>
    (Bool.and_eq_true_iff.1 h).elim fun h₁ h₂ => Bool.and_eq_true_iff.2 ⟨allIn_mono hsub h₁, allIn_mono hsub h₂⟩
  | .branch .., h => by
    simp only [isScoped, Bool.and_eq_true] at h ⊢
    exact ⟨⟨allIn_mono hsub h.1.1, areScoped_mono hsub h.1.2⟩, areScoped_mono hsub h.2⟩
  | .forIn .., h => by
    simp only [isScoped, Bool.and_eq_true] at h ⊢
    exact ⟨allIn_mono hsub h.1, areScoped_mono (List.cons_subset_cons _ hsub) h.2⟩
  | .while .., h => by
    simp only [isScoped, Bool.and_eq_true] at h ⊢
    exact ⟨allIn_mono hsub h.1, areScoped_mono hsub h.2⟩
  | .box _, h => by
    rw [isScoped] at h ⊢
    exact areScoped_mono hsub h
  | .break, _ | .continue, _ | .return none, _ | .pragma _, _ => rfl

theorem areScoped_mono {scope scope' : List String} (hsub : scope ⊆ scope') : ∀ {sts : List Stmt},
    areScoped scope sts = true → areScoped scope' sts = true
  | [], _ => rfl
  | st :: _, h => by
    simp only [areScoped, Bool.and_eq_true] at h ⊢
    refine ⟨isScoped_mono hsub h.1, areScoped_mono (fun x hx => ?_) h.2⟩
    exact (List.mem_append.1 hx).elim (List.mem_append_left _) fun hx => List.mem_append_right _ (hsub hx)
end

end Stmt

def SubroutineDef.isScoped (d : SubroutineDef) : Bool :=
  Stmt.areScoped (registerName :: d.params.map (·.name)) d.body

/-- Is every name that occurs in the body, and in the bodies of subroutines, declared before? -/
def Program.isScoped (p : Program) : Bool :=
  Stmt.areScoped [registerName] p.body && p.subroutines.all (·.isScoped)

/-- A variable may start to wait for its declaration if it is initialised with parameters and with what waits
already, and not otherwise. -/
theorem Program.areScoped_wait {p : Program} {scope : List String} {v : Var} :
    (Stmt.areScoped scope { p with pending := p.pending ++ [v] }.body = true →
      ∀ x ∈ v.initialNames, x ∈ scope ∨ p.isPending x = true) ∧
    (Stmt.areScoped scope p.body = true → (∀ x ∈ v.initialNames, x ∈ scope ∨ p.isPending x = true) →
      Stmt.areScoped scope { p with pending := p.pending ++ [v] }.body = true) := by
  have hsplit : { p with pending := p.pending ++ [v] }.body = p.pending.map .declare ++ (.declare v :: p.top) := by
    simp [body]
  have hwait : allIn (Stmt.scopeAfter scope (p.pending.map .declare)) v.initialNames = true ↔
      ∀ x ∈ v.initialNames, x ∈ scope ∨ p.isPending x = true := by
    simp only [allIn_iff, List.subset_def, Stmt.mem_scopeAfter_declare, isPending, List.any_eq_true, beq_iff_eq]
  rw [hsplit, body, Stmt.areScoped_append, Stmt.areScoped_append, ← hwait]
  simp only [Bool.and_eq_true, Stmt.areScoped, Stmt.isScoped]
  refine ⟨fun h => h.2.1, fun h hv => ⟨h.1, hv, Stmt.areScoped_mono (fun _ hx => ?_) h.2⟩⟩
  exact List.mem_append_right _ hx

end QasmStudio
