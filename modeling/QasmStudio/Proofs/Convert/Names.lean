import Mathlib.Data.List.Forall2
import QasmStudio.Convert.Run

/-!
# Names in expressions

`Expr.Over N`: every variable and identifier that occurs in the expression has a name in `N`. The
initial value that a variable carries along does not occur in the expression. The property passes
from the values a body holds to the expressions made of them.
-/

namespace QasmStudio

theorem exists_of_forall₂ {α β : Type} {R : α → β → Prop} {as : List α} {bs : List β}
    (h : List.Forall₂ R as bs) : ∀ b ∈ bs, ∃ a ∈ as, R a b := by
  induction h with
  | nil => simp
  | cons hr _ ih =>
    intro b hb
    rcases List.mem_cons.1 hb with rfl | hb
    · exact ⟨_, List.mem_cons_self .., hr⟩
    · obtain ⟨a, ha, hab⟩ := ih b hb
      exact ⟨a, List.mem_cons_of_mem _ ha, hab⟩

theorem forall₂_of_mapM {ε α β : Type} {f : α → Except ε β} : ∀ {as : List α} {bs : List β},
    as.mapM f = .ok bs → List.Forall₂ (fun a b => f a = .ok b) as bs
  | [], _, h => by cases h; exact .nil
  | a :: as, bs, h => by
    rw [List.mapM_cons] at h
    simp only [bind, Except.bind] at h
    split at h
    · cases h
    · split at h
      · cases h
      · cases h
        exact .cons ‹_› (forall₂_of_mapM ‹_›)

variable {N : String → Prop} {vs : List Value}

mutual
/-- The names that occur in the expression are in `N`. -/
def Expr.Over (N : String → Prop) : Expr → Prop
  | .var name _ _ | .ident name _ => N name
  | .index base idx => base.Over N ∧ idx.Over N
  | .binary _ l r => l.Over N ∧ r.Over N
  | .unary _ x => x.Over N
  | .call _ args _ => Expr.OverAll N args
  | .measure q => q.Over N
  | .range start stop none => start.Over N ∧ stop.Over N
  | .range start stop (some step) => start.Over N ∧ stop.Over N ∧ step.Over N
  | .array elems _ => Expr.OverAll N elems
  | _ => True

def Expr.OverAll (N : String → Prop) : List Expr → Prop
  | [] => True
  | e :: es => e.Over N ∧ Expr.OverAll N es
end

theorem Expr.overAll_iff {es : List Expr} : Expr.OverAll N es ↔ ∀ e ∈ es, e.Over N := by
  induction es with
  | nil => simp [Expr.OverAll]
  | cons e es ih => simp [Expr.OverAll, ih]

theorem Expr.over_range {start stop : Expr} {step : Option Expr} (ha : start.Over N)
    (hb : stop.Over N) (hc : ∀ e, step = some e → e.Over N) : (Expr.range start stop step).Over N := by
  cases step with
  | none => exact ⟨ha, hb⟩
  | some e => exact ⟨ha, hb, hc e rfl⟩

mutual
theorem Expr.over_true : ∀ e : Expr, e.Over fun _ => True
  | .var .. | .ident .. => trivial
  | .index base idx => ⟨base.over_true, idx.over_true⟩
  | .binary _ l r => ⟨l.over_true, r.over_true⟩
  | .unary _ x => x.over_true
  | .call _ args _ => Expr.overAll_true args
  | .measure q => q.over_true
  | .range start stop none => ⟨start.over_true, stop.over_true⟩
  | .range start stop (some step) => ⟨start.over_true, stop.over_true, step.over_true⟩
  | .array elems _ => Expr.overAll_true elems
  | .int _ | .float _ | .angle _ | .bool _ | .bits _ | .duration _ | .physical _ | .frame _
  | .waveform _ => trivial

theorem Expr.overAll_true : ∀ es : List Expr, Expr.OverAll (fun _ => True) es
  | [] => trivial
  | e :: es => ⟨e.over_true, Expr.overAll_true es⟩
end

mutual
/-- The names in the expressions that the value is or holds are in `N`. -/
def Value.Over (N : String → Prop) : Value → Prop
  | .expr e => e.Over N
  | .list _ items => Value.OverAll N items
  | _ => True

def Value.OverAll (N : String → Prop) : List Value → Prop
  | [] => True
  | v :: vs => v.Over N ∧ Value.OverAll N vs
end

theorem Value.overAll_iff : Value.OverAll N vs ↔ ∀ v ∈ vs, v.Over N := by
  induction vs with
  | nil => simp [Value.OverAll]
  | cons v vs ih => simp [Value.OverAll, ih]

mutual
theorem Value.over_true : ∀ v : Value, v.Over fun _ => True
  | .expr e => e.over_true
  | .list _ items => Value.overAll_true items
  | .none | .bool _ | .int .. | .float _ | .float32 _ | .string _ | .duration _ | .program _
  | .draft .. => trivial

theorem Value.overAll_true : ∀ vs : List Value, Value.OverAll (fun _ => True) vs
  | [] => trivial
  | v :: vs => ⟨v.over_true, Value.overAll_true vs⟩
end

namespace Value

theorem over_arrayOf {form : String} {elems : List Expr} {e : Expr}
    (h : arrayOf form elems = .ok e) (he : Expr.OverAll N elems) : e.Over N := by
  unfold arrayOf at h
  split at h
  · cases h
  · split at h
    · cases h
    · cases h
      exact he

mutual
theorem over_toExpr : ∀ {v : Value} {e : Expr}, v.toExpr = .ok e → v.Over N → e.Over N
  | .expr _, _, h, hv => by cases h; exact hv
  | .list shape items, e, h, hv => by
    simp only [toExpr, bind, Except.bind] at h
    split at h
    · cases h
    · exact over_arrayOf h (overAll_toExprs ‹_› hv)
  | .int f n, e, h, _ => by cases f <;> cases h <;> trivial
  | .bool _, _, h, _ | .float _, _, h, _ | .float32 _, _, h, _ | .duration _, _, h, _ => by
    cases h; trivial
  | .none, _, h, _ | .string _, _, h, _ | .program _, _, h, _ | .draft .., _, h, _ => by cases h

theorem overAll_toExprs : ∀ {vs : List Value} {i : Nat} {es : List Expr}, toExprs i vs = .ok es →
    Value.OverAll N vs → Expr.OverAll N es
  | [], _, _, h, _ => by cases h; trivial
  | v :: vs, i, es, h, hv => by
    simp only [toExprs] at h
    split at h
    · cases h
    · rename_i e he
      simp only [bind, Except.bind] at h
      split at h
      · cases h
      · cases h
        exact ⟨over_toExpr he hv.1, overAll_toExprs ‹_› hv.2⟩
end

end Value

def Expr.callee? : Expr → Option String
  | .call name _ _ => some name
  | _ => none

namespace Ty

theorem over_zeroArray {elem : Option Ty} {inner : Except Fault Zero}
    (hi : ∀ e, inner = .ok (.value e) → e.Over N ∧ e.callee? = none) : ∀ {dims : List Int} {e : Expr},
    zeroArray elem inner dims = .ok (.value e) → e.Over N ∧ e.callee? = none
  | [], e, h => hi e h
  | n :: dims, e, h => by
    simp only [zeroArray, bind, Except.bind] at h
    split at h
    · cases h
    · split at h
      · cases h
        exact ⟨trivial, rfl⟩
      · split at h
        · cases h
        · split at h
          · cases h
            refine ⟨Expr.overAll_iff.2 fun x hx => ?_, rfl⟩
            rw [List.eq_of_mem_replicate hx]
            exact (over_zeroArray hi ‹_›).1
          · cases h

/-- A zero value names nothing and calls nothing. -/
theorem over_zero : ∀ {t : Ty} {e : Expr}, t.zero = .ok (.value e) → e.Over N ∧ e.callee? = none
  | ⟨kind, size, elem, dims⟩, e, h => by
    unfold zero at h
    split at h
    iterate 5
      · cases h
        exact ⟨trivial, rfl⟩
    · split at h
      · simp only [bind, Except.bind] at h
        split at h
        · cases h
        · cases h
          exact ⟨trivial, rfl⟩
      · cases h
        exact ⟨trivial, rfl⟩
    · refine over_zeroArray (fun e he => ?_) h
      cases elem with
      | none => cases he
      | some t => exact over_zero he
    · cases h
    · cases h

end Ty

/-! ### Bindings and operands -/

structure Bindings.Over (N : String → Prop) (b : Bindings) : Prop where
  names : ∀ p ∈ b.names, p.2.Over N
  args : ∀ v ∈ b.args, v.Over N

namespace Bindings.Over
variable {b : Bindings}

theorem bind (h : b.Over N) (name : String) {v : Value} (hv : v.Over N) : (b.bind name v).Over N := by
  refine ⟨fun p hp => ?_, h.args⟩
  rcases List.mem_cons.1 hp with rfl | hp
  · exact hv
  · exact h.names p hp

theorem ofArgs (h : ∀ v ∈ vs, v.Over N) : Bindings.Over N { args := vs } :=
  ⟨fun _ hp => absurd hp List.not_mem_nil, h⟩

theorem of_true (b : Bindings) : b.Over fun _ => True := ⟨fun p _ => p.2.over_true, fun v _ => v.over_true⟩

end Bindings.Over

/-- The operand stands for values over `N` wherever names and arguments do. -/
def Operand.Keeps (N : String → Prop) (o : Operand) : Prop :=
  ∀ {b : Bindings} {v : Value}, b.Over N → o.eval b = .ok v → v.Over N

namespace Operand

theorem keeps_true (o : Operand) : o.Keeps fun _ => True := fun _ _ => Value.over_true _

theorem evals_forall₂ {b : Bindings} {os : List Operand}
    (h : evals b os = .ok vs) : List.Forall₂ (fun o v => o.eval b = .ok v) os vs := by
  induction os generalizing vs with
  | nil => cases h; exact .nil
  | cons o os ih =>
    simp only [evals, bind, Except.bind] at h
    split at h
    · cases h
    · split at h
      · cases h
      · cases h
        exact .cons ‹_› (ih ‹_›)

theorem over_evals {b : Bindings} {os : List Operand} (hb : b.Over N)
    (ho : ∀ o ∈ os, o.Keeps N) (h : evals b os = .ok vs) : ∀ v ∈ vs, v.Over N := by
  intro v hv
  obtain ⟨o, ho', he⟩ := exists_of_forall₂ (evals_forall₂ h) v hv
  exact ho o ho' hb he

end Operand

end QasmStudio
