import QasmStudio.Lang.Register
import QasmStudio.Proofs.Convert.Everywhere

/-!
# What occurs in a program

`Stmt.Every E V`: all expressions of a statement satisfy `E` and all variables that it declares `V`,
inside of its bodies too. `Expr.registerIndices` are the fixed elements of the qubit register that an
expression refers to. An expression over names other than that of the register refers to none.
-/

namespace QasmStudio

/-! ### Elements of the register -/

namespace Expr

def isRegister : Expr → Bool
  | .var name _ _ | .ident name _ => name == registerName
  | _ => false

/-- The element that an index with the given base fixes, if it is one of the register. -/
def fixedElement (base : Expr) : Expr → List Int
  | .int i => if base.isRegister then [i] else []
  | _ => []

mutual
/-- The fixed elements of the register that the expression refers to. -/
def registerIndices : Expr → List Int
  | .index base idx => fixedElement base idx ++ (base.registerIndices ++ idx.registerIndices)
  | .binary _ l r => l.registerIndices ++ r.registerIndices
  | .unary _ x => x.registerIndices
  | .call _ args _ => allRegisterIndices args
  | .measure q => q.registerIndices
  | .range start stop none => start.registerIndices ++ stop.registerIndices
  | .range start stop (some step) =>
    start.registerIndices ++ (stop.registerIndices ++ step.registerIndices)
  | .array elems _ => allRegisterIndices elems
  | _ => []

def allRegisterIndices : List Expr → List Int
  | [] => []
  | e :: es => e.registerIndices ++ allRegisterIndices es
end

theorem mem_allRegisterIndices {i : Int} {es : List Expr} :
    i ∈ allRegisterIndices es ↔ ∃ e ∈ es, i ∈ e.registerIndices := by
  induction es with
  | nil => simp [allRegisterIndices]
  | cons e es ih => simp [allRegisterIndices, ih]

theorem isRegister_of_over {N : String → Prop} (hN : ¬ N registerName) {e : Expr} (h : e.Over N) :
    e.isRegister = false := by
  cases e with
  | var name ty init | ident name ty =>
    have hne : name ≠ registerName := fun heq => hN (heq ▸ h)
    simpa [isRegister] using hne
  | _ => rfl

mutual
theorem registerIndices_of_over {N : String → Prop} (hN : ¬ N registerName) :
    ∀ {e : Expr}, e.Over N → e.registerIndices = []
  | .index base idx, h => by
    have hfix : fixedElement base idx = [] := by
      unfold fixedElement
      split
      · rw [isRegister_of_over hN h.1]
        rfl
      · rfl
    rw [registerIndices, hfix, registerIndices_of_over hN h.1, registerIndices_of_over hN h.2]
    rfl
  | .binary _ l r, h => by
    rw [registerIndices, registerIndices_of_over hN h.1, registerIndices_of_over hN h.2]
    rfl
  | .unary _ x, h => registerIndices_of_over (e := x) hN h
  | .call _ args _, h => allRegisterIndices_of_over hN h
  | .measure q, h => registerIndices_of_over (e := q) hN h
  | .range start stop none, h => by
    rw [registerIndices, registerIndices_of_over hN h.1, registerIndices_of_over hN h.2]
    rfl
  | .range start stop (some step), h => by
    rw [registerIndices, registerIndices_of_over hN h.1, registerIndices_of_over hN h.2.1,
      registerIndices_of_over hN h.2.2]
    rfl
  | .array elems _, h => allRegisterIndices_of_over hN h
  | .int _, _ | .float _, _ | .angle _, _ | .bool _, _ | .bits _, _ | .duration _, _ | .var .., _
  | .ident .., _ | .physical _, _ | .frame _, _ | .waveform _, _ => rfl

theorem allRegisterIndices_of_over {N : String → Prop} (hN : ¬ N registerName) :
    ∀ {es : List Expr}, OverAll N es → allRegisterIndices es = []
  | [], _ => rfl
  | e :: es, h => by
    rw [allRegisterIndices, registerIndices_of_over hN h.1, allRegisterIndices_of_over hN h.2]
    rfl
end

end Expr

/-! ### Statements and programs -/

section
variable (E : Expr → Prop) (V : Var → Prop)

mutual
/-- Every expression in the statement satisfies `E`, and every variable that it declares `V`. -/
def Stmt.Every : Stmt → Prop
  | .declare v => V v ∧ ∀ e, v.init = some e → E e
  | .assign target value => E target ∧ E value
  | .eval e => E e
  | .gate _ args qubits => (∀ e ∈ args, E e) ∧ ∀ e ∈ qubits, E e
  | .reset q => E q
  | .barrier qubits => ∀ e ∈ qubits, E e
  | .delay duration targets => E duration ∧ ∀ e ∈ targets, E e
  | .branch cond thn els => E cond ∧ EveryOf thn ∧ EveryOf els
  | .forIn v iter body => V v ∧ E iter ∧ EveryOf body
  | .while cond body => E cond ∧ EveryOf body
  | .return value => ∀ e, value = some e → E e
  | .box body => EveryOf body
  | .break | .continue | .pragma _ => True

def Stmt.EveryOf : List Stmt → Prop
  | [] => True
  | st :: sts => st.Every ∧ EveryOf sts
end

/-- As `Stmt.Every`, for all statements of a program and those of its subroutines. -/
structure Program.Every (p : Program) : Prop where
  blocks : ∀ b ∈ p.blocks, ∀ st ∈ b, st.Every E V
  pending : ∀ v ∈ p.pending, V v ∧ ∀ e, v.init = some e → E e
  subroutines : ∀ d ∈ p.subroutines, ∀ st ∈ d.body, st.Every E V

end

variable {E F : Expr → Prop} {V W : Var → Prop}

theorem Stmt.everyOf_iff {sts : List Stmt} : EveryOf E V sts ↔ ∀ st ∈ sts, st.Every E V := by
  induction sts with
  | nil => simp [EveryOf]
  | cons st sts ih => simp [EveryOf, ih]

mutual
theorem Stmt.Every.imp (h : ∀ e, E e → F e) (hv : ∀ v, V v → W v) : ∀ {st : Stmt}, st.Every E V → st.Every F W
  | .declare _, hs => ⟨hv _ hs.1, fun e he => h e (hs.2 e he)⟩
  | .assign .., hs => ⟨h _ hs.1, h _ hs.2⟩
  | .eval _, hs => h _ hs
  | .gate .., hs => ⟨fun e he => h e (hs.1 e he), fun e he => h e (hs.2 e he)⟩
  | .reset _, hs => h _ hs
  | .barrier _, hs => fun e he => h e (hs e he)
  | .delay .., hs => ⟨h _ hs.1, fun e he => h e (hs.2 e he)⟩
  | .branch .., hs => ⟨h _ hs.1, EveryOf.imp h hv hs.2.1, EveryOf.imp h hv hs.2.2⟩
  | .forIn .., hs => ⟨hv _ hs.1, h _ hs.2.1, EveryOf.imp h hv hs.2.2⟩
  | .while .., hs => ⟨h _ hs.1, EveryOf.imp h hv hs.2⟩
  | .return _, hs => fun e he => h e (hs e he)
  | .box _, hs => EveryOf.imp h hv hs
  | .break, _ | .continue, _ | .pragma _, _ => trivial

theorem Stmt.EveryOf.imp (h : ∀ e, E e → F e) (hv : ∀ v, V v → W v) :
    ∀ {sts : List Stmt}, EveryOf E V sts → EveryOf F W sts
  | [], _ => trivial
  | _ :: _, hs => ⟨Stmt.Every.imp h hv hs.1, EveryOf.imp h hv hs.2⟩
end

theorem Stmt.Every.mono (h : ∀ e, E e → F e) {st : Stmt} (hs : st.Every E V) : st.Every F V :=
  hs.imp h fun _ hv => hv

theorem Program.every_iff_all {p : Program} : p.Every E V ↔ p.All (Stmt.Every E V) :=
  ⟨fun h => ⟨h.blocks, h.pending, h.subroutines⟩, fun h => ⟨h.blocks, h.pending, h.subroutines⟩⟩

namespace Program.Every
variable {p q : Program}

theorem imp (h : ∀ e, E e → F e) (hw : ∀ v, V v → W v) (hp : p.Every E V) : p.Every F W :=
  every_iff_all.2 ((every_iff_all.1 hp).imp fun _ hs => hs.imp h hw)

theorem mono (h : ∀ e, E e → F e) (hp : p.Every E V) : p.Every F V := hp.imp h fun _ hv => hv

theorem innermost (hp : p.Every E V) : ∀ st ∈ p.innermost, st.Every E V := (every_iff_all.1 hp).innermost

theorem body (hp : p.Every E V) : ∀ st ∈ p.body, st.Every E V := (every_iff_all.1 hp).body

theorem add {st : Stmt} (hp : p.Every E V) (hst : st.Every E V) : (p.add st).Every E V :=
  every_iff_all.2 ((every_iff_all.1 hp).add hst)

theorem openBlock (hp : p.Every E V) : p.openBlock.Every E V := every_iff_all.2 (every_iff_all.1 hp).openBlock

theorem closeBlock (hp : p.Every E V) : p.closeBlock.Every E V := every_iff_all.2 (every_iff_all.1 hp).closeBlock

theorem markDeclared (v : Var) (hp : p.Every E V) : (p.markDeclared v).Every E V :=
  every_iff_all.2 ((every_iff_all.1 hp).markDeclared v)

theorem declare? {v : Var} (hp : p.Every E V) (hv : (Stmt.declare v).Every E V)
    (h : p.declare? v = some q) : q.Every E V :=
  every_iff_all.2 ((every_iff_all.1 hp).declare? hv h)

theorem addPending {v : Var} (hp : p.Every E V) (hv : (Stmt.declare v).Every E V) : (p.addPending v).Every E V :=
  every_iff_all.2 ((every_iff_all.1 hp).addPending hv)

theorem addSubroutine {d : SubroutineDef} (hp : p.Every E V) (hd : ∀ st ∈ d.body, st.Every E V) :
    (p.addSubroutine d).Every E V :=
  every_iff_all.2 ((every_iff_all.1 hp).addSubroutine hd)

theorem prepend {st : Stmt} (hp : p.Every E V) (hst : st.Every E V) : (p.prepend st).Every E V :=
  every_iff_all.2 ((every_iff_all.1 hp).prepend hst)

theorem of_empty (hb : p.blocks = [[]]) (hp : p.pending = []) (hs : p.subroutines = []) : p.Every E V :=
  every_iff_all.2 (.of_empty hb hp hs)

end Program.Every

end QasmStudio
