import QasmStudio.Proofs.Convert.Advance
import Mathlib.Algebra.Order.Group.Multiset

/-!
# The tables of a program

A program keeps a table of declared names and a list of variables that wait for their declaration, and
its statements hold the declarations that will be written. `Tables` ties the two together: what a
statement declares is in the table of declared names, what waits is not, and no name has two
declarations. `Reachable.tables` shows it for whatever operations made the program.

A block that is closed hands its statements to whoever opened it. The declarations among statements that
were handed over, and that no block of the program holds, are kept along with the program: a statement
that is added may declare these, each of them once, and nothing else.
-/

namespace QasmStudio

open List

namespace Stmt

mutual
def declarations : Stmt → List String
  | .declare v => [v.name]
  | .branch _ thn els => allDeclarations thn ++ allDeclarations els
  | .forIn _ _ body | .while _ body | .box body => allDeclarations body
  | _ => []

def allDeclarations : List Stmt → List String
  | [] => []
  | st :: sts => st.declarations ++ allDeclarations sts
end

@[simp] theorem allDeclarations_append : ∀ a b : List Stmt,
    allDeclarations (a ++ b) = allDeclarations a ++ allDeclarations b
  | [], _ => rfl
  | st :: sts, b => by simp [allDeclarations, allDeclarations_append sts b]

theorem allDeclarations_declare : ∀ vs : List Var, allDeclarations (vs.map .declare) = vs.map (·.name)
  | [] => rfl
  | v :: vs => by simp [allDeclarations, declarations, allDeclarations_declare vs]

end Stmt

namespace Program

def declarations (p : Program) : List String := p.blocks.flatMap Stmt.allDeclarations

/-- The programs that operations make from the empty one, with the declarations in hand. -/
inductive Reachable : Program → Multiset String → Prop
  | empty : Reachable .empty 0
  | declare {p q hand} {v : Var} : Reachable p hand → p.declare? v = some q → Reachable q hand
  | markDeclared {p hand} (v : Var) : Reachable p hand → Reachable (p.markDeclared v) hand
  | addPending {p hand} (v : Var) : Reachable p hand → Reachable (p.addPending v) hand
  | add {p rest} {st : Stmt} : Reachable p (st.declarations + rest) → Reachable (p.add st) rest
  | prepend {p rest} {st : Stmt} : Reachable p (st.declarations + rest) →
      Reachable (p.prepend st) rest
  | openBlock {p hand} : Reachable p hand → Reachable p.openBlock hand
  | closeBlock {p hand} : p.nested ≠ [] → Reachable p hand →
      Reachable p.closeBlock (Stmt.allDeclarations p.innermost + hand)
  | addGate {p hand} (d : GateDef) : Reachable p hand → Reachable (p.addGate d) hand
  | addSubroutine {p hand} (d : SubroutineDef) : Reachable p hand →
      Reachable (p.addSubroutine d) hand
  | addCalibration {p hand} (d : CalibrationDef) : Reachable p hand →
      Reachable (p.addCalibration d) hand
  | enablePulse {p hand} : Reachable p hand → Reachable p.enablePulse hand
  | copy {p hand} : Reachable p hand →
      Reachable p.copy (p.nested.flatMap Stmt.allDeclarations + hand)

variable {p q : Program} {hand rest : Multiset String} {st : Stmt} {name : String} {v : Var}

theorem Reachable.add_of_nil (hst : st.declarations = []) (h : Reachable p hand) : Reachable (p.add st) hand :=
  .add (by rwa [hst, Multiset.coe_nil, zero_add])

theorem Reachable.prepend_of_nil (hst : st.declarations = []) (h : Reachable p hand) :
    Reachable (p.prepend st) hand :=
  .prepend (by rwa [hst, Multiset.coe_nil, zero_add])

/-- The tables fit the statements. -/
structure Tables (p : Program) (hand : Multiset String) : Prop where
  once : (hand + p.declarations + p.pending.map (·.name)).Nodup
  declared : ∀ name ∈ hand + (p.declarations : Multiset String), p.isDeclared name = true
  apart : ∀ v ∈ p.pending, p.isDeclared v.name = false
  names : (p.declared.map (·.name)).Nodup
  gates : (p.gates.map (·.name)).Nodup
  subroutines : (p.subroutines.map (·.name)).Nodup

/-! ### Statements -/

theorem declarations_add (p : Program) (st : Stmt) :
    ((p.add st).declarations : Multiset String) = st.declarations + p.declarations := by
  have h : p.declarations = Stmt.allDeclarations p.innermost ++ p.blocks.tail.flatMap Stmt.allDeclarations := by
    rw [declarations, blocks_eq, flatMap_cons, tail_cons]
  rw [h, declarations, blocks_add]
  simp only [flatMap_cons, Stmt.allDeclarations_append, Stmt.allDeclarations, append_nil, ← Multiset.coe_add]
  ac_rfl

theorem declarations_prepend (p : Program) (st : Stmt) :
    ((p.prepend st).declarations : Multiset String) = st.declarations + p.declarations := by
  simp only [declarations, blocks, prepend, flatMap_append, flatMap_cons, flatMap_nil,
    Stmt.allDeclarations, append_nil, ← Multiset.coe_add]
  ac_rfl

theorem declarations_closeBlock (h : p.nested ≠ []) :
    p.declarations = Stmt.allDeclarations p.innermost ++ p.closeBlock.declarations := by
  unfold declarations blocks innermost closeBlock
  cases hn : p.nested with
  | nil => exact absurd hn h
  | cons b bs => rfl

theorem declarations_copy (p : Program) :
    p.declarations = p.nested.flatMap Stmt.allDeclarations ++ p.copy.declarations := by
  simp [declarations, blocks, copy]

/-! ### Tables under operations -/

theorem isDeclared_markDeclared (p : Program) (v : Var) (name : String) :
    (p.markDeclared v).isDeclared name = (v.name == name || p.isDeclared name) := by
  by_cases hn : v.name = name
  · simp [isDeclared, markDeclared, hn]
  · simp only [isDeclared, markDeclared, any_cons, any_filter, beq_eq_false_iff_ne.2 hn, Bool.false_or]
    refine any_congr rfl fun u => ?_
    by_cases hu : u.name = name
    · simp [hu, Ne.symm hn]
    · simp [hu]

theorem isUsed_eq_false_iff :
    p.isUsed name = false ↔ p.isDeclared name = false ∧ name ∉ p.pending.map (·.name) := by
  simp [isUsed, isPending]

theorem map_put {α : Type} (key : α → String) (x : α) : ∀ ys : List α, (put (key · == key x) x ys).map key =
      if key x ∈ ys.map key then ys.map key else ys.map key ++ [key x]
  | [] => by simp [put]
  | y :: ys => by
    by_cases h : key y = key x
    · simp [put, h]
    · have hx : key x ≠ key y := Ne.symm h
      simp only [put, beq_eq_false_iff_ne.2 h, Bool.false_eq_true, if_false, map_cons,
        map_put key x ys, mem_cons, hx, false_or]
      split <;> rfl

theorem nodup_put {α : Type} {key : α → String} {x : α} {ys : List α} (h : (ys.map key).Nodup) :
    ((put (key · == key x) x ys).map key).Nodup := by
  rw [map_put]
  split
  · exact h
  · rename_i hx
    exact List.Nodup.append h (nodup_singleton _) (disjoint_singleton.2 hx)

namespace Tables

theorem empty : Tables .empty 0 := by
  constructor <;> simp [Program.empty, declarations, blocks, Stmt.allDeclarations]

/-- Statements may move between the blocks and the hand, and out of both. -/
theorem of_le (h : Tables p hand) (hle : rest + q.declarations ≤ hand + (p.declarations : Multiset String))
    (hd : q.declared = p.declared) (hp : q.pending = p.pending) (hg : q.gates = p.gates)
    (hs : q.subroutines = p.subroutines) : Tables q rest := by
  refine ⟨?_, fun name hn => ?_, ?_, hd ▸ h.names, hg ▸ h.gates, hs ▸ h.subroutines⟩
  · rw [hp]
    exact Multiset.nodup_of_le (by gcongr) h.once
  · rw [isDeclared, hd]
    exact h.declared name (Multiset.mem_of_le hle hn)
  · rw [hp]
    simp only [isDeclared, hd]
    exact h.apart

theorem add (h : Tables p (st.declarations + rest)) : Tables (p.add st) rest := by
  refine h.of_le ?_ rfl rfl rfl rfl
  rw [declarations_add, add_left_comm, add_assoc]

theorem prepend (h : Tables p (st.declarations + rest)) : Tables (p.prepend st) rest := by
  refine h.of_le ?_ rfl rfl rfl rfl
  rw [declarations_prepend, add_left_comm, add_assoc]

theorem closeBlock (hn : p.nested ≠ []) (h : Tables p hand) :
    Tables p.closeBlock (Stmt.allDeclarations p.innermost + hand) := by
  refine h.of_le ?_ rfl rfl rfl rfl
  rw [declarations_closeBlock hn, ← Multiset.coe_add, add_assoc, add_left_comm]

theorem copy (h : Tables p hand) : Tables p.copy (p.nested.flatMap Stmt.allDeclarations + hand) := by
  refine h.of_le ?_ rfl rfl rfl rfl
  rw [declarations_copy p, ← Multiset.coe_add, add_assoc, add_left_comm]

theorem markDeclared (h : Tables p hand) (v : Var) : Tables (p.markDeclared v) hand := by
  refine ⟨?_, fun name hn => ?_, fun u hu => ?_, ?_, h.gates, h.subroutines⟩
  · refine Multiset.nodup_of_le (add_le_add_right ?_ _) h.once
    exact Multiset.coe_le.2 (filter_sublist.map _).subperm
  · rw [isDeclared_markDeclared, h.declared name hn, Bool.or_true]
  · obtain ⟨hu, hne⟩ := mem_filter.1 hu
    rw [isDeclared_markDeclared, h.apart u hu, Bool.or_false, beq_eq_false_iff_ne]
    exact Ne.symm (bne_iff_ne.1 hne)
  · refine nodup_cons.2 ⟨?_, h.names.sublist (filter_sublist.map _)⟩
    simp

theorem not_mem (h : Tables p hand) (hn : p.isDeclared name = false) :
    name ∉ hand + (p.declarations : Multiset String) := fun hmem =>
  Bool.false_ne_true (hn.symm.trans (h.declared name hmem))

theorem addPending (h : Tables p hand) (v : Var) : Tables (p.addPending v) hand := by
  unfold Program.addPending
  split
  · exact h
  · rename_i hused
    obtain ⟨hd, hp⟩ := isUsed_eq_false_iff.1 (Bool.not_eq_true _ ▸ hused)
    refine ⟨?_, h.declared, fun u hu => ?_, h.names, h.gates, h.subroutines⟩
    · have hnew : (((p.pending ++ [v]).map (·.name) : List String) : Multiset String) =
          v.name ::ₘ ↑(p.pending.map (·.name)) := by
        rw [map_append, ← Multiset.coe_add, add_comm]
        rfl
      rw [hnew, Multiset.add_cons, Multiset.nodup_cons, Multiset.mem_add, not_or]
      exact ⟨⟨h.not_mem hd, hp⟩, h.once⟩
    · rcases mem_append.1 hu with hu | hu
      · exact h.apart u hu
      · rw [mem_singleton.1 hu]
        exact hd

/-- A new name may be taken in hand when it is entered into the table. -/
theorem markDeclared_cons (h : Tables p hand) (hv : p.isDeclared v.name = false) :
    Tables (p.markDeclared v) (v.name ::ₘ hand) := by
  have hm := h.markDeclared v
  refine ⟨?_, fun name hn => ?_, hm.apart, hm.names, hm.gates, hm.subroutines⟩
  · rw [Multiset.cons_add, Multiset.cons_add, Multiset.nodup_cons, Multiset.mem_add, not_or]
    refine ⟨⟨h.not_mem hv, ?_⟩, hm.once⟩
    simp [Program.markDeclared]
  · rw [Multiset.cons_add, Multiset.mem_cons] at hn
    rcases hn with rfl | hn
    · rw [isDeclared_markDeclared, beq_self_eq_true, Bool.true_or]
    · exact hm.declared name hn

theorem declare (h : Tables p hand) (hq : p.declare? v = some q) : Tables q hand := by
  unfold Program.declare? at hq
  split at hq
  · cases hq
  · rename_i hdecl
    cases hq
    exact add (h.markDeclared_cons (Bool.not_eq_true _ ▸ hdecl))

end Tables

theorem Reachable.tables (h : Reachable p hand) : Tables p hand := by
  induction h with
  | empty => exact .empty
  | declare _ hq ih => exact ih.declare hq
  | markDeclared v _ ih => exact ih.markDeclared v
  | addPending v _ ih => exact ih.addPending v
  | add _ ih => exact ih.add
  | prepend _ ih => exact ih.prepend
  | openBlock _ ih => exact ih.of_le le_rfl rfl rfl rfl rfl
  | closeBlock hn _ ih => exact ih.closeBlock hn
  | addGate d _ ih => exact { ih with gates := nodup_put ih.gates }
  | addSubroutine d _ ih => exact { ih with subroutines := nodup_put ih.subroutines }
  | addCalibration d _ ih => exact ih.of_le le_rfl rfl rfl rfl rfl
  | enablePulse _ ih => exact ih.of_le le_rfl rfl rfl rfl rfl
  | copy _ ih => exact ih.copy

/-! ### Looking names up -/

theorem isSome_lookup? (p : Program) (name : String) : (p.lookup? name).isSome = p.isUsed name := by
  unfold lookup? isUsed isDeclared isPending
  cases h : p.declared.find? (·.name == name) with
  | none => rw [← isSome_find?, ← isSome_find?, h, Option.isSome_none, Bool.false_or]
  | some v => rw [← isSome_find?, h, Option.isSome_some, Bool.true_or]

theorem Tables.count_le_one (h : Tables p hand) (name : String) :
    hand.count name + p.declarations.count name + (p.pending.map (·.name)).count name ≤ 1 := by
  have := Multiset.nodup_iff_count_le_one.1 h.once name
  simpa only [Multiset.count_add, Multiset.coe_count] using this

theorem Tables.count_body_le_one (h : Tables p hand) (name : String) :
    (Stmt.allDeclarations p.body).count name ≤ 1 := by
  have hle := h.count_le_one name
  rw [declarations_copy, count_append] at hle
  have htop : p.copy.declarations = Stmt.allDeclarations p.top := append_nil _
  rw [body, Stmt.allDeclarations_append, Stmt.allDeclarations_declare, count_append]
  rw [htop] at hle
  omega

end Program

end QasmStudio
