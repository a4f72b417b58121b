import Mathlib.Data.List.Nodup
import Mathlib.Data.List.Perm.Subperm
import QasmStudio.Proofs.Convert.Interpreter

/-!
# The recursion guard

Routines may call each other, and themselves, in any way. A subroutine is marked as in conversion by its
number in the library, a gate as being defined by its name, and neither is entered again while the mark
is there. So the bodies in progress at any moment belong to different routines (`Context.Guarded`), and
there are no more of them than routines in the library, the one the build began with aside.
-/

namespace QasmStudio

open List

namespace Context
variable {lib : Library} {c c' : Context}

/-- The bodies in progress belong to different routines of the library, and each subroutine in
conversion has a program of its own on the stack. -/
structure Guarded (lib : Library) (c : Context) : Prop where
  keys : (c.converting.map (·.1)).Nodup
  names : (c.gates.map (·.name)).Nodup
  stack : c.stackSize = c.converting.length + 1
  subroutines : ∀ x ∈ c.converting, ∃ r, lib.Holds x.1 r ∧ r.kind ≠ .gate
  gates : ∀ g ∈ c.gates, ∃ key r, lib.Holds key r ∧ r.kind = .gate ∧ r.name = g.name

theorem Guarded.length_le (h : c.Guarded lib) : c.converting.length + c.gates.length ≤ lib.routines.length := by
  classical
  -- a number for each gate that is being defined; different gates have different numbers
  have hpick : ∀ g : GateRecord, ∃ key, g ∈ c.gates → ∃ r, lib.Holds key r ∧ r.kind = .gate ∧ r.name = g.name := by
    intro g
    by_cases hg : g ∈ c.gates
    · obtain ⟨key, r, hr⟩ := h.gates g hg
      exact ⟨key, fun _ => ⟨r, hr⟩⟩
    · exact ⟨0, fun hg' => absurd hg' hg⟩
  choose pick hpick using hpick
  have hgates : (c.gates.map pick).Nodup := by
    refine List.Nodup.map_on (fun g hg g' hg' heq => ?_) h.names.of_map
    obtain ⟨r, hr, -, hname⟩ := hpick g hg
    obtain ⟨r', hr', -, hname'⟩ := hpick g' hg'
    rw [heq] at hr
    cases hr.unique hr'
    exact inj_on_of_nodup_map h.names hg hg' (hname.symm.trans hname')
  have hdisjoint : (c.converting.map (·.1)).Disjoint (c.gates.map pick) := by
    intro key hkey hgate
    obtain ⟨x, hx, rfl⟩ := mem_map.1 hkey
    obtain ⟨g, hg, heq⟩ := mem_map.1 hgate
    obtain ⟨r, hr, hkind⟩ := h.subroutines x hx
    obtain ⟨r', hr', hkind', -⟩ := hpick g hg
    rw [heq] at hr'
    cases hr.unique hr'
    exact hkind hkind'
  have hall : (c.converting.map (·.1) ++ c.gates.map pick).Nodup := h.keys.append hgates hdisjoint
  have hsub : c.converting.map (·.1) ++ c.gates.map pick ⊆ List.range lib.routines.length := by
    intro key hkey
    rw [mem_range]
    rcases mem_append.1 hkey with hkey | hkey
    · obtain ⟨x, hx, rfl⟩ := mem_map.1 hkey
      obtain ⟨r, hr, -⟩ := h.subroutines x hx
      exact hr.lt
    · obtain ⟨g, hg, rfl⟩ := mem_map.1 hkey
      obtain ⟨r, hr, -⟩ := hpick g hg
      exact hr.lt
  simpa using (subperm_of_subset hall hsub).length_le

theorem guarded_start (lib : Library) (n : Nat) (config : BuildConfig) (id : String) :
    (start n config id).Guarded lib :=
  ⟨nodup_nil, nodup_nil, rfl, fun _ h => absurd h not_mem_nil, fun _ h => absurd h not_mem_nil⟩

end Context

namespace Context.Guarded
variable {lib : Library} {d : Discipline} {c c' : Context}

theorem writes (h : c.Guarded lib) (hw : Writes d c c') : c'.Guarded lib := by
  obtain ⟨hkeys, hnames, hstack, hsubs, hgates⟩ := h
  have hadv := hw.advance
  refine ⟨?_, ?_, ?_, ?_, ?_⟩
  · rwa [hadv.converting]
  · rwa [hadv.gates]
  · rw [hadv.stackSize, hadv.converting, hstack]
  · rwa [hadv.converting]
  · rwa [hadv.gates]

/-- Unless programs and gates are opened by hand, what is entered was not entered before. -/
theorem enters (hd : ¬ d.policy.byHand) (hlib : ∀ key r, d.policy.routine key r → lib.Holds key r)
    (h : c.Guarded lib) (he : Enters d c c') : c'.Guarded lib := by
  obtain ⟨hkeys, hnames, hstack, hsubs, hgates⟩ := h
  cases he with
  | block =>
    refine ⟨hkeys, hnames, Eq.trans ?_ hstack, hsubs, hgates⟩
    unfold Context.openBlock Context.stackSize Context.updateCurrent
    cases c.inner <;> rfl
  | verbatim | calibration => exact ⟨hkeys, hnames, hstack, hsubs, hgates⟩
  | program hb => exact absurd hb hd
  | routine hb =>
    refine ⟨nodup_cons.2 ⟨?_, hkeys⟩, hnames, congrArg (· + 1) hstack, ?_, hgates⟩
    · intro hmem
      obtain ⟨x, hx, hkey⟩ := mem_map.1 hmem
      exact absurd (lookup_eq_none_iff.1 hb.idle x hx) (by simp [hkey])
    · intro x hx
      rcases mem_cons.1 hx with rfl | hx
      · exact ⟨_, hlib _ _ hb.routine, hb.kind⟩
      · exact hsubs x hx
  | gate ho hr =>
    obtain ⟨⟨key, r, hrout, hkind, hname⟩, hidle⟩ := ho.resolve_left hd
    refine ⟨hkeys, nodup_cons.2 ⟨?_, hnames⟩, hstack, hsubs, ?_⟩
    · intro hmem
      obtain ⟨g, hg, heq⟩ := mem_map.1 hmem
      exact hidle g hg heq
    · intro g hg
      rcases mem_cons.1 hg with rfl | hg
      · exact ⟨key, r, hlib _ _ hrout, hkind, hname⟩
      · exact hgates g hg

end Context.Guarded

namespace Convert

/-- As long as nothing is opened by hand, every context of a build is guarded. -/
theorem throughout_guarded {lib : Library} {fuel : Nat} {r : Routine} {config : BuildConfig}
    {args : List Value} {s : State}
    (h : Throughout lib fuel (fun o _ => ∀ st, o = some st → ¬ st.action.IsByHand)
      (buildProgram · r config args) s) :
    Throughout lib fuel (fun _ t => t.ctx.Guarded lib) (buildProgram · r config args) s := by
  let π : Policy := { routine := lib.Holds, byHand := False }
  refine (h.upheld (π := π) (fun id key r hr => Library.holds_of_find? hr)
    (fun _ _ _ _ _ _ _ _ _ => trivial) (fun _ => trivial) (fun e he n config id => ?_)
    fun e he o t ho => ?_).mono fun _ _ h => h.2
  · exact .of_preserved .writes (.enters not_false fun _ _ hr => hr) (Context.guarded_start lib n config id)
  · refine ⟨⟨trivial, trivial⟩, fun st hst => ?_, fun _ _ _ _ _ _ _ _ _ _ _ => trivial,
      fun _ _ => .of_forall, fun _ _ _ _ => trivial⟩
    exact obeys_discipline _ lib _ _ (fun _ _ _ _ _ _ _ _ => trivial) (ho st hst)

end Convert

end QasmStudio
