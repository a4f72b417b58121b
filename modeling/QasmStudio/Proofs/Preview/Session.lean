import QasmStudio.Proofs.Convert.Names
import QasmStudio.Preview.Model

/-!
# Sessions of the previewer

A session starts with a list of demos and a text area, and goes on with keys and new sizes of the
window in any order. The text area is whatever it is: all that a session relies on is that it holds
the texts that are put into it.

Main result: in every model of a session, the circuit of the selected program is that of the text in
the text area, unless the program failed to build. Keys that select another program or build all of
them again are what `Model.sync` is for; what the keys to the text area do is made good by
`Model.refresh`.
-/

namespace QasmStudio

open List

variable {cs : List Char} {k : Key}

theorem exists_of_bind_ok {ε α β : Type} {x : Except ε α} {f : α → Except ε β} {b : β}
    (h : x >>= f = .ok b) : ∃ a, x = .ok a ∧ f a = .ok b := by
  cases x with
  | error e => cases h
  | ok a => exact ⟨a, rfl, h⟩

theorem eq_ok_of_toOption {ε α : Type} {x : Except ε α} {a : α} (h : x.toOption = some a) : x = .ok a := by
  cases x with
  | error e => cases h
  | ok b =>
    cases h
    rfl

namespace BuildResult
variable {r : BuildResult} {c c' : Circuit} {config : BuildConfig} {d : Demo} {bytes : List UInt8}

@[simp] theorem source_withCircuit : (r.withCircuit c).source = r.source := by
  obtain ⟨_, _, _ | _⟩ := r <;> rfl

@[simp] theorem withCircuit_withCircuit : (r.withCircuit c).withCircuit c' = r.withCircuit c' := by
  obtain ⟨_, _, _ | _⟩ := r <;> rfl

theorem exists_withCircuit_eq (r : BuildResult) : ∃ c, r.withCircuit c = r := by
  obtain ⟨_, _, _ | b⟩ := r
  · exact ⟨⟨0, [], false, false⟩, rfl⟩
  · exact ⟨b.circuit, rfl⟩

theorem circuit_withCircuit {b : Built} (h : (r.withCircuit c).outcome = .ok b) : b.circuit = c := by
  obtain ⟨_, _, _ | _⟩ := r <;> cases h
  rfl

theorem failed_of_ok {b : Built} (h : r.outcome = .ok b) : r.failed = false := by
  unfold failed
  rw [h]

/-- The result is what building the demo gives, whatever circuit it shows. -/
def IsOf (r : BuildResult) (config : BuildConfig) (d : Demo) (bytes : List UInt8) : Prop :=
  ∃ b c, ofDemo d config bytes = .ok b ∧ r = b.withCircuit c

theorem isOf_of_ofDemo (h : ofDemo d config bytes = .ok r) : r.IsOf config d bytes := by
  obtain ⟨c, hc⟩ := r.exists_withCircuit_eq
  exact ⟨r, c, h, hc.symm⟩

theorem IsOf.withCircuit (h : r.IsOf config d bytes) (c : Circuit) : (r.withCircuit c).IsOf config d bytes := by
  obtain ⟨b, c', hb, rfl⟩ := h
  exact ⟨b, c, hb, withCircuit_withCircuit⟩

theorem IsOf.source {b : BuildResult} (h : r.IsOf config d bytes) (hb : ofDemo d config bytes = .ok b) :
    r.source = b.source := by
  obtain ⟨b', c, hb', rfl⟩ := h
  cases hb.symm.trans hb'
  exact source_withCircuit

end BuildResult

namespace Model
variable {σ : Type}

/-- The texts that a session puts into its text area: the sources of the demos, and nothing. -/
def Loads (demos : List Demo) (config : BuildConfig) (entropy : Nat → List UInt8) (cs : List Char) : Prop :=
  cs = [] ∨ ∃ x ∈ demos.zipIdx, ∃ b, BuildResult.ofDemo x.1 config (entropy x.2) = .ok b ∧
    cs = b.source.toList

/-- The model is about these demos: it has the result of each, and selects one of them. -/
structure Lists (demos : List Demo) (config : BuildConfig) (entropy : Nat → List UInt8) (m : Model σ) :
    Prop where
  setup : m.demos = demos ∧ m.config = config ∧ m.entropy = entropy
  results : Forall₂ (fun x r => r.IsOf config x.1 (entropy x.2)) demos.zipIdx m.results
  selected : m.selected = 0 ∨ m.selected < m.results.length

section lists
variable {demos : List Demo} {config : BuildConfig} {entropy : Nat → List UInt8} {m : Model σ}

theorem Lists.length (h : m.Lists demos config entropy) : m.results.length = demos.length := by
  rw [← h.results.length_eq, length_zipIdx]

theorem Lists.of_eq {m' : Model σ} (h : m.Lists demos config entropy) (hd : m'.demos = m.demos := by rfl)
    (hc : m'.config = m.config := by rfl) (he : m'.entropy = m.entropy := by rfl)
    (hr : m'.results = m.results := by rfl) (hs : m'.selected = m.selected := by rfl) :
    m'.Lists demos config entropy :=
  ⟨by rw [hd, hc, he]; exact h.setup, hr ▸ h.results, by rw [hs, hr]; exact h.selected⟩

theorem current_eq (hm : m.selected < m.results.length) : m.current = m.results[m.selected] := by
  rw [current, getD_eq_getElem?_getD, getElem?_eq_getElem hm, Option.getD_some]

theorem current_setCircuit (hm : m.selected < m.results.length) (c : Circuit) :
    (m.setCircuit c).current = m.current.withCircuit c := by
  simp [setCircuit, current, getD_eq_getElem?_getD, getElem?_eq_getElem hm]

theorem Lists.setCircuit (h : m.Lists demos config entropy) (c : Circuit) :
    (m.setCircuit c).Lists demos config entropy := by
  refine ⟨h.setup, ?_, ?_⟩
  · refine forall₂_iff_get.2 ⟨?_, fun i hi hi' => ?_⟩
    · exact h.results.length_eq.trans (length_modify ..).symm
    · have hlt : i < m.results.length := by rwa [← h.results.length_eq]
      have hr := h.results.get hi hlt
      simp only [Model.setCircuit, get_eq_getElem, getElem_modify]
      split
      · exact hr.withCircuit c
      · exact hr
  · exact h.selected.imp_right fun hlt => by rwa [Model.setCircuit, length_modify]

/-- A selected program that was built stands in the list. -/
theorem selected_lt_of_ok (m : Model σ) (h : m.current.failed = false) : m.selected < m.results.length := by
  by_contra hge
  rw [current, getD_eq_getElem?_getD, getElem?_eq_none (Nat.le_of_not_lt hge)] at h
  cases h

theorem Lists.loads (h : m.Lists demos config entropy) : Loads demos config entropy m.current.source.toList := by
  by_cases hlt : m.selected < m.results.length
  · have hx : m.selected < demos.zipIdx.length := by rwa [h.results.length_eq]
    obtain ⟨b, c, hb, hr⟩ := h.results.get hx hlt
    refine .inr ⟨_, get_mem demos.zipIdx ⟨_, hx⟩, b, hb, ?_⟩
    rw [get_eq_getElem] at hr
    rw [current_eq hlt, hr, BuildResult.source_withCircuit]
  · left
    rw [current, getD_eq_getElem?_getD, getElem?_eq_none (Nat.le_of_not_lt hlt)]
    rfl

/-- The source of the selected result is that of the selected demo. -/
theorem Lists.source (h : m.Lists demos config entropy) {d : Demo} {b : BuildResult}
    (hd : demos[m.selected]? = some d)
    (hb : BuildResult.ofDemo d config (entropy m.selected) = .ok b) : m.current.source = b.source := by
  obtain ⟨hlt, rfl⟩ := List.getElem?_eq_some_iff.1 hd
  have hx : m.selected < demos.zipIdx.length := by rwa [length_zipIdx]
  have hr : m.selected < m.results.length := by rwa [h.length]
  have hof := h.results.get hx hr
  rw [current_eq hr]
  refine hof.source ?_
  simpa using hb

/-- The results of building all demos are those of the demos. -/
theorem lists_of_ofDemos {results : List BuildResult}
    (hsetup : m.demos = demos ∧ m.config = config ∧ m.entropy = entropy)
    (hselected : m.selected = 0 ∨ m.selected < demos.length)
    (h : BuildResult.ofDemos config entropy demos = .ok results) :
    Lists demos config entropy { m with results := results } := by
  have hall : Forall₂ (fun x r => r.IsOf config x.1 (entropy x.2)) demos.zipIdx results :=
    (forall₂_of_mapM h).imp fun _ _ hr => BuildResult.isOf_of_ofDemo hr
  refine ⟨hsetup, hall, hselected.imp_right fun hlt => ?_⟩
  rwa [← hall.length_eq, length_zipIdx]

end lists

variable [TextArea σ]

/-- A model that a session with these demos can come to. Files may change in between. -/
inductive Reachable (area : σ) (demos : List Demo) (config : BuildConfig) (entropy : Nat → List UInt8) :
    Model σ → Prop
  | start {m} (h : startWith area demos config entropy = .ok m) : Reachable area demos config entropy m
  | update {m m' msg t t' cwd quit} (hm : Reachable area demos config entropy m)
      (h : m.update t cwd msg = .ok (m', t', quit)) : Reachable area demos config entropy m'

/-- The circuit of the selected program, if it was built, is that of the text in the text area. -/
def Agrees (m : Model σ) : Prop :=
  ∀ b, m.current.outcome = .ok b →
    Circuit.read m.shown = .ok b.circuit ∧ m.shown = TextArea.text m.editor

/-! ### What the parts of a key press do -/

section parts
variable {demos : List Demo} {config : BuildConfig} {entropy : Nat → List UInt8} {m m' : Model σ}

/-- The selected program is put into the text area. Its circuit is read again if it was built. -/
theorem sync_ok (h : m.sync = .ok m') : ∃ m₁, (m.current.failed = true ∧ m₁ = m ∨ m.current.failed = false ∧
      ∃ c, Circuit.read m.current.source.toList = .ok c ∧ m₁ = m.setCircuit c) ∧
    m' = { m₁ with
      editor := TextArea.load m.current.source.toList m₁.editor
      shown := m.current.source.toList } := by
  unfold sync at h
  cases hf : m.current.failed with
  | true =>
    simp only [hf, ↓reduceIte] at h
    cases h
    exact ⟨m, .inl ⟨rfl, rfl⟩, rfl⟩
  | false =>
    simp only [hf, Bool.false_eq_true, ↓reduceIte] at h
    cases hc : Circuit.read m.current.source.toList with
    | error e =>
      rw [hc] at h
      cases h
    | ok c =>
      rw [hc] at h
      cases h
      exact ⟨m.setCircuit c, .inr ⟨rfl, c, rfl, rfl⟩, rfl⟩

/-- Once the program was put into a text area that holds it, everything agrees. -/
theorem Lists.sync (hm : m.Lists demos config entropy)
    (hload : ∀ a : σ, TextArea.text (TextArea.load m.current.source.toList a) = m.current.source.toList)
    (h : m.sync = .ok m') :
    m'.Lists demos config entropy ∧ m'.Agrees ∧ m'.selected = m.selected ∧
      TextArea.text m'.editor = m'.current.source.toList := by
  obtain ⟨m₁, ⟨hf, rfl⟩ | ⟨hf, c, hc, rfl⟩, rfl⟩ := sync_ok h
  · refine ⟨hm.of_eq, fun b hb => ?_, rfl, hload _⟩
    cases hf.symm.trans (BuildResult.failed_of_ok hb)
  · have hcur := current_setCircuit (selected_lt_of_ok m hf) c
    refine ⟨(hm.setCircuit c).of_eq, fun b hb => ?_, rfl, ?_⟩
    · have hb : (m.current.withCircuit c).outcome = .ok b := hcur ▸ hb
      rw [BuildResult.circuit_withCircuit hb]
      exact ⟨hc, (hload _).symm⟩
    · show _ = (m.setCircuit c).current.source.toList
      rw [hcur, BuildResult.source_withCircuit]
      exact hload _

/-- If the text was changed, then the circuit is read again. -/
theorem Lists.refresh {a : σ} (hm : m.Lists demos config entropy) (hagree : m.Agrees)
    (h : Model.refresh { m with editor := a } = .ok m') :
    m'.Lists demos config entropy ∧ m'.Agrees ∧ m'.selected = m.selected := by
  unfold Model.refresh at h
  dsimp only at h
  split at h
  · rename_i hsame
    cases h
    refine ⟨hm.of_eq, fun b hb => ⟨(hagree b hb).1, ?_⟩, rfl⟩
    have hf := BuildResult.failed_of_ok hb
    simp only [hf, Bool.or_false, decide_eq_true_eq] at hsame
    exact hsame.symm
  · rename_i hchanged
    obtain ⟨c, hc, h⟩ := exists_of_bind_ok h
    cases h
    have hf : m.current.failed = false := by
      cases hf : m.current.failed with
      | false => rfl
      | true => exact absurd (Bool.or_eq_true_iff.2 (.inr hf)) hchanged
    have hcur := current_setCircuit (selected_lt_of_ok m hf) c
    refine ⟨(hm.setCircuit c).of_eq, fun b hb => ?_, rfl⟩
    have hb : (m.current.withCircuit c).outcome = .ok b := hcur ▸ hb
    rw [BuildResult.circuit_withCircuit hb]
    exact ⟨hc, rfl⟩

/-- Another program of the list is selected and put into the text area, or else at most the focus is
another one. -/
def Moves (m m' : Model σ) : Prop :=
  (∃ f, m' = { m with focus := f }) ∨
    ∃ i, (i = 0 ∨ i < m.results.length) ∧ Model.sync { m with selected := i } = .ok m'

theorem exists_save_eq (m : Model σ) (t : FileTree) (cwd : Path) :
    ∃ s, (m.save t cwd).1 = { m with status := s } := by
  unfold save
  split
  · exact ⟨_, rfl⟩
  · dsimp only
    split <;> exact ⟨_, rfl⟩

theorem moves_previous (hm : m.selected = 0 ∨ m.selected < m.results.length) (h : m.previous = .ok m') :
    m.Moves m' := by
  unfold previous at h
  split at h
  · exact .inr ⟨_, .inr (by omega), h⟩
  · cases h
    exact .inl ⟨m.focus, rfl⟩

theorem moves_next (h : m.next = .ok m') : m.Moves m' := by
  unfold next at h
  split at h
  · exact .inr ⟨_, .inr ‹_›, h⟩
  · cases h
    exact .inl ⟨m.focus, rfl⟩

theorem moves_listKey {quit : Bool} (hm : m.selected = 0 ∨ m.selected < m.results.length)
    (h : m.listKey k = .ok (m', quit)) : m.Moves m' := by
  have hfirst : ∀ {x : Except Fault (Model σ)}, (do return (← x, false)) = .ok (m', quit) → x = .ok m' := by
    intro x h
    obtain ⟨m₁, hx, h⟩ := exists_of_bind_ok h
    cases h
    exact hx
  unfold listKey at h
  split at h
  · cases h
    exact .inl ⟨m.focus, rfl⟩
  · cases h
    exact .inl ⟨.source, rfl⟩
  · exact moves_previous hm (hfirst h)
  · exact moves_previous hm (hfirst h)
  · exact moves_next (hfirst h)
  · exact moves_next (hfirst h)
  · cases h
    exact .inl ⟨m.focus, rfl⟩

end parts

end Model

/-! ### The editor as a text area -/

namespace Editor

theorem firstLines_of_count {n : Nat} (h : cs.count '\n' < n) : firstLines n cs = cs := by
  induction cs generalizing n with
  | nil => cases n <;> rfl
  | cons c cs ih =>
    obtain _ | n := n
    · exact absurd h (Nat.not_lt_zero _)
    · unfold firstLines
      by_cases hc : c = '\n'
      · subst hc
        rw [count_cons_self] at h
        have hn : n ≠ 0 := by omega
        rw [if_neg (by simp), if_neg hn, ih (by omega)]
      · rw [count_cons_of_ne hc] at h
        rw [if_pos hc, ih h]

/-- The editor holds every text that has neither control characters nor too many lines. -/
def Holds (cs : List Char) : Prop := clean cs = cs ∧ cs.count '\n' < maxLines

instance (cs : List Char) : Decidable (Holds cs) := inferInstanceAs (Decidable (_ ∧ _))

theorem Holds.text_load (h : Holds cs) (e : Editor) : TextArea.text (TextArea.load cs e) = cs := by
  have hfirst : firstLines maxLines (clean cs) = cs := by rw [h.1, firstLines_of_count h.2]
  show (insert cs { e with before := [], after := [], aim := 0 }).text = cs
  rw [insert, if_neg (by simp [maxLines, lineCount])]
  show ((firstLines maxLines (clean cs)).reverse ++ []).reverse ++ [] = cs
  rw [hfirst]
  simp

end Editor

namespace Model
variable {σ : Type} [TextArea σ]

/-! ### Sessions -/

section sessions
variable {demos : List Demo} {config : BuildConfig} {entropy : Nat → List UInt8} {m m' : Model σ}

/-- What a key leaves behind: a model in which everything agrees, and the source of the selected program
in the text area if another one was selected or all were built again. -/
structure Settles (demos : List Demo) (config : BuildConfig) (entropy : Nat → List UInt8) (k : Key)
    (m m' : Model σ) : Prop where
  lists : m'.Lists demos config entropy
  agrees : m'.Agrees
  loaded : m'.selected ≠ m.selected ∨ k = .rebuild → TextArea.text m'.editor = m'.current.source.toList

variable (hload : ∀ cs, Loads demos config entropy cs → ∀ a : σ, TextArea.text (TextArea.load cs a) = cs)

include hload in
theorem settles_of_sync {m₁ : Model σ} (hm₁ : m₁.Lists demos config entropy) (h : m₁.sync = .ok m') :
    Settles demos config entropy k m m' := by
  obtain ⟨hlists, hagrees, -, htext⟩ := hm₁.sync (hload _ hm₁.loads) h
  exact ⟨hlists, hagrees, fun _ => htext⟩

include hload in
theorem settles_press {t t' : FileTree} {cwd : Path} {quit : Bool}
    (hm : m.Lists demos config entropy) (hagree : m.Agrees) (h : m.press t cwd k = .ok (m', t', quit)) :
    Settles demos config entropy k m m' := by
  -- the status is cleared first, which does not matter
  have hclear : Lists demos config entropy { m with status := "" } := hm.of_eq
  have hstays : ∀ f s, k ≠ .rebuild → Settles demos config entropy k m { m with focus := f, status := s } :=
    fun f s hk => ⟨hm.of_eq, hagree, fun hor => (hor.elim (fun h => h rfl) hk).elim⟩
  unfold press at h
  dsimp only at h
  split at h
  · cases h
    exact hstays m.focus "" (by decide)
  · obtain ⟨s, hs⟩ := exists_save_eq { m with status := "" } t cwd
    injection h with h
    injection h with h
    rw [← h, hs]
    exact hstays m.focus s (by decide)
  · obtain ⟨m₁, hrebuild, h⟩ := exists_of_bind_ok h
    cases h
    obtain ⟨results, hresults, hrebuild⟩ := exists_of_bind_ok hrebuild
    obtain ⟨m₂, hsync, hrebuild⟩ := exists_of_bind_ok hrebuild
    cases hrebuild
    obtain ⟨rfl, rfl, rfl⟩ := hm.setup
    have hlists := lists_of_ofDemos (m := { m with status := "" }) ⟨rfl, rfl, rfl⟩ (hm.length ▸ hm.selected) hresults
    obtain ⟨hm₂, hagree₂, htext⟩ := settles_of_sync hload (m := m) (k := .rebuild) hlists hsync
    exact ⟨hm₂.of_eq, hagree₂, htext⟩
  · rename_i hk
    split at h
    · obtain ⟨⟨m₁, q⟩, hlist, h⟩ := exists_of_bind_ok h
      cases h
      rcases moves_listKey hclear.selected hlist with ⟨f, rfl⟩ | ⟨i, hi, hsync⟩
      · exact hstays f "" hk
      · have hlists : Lists demos config entropy { m with status := "", selected := i } :=
          ⟨hm.setup, hm.results, hi⟩
        exact settles_of_sync hload hlists hsync
    · obtain ⟨m₁, hsource, h⟩ := exists_of_bind_ok h
      cases h
      unfold sourceKey at hsource
      split at hsource
      · cases hsource
        exact hstays .list "" hk
      · cases hsource
        exact hstays .list "" hk
      · obtain ⟨hlists, hagrees, hsame⟩ := hclear.refresh hagree hsource
        exact ⟨hlists, hagrees, fun hor => (hor.elim (fun h => h hsame) hk).elim⟩

theorem Agrees.resize (h : m.Agrees) (w k : Int) : (m.resize w k).Agrees := fun b hb => by
  obtain ⟨hc, ht⟩ := h b hb
  exact ⟨hc, ht.trans (TextArea.text_resize _ _).symm⟩

include hload in
/-- Everything agrees in every model of a session. -/
theorem Reachable.settled {area : σ} (h : Reachable area demos config entropy m) :
    m.Lists demos config entropy ∧ m.Agrees := by
  induction h with
  | start h =>
    obtain ⟨results, hresults, h⟩ := exists_of_bind_ok h
    have hlists := lists_of_ofDemos
      (m := ⟨demos, config, entropy, results, 0, .list, area, [], 0, 0, ""⟩) ⟨rfl, rfl, rfl⟩ (.inl rfl) hresults
    obtain ⟨hm, hagree, -⟩ := hlists.sync (hload _ hlists.loads) h
    exact ⟨hm, hagree⟩
  | @update m m' msg t t' cwd quit _ h ih =>
    cases msg with
    | key k =>
      have hs := settles_press hload ih.1 ih.2 h
      exact ⟨hs.lists, hs.agrees⟩
    | resize w k =>
      cases h
      exact ⟨ih.1.of_eq, ih.2.resize w k⟩

end sessions

/-- In every model of a session there is one result for each demo, and the program that is selected is
one of them if there are any. If it was built, then its circuit is that of the text that was shown last,
which is the text in the text area. After a key that selects another program, or builds all of them
again, that text is the source of the selected program. -/
theorem session_consistent (area : σ) (demos : List Demo) (config : BuildConfig)
    (entropy : Nat → List UInt8)
    (hload : ∀ cs, Loads demos config entropy cs → ∀ a : σ, TextArea.text (TextArea.load cs a) = cs)
    (m : Model σ) (h : Reachable area demos config entropy m) :
    m.results.length = demos.length ∧
    (m.selected = 0 ∨ m.selected < m.results.length) ∧
    (∀ b, m.current.outcome = .ok b →
      Circuit.read m.shown = .ok b.circuit ∧ m.shown = TextArea.text m.editor) ∧
    ∀ t cwd k m' t' quit, m.press t cwd k = .ok (m', t', quit) → m'.selected ≠ m.selected ∨ k = .rebuild →
      ∀ d r, demos[m'.selected]? = some d → BuildResult.ofDemo d config (entropy m'.selected) = .ok r →
        TextArea.text m'.editor = r.source.toList := by
  obtain ⟨hm, hagree⟩ := h.settled hload
  refine ⟨hm.length, hm.selected, hagree, fun t cwd k m' t' quit hpress hk d r hd hr => ?_⟩
  have hs := settles_press hload hm hagree hpress
  rw [hs.loaded hk, hs.lists.source hd hr]

/-- The model after some messages, in a directory without files. -/
def play : List Message → Model → Except Fault Model
  | [], m => .ok m
  | msg :: msgs, m => do
    let (m, _, _) ← m.update ⟨[]⟩ [] msg
    play msgs m

theorem Reachable.play {area : Editor} {demos : List Demo} {config : BuildConfig} {entropy : Nat → List UInt8}
    {msgs : List Message} {m m' : Model} (hm : Reachable area demos config entropy m)
    (h : m.play msgs = .ok m') : Reachable area demos config entropy m' := by
  induction msgs generalizing m with
  | nil =>
    cases h
    exact hm
  | cons msg msgs ih =>
    obtain ⟨⟨m₁, t, quit⟩, hupdate, h⟩ := exists_of_bind_ok h
    exact ih (.update hm hupdate) h

def flipDemos : List Demo :=
  [⟨"flip", "", .ofRoutines [.main "flip"
      [.mk (.gate ⟨"x", 1, 0⟩ [.const (.int .word 0)]) none false .own] []], "flip", []⟩,
   ⟨"fail", "", .ofRoutines [.main "fail" [.mk (.fail "no") none false .own] []], "fail", []⟩]

theorem holds_flipDemos (h : Loads flipDemos {} (fun _ => []) cs) : Editor.Holds cs := by
  obtain rfl | ⟨x, hx, b, hb, rfl⟩ := h
  · decide
  · have hall : ∀ x ∈ flipDemos.zipIdx, (BuildResult.ofDemo x.1 {} []).toOption.all
        (fun b => decide (Editor.Holds b.source.toList)) = true := by
      decide +kernel
    have hholds := hall x hx
    rw [hb] at hholds
    exact of_decide_eq_true hholds

/-- A session in which the source of the first demo was edited by hand. -/
theorem session_consistent_edited :
    ∃ m : Model, Reachable {} flipDemos {} (fun _ => []) m ∧
      m.current.outcome.toOption.map (fun b => b.circuit.ops.map (·.name)) = some ["X", "X"] ∧
      (∀ b, m.current.outcome = .ok b →
        Circuit.read m.shown = .ok b.circuit ∧ m.shown = m.editor.text) ∧
      ∀ t cwd m' t' quit, m.press t cwd .rebuild = .ok (m', t', quit) →
        ∀ d r, flipDemos[m'.selected]? = some d → BuildResult.ofDemo d {} [] = .ok r →
          m'.editor.text = r.source.toList := by
  have hplay : (start flipDemos {} (fun _ => []) >>= play [.key .down, .resize 80 24, .key .up, .key .tab,
      .key (.text "x __qubits__[0];")]).toOption.map
        (fun m => m.current.outcome.toOption.map fun b => b.circuit.ops.map (·.name)) =
      some (some ["X", "X"]) := by
    decide +kernel
  obtain ⟨m, hm, hops⟩ := Option.map_eq_some_iff.1 hplay
  obtain ⟨m₀, hstart, hm⟩ := exists_of_bind_ok (eq_ok_of_toOption hm)
  have hreach : Reachable {} flipDemos {} (fun _ => []) m := .play (.start hstart) hm
  obtain ⟨-, -, hagree, hpress⟩ :=
    session_consistent _ _ _ _ (fun _ hcs => (holds_flipDemos hcs).text_load) m hreach
  exact ⟨m, hreach, hops, hagree, fun t cwd m' t' quit h => hpress t cwd .rebuild m' t' quit h (.inr rfl)⟩

end Model

end QasmStudio
