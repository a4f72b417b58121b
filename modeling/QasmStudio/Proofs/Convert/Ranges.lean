import QasmStudio.Proofs.Convert.Apply
import QasmStudio.Proofs.Number.Word

/-!
# Half-open ranges

A loop is given the numbers from `start` in steps up to `stop`, and `stop` is not one of them. OpenQASM
writes a range with its end, so the end is moved by one against the direction of the loop. `Expr.values?`
gives the numbers of a written range, `HalfOpen` says which ones were asked for.

The direction is read off the step only if that is a plain word. A negative step of another format moves
the end forward instead of back, and the loop runs over `stop` and, in steps of one, over the number behind
it. Words have a smallest and a largest one, so an end that is moved beyond them comes out at the other side.
-/

namespace QasmStudio

def Expr.integer? : Expr → Option Int
  | .int n => some n
  | .binary op l r => do
    let a ← l.integer?
    let b ← r.integer?
    if op = "+" then some (a + b) else if op = "-" then some (a - b) else none
  | _ => none

/-- `start`, `start + step` and so on, as far as `stop`, which is included. -/
def inclusive (start stop step : Int) : List Int :=
  (List.range ((stop - start).fdiv step + 1).toNat).map fun (i : Nat) => start + i * step

/-- The numbers of a range that goes somewhere, in order. -/
def Expr.values? : Expr → Option (List Int)
  | .range start stop step => do
    let a ← start.integer?
    let b ← stop.integer?
    let d ← step.elim (some 1) Expr.integer?
    if d = 0 then none else some (inclusive a b d)
  | _ => none

/-- The list holds, in order, those of `start`, `start + step` and so on that come before `stop` in the
direction of the step. -/
structure HalfOpen (start stop step : Int) (xs : List Int) : Prop where
  terms : ∀ (i : Nat) (n : Int), xs[i]? = some n → n = start + i * step
  inside : ∀ i : Nat, i < xs.length ↔
    (0 < step → start + i * step < stop) ∧ (step < 0 → stop < start + i * step)

/-- The count is right in both directions. -/
theorem lt_count_iff {a b d : Int} (hd : d ≠ 0) (i : Nat) :
    i < ((b - a).fdiv d + 1).toNat ↔ (0 < d → a + i * d ≤ b) ∧ (d < 0 → b ≤ a + i * d) := by
  rcases Int.lt_or_gt_of_ne hd with hneg | hpos
  · have hle : (i : Int) ≤ (a - b) / (-d) ↔ i * (-d) ≤ a - b := Int.le_ediv_iff_mul_le (by omega)
    have hdiv : (b - a).fdiv d = (a - b) / (-d) := by
      rw [← Int.neg_fdiv_neg, Int.neg_sub, Int.fdiv_eq_ediv_of_nonneg _ (by omega)]
    rw [hdiv, Int.lt_toNat, Int.lt_add_one_iff, hle, Int.mul_neg]
    omega
  · have hle : (i : Int) ≤ (b - a) / d ↔ i * d ≤ b - a := Int.le_ediv_iff_mul_le hpos
    rw [Int.fdiv_eq_ediv_of_nonneg _ (by omega), Int.lt_toNat, Int.lt_add_one_iff, hle]
    omega

/-- A range with its end is the half-open one that ends one behind it. -/
theorem halfOpen_inclusive {a b c d : Int} (hd : d ≠ 0) (hup : 0 < d → c = b + 1)
    (hdown : d < 0 → c = b - 1) : HalfOpen a c d (inclusive a b d) := by
  constructor
  · intro i n hn
    rw [inclusive, List.getElem?_map, Option.map_eq_some_iff] at hn
    obtain ⟨j, hj, rfl⟩ := hn
    obtain ⟨hlt, rfl⟩ := List.getElem?_eq_some_iff.1 hj
    rw [List.getElem_range]
  · intro i
    rw [inclusive, List.length_map, List.length_range, lt_count_iff hd]
    omega

/-! ### What is written -/

/-- The value is the integer `n`, as data of a format that has literals or as a literal. -/
def Value.IsInteger (v : Value) (n : Int) : Prop :=
  Word.InRange n ∧ (v = .expr (.int n) ∨ ∃ format, format ≠ .u64 ∧ v = .int format n)

theorem Value.IsInteger.toExpr {v : Value} {n : Int} (h : v.IsInteger n) : v.toExpr = .ok (.int n) := by
  obtain ⟨hn, rfl | ⟨format, hf, rfl⟩⟩ := h
  · rfl
  · cases format with
    | u64 => exact absurd rfl hf
    | _ => exact congrArg (fun n => Except.ok (Expr.int n)) (Word.wrap_of_inRange hn)

theorem Convert.expression_of_isInteger {v : Value} {n : Int} (h : v.IsInteger n) (s : State) :
    expression v s = (.ok (.int n), s) := by
  rw [expression, h.toExpr]
  rfl

namespace RangeSpec
variable {r : RangeSpec} {a b d last : Int} {s : State}

/-- The step is `d`, which is 1 if there is none. -/
def HasStep (r : RangeSpec) (d : Int) : Prop := r.step.elim (d = 1) (·.IsInteger d)

/-- The end `b`, moved back by one. -/
def moved (r : RangeSpec) (b : Int) : Int := if r.descending then b + 1 else b - 1

/-- The end is a plain word that cannot be moved back. -/
def Overflows (r : RangeSpec) : Prop :=
  r.stop = .int .word (if r.descending then Word.largest else Word.smallest)

theorem HasStep.neg_of_descending (h : r.HasStep d) (hr : r.descending = true) : d < 0 := by
  unfold descending at hr
  unfold HasStep at h
  split at hr
  · rename_i n hstep
    rw [hstep] at h
    obtain ⟨-, hv | ⟨_, -, hv⟩⟩ := h <;> cases hv
    exact of_decide_eq_true hr
  · cases hr

def stepExpr (r : RangeSpec) : Convert (Option Expr) :=
  match r.step with
  | none => pure none
  | some v => some <$> Convert.expression v

theorem expr_of_word {n : Int} (h : r.stop = .int .word n) : Convert.RangeSpec.expr r = (do
      let start ← Convert.expression r.start
      let step ← r.stepExpr
      return .range start (.int (if r.descending then Word.add n 1 else Word.sub n 1)) step) := by
  unfold Convert.RangeSpec.expr stepExpr
  rw [h]
  cases r.step <;> rfl

theorem expr_of_ne_word (h : ∀ n, r.stop ≠ .int .word n) : Convert.RangeSpec.expr r = (do
      let start ← Convert.expression r.start
      let step ← r.stepExpr
      let e ← Convert.expression r.stop
      return .range start (.binary (if r.descending then "+" else "-") e (.int 1)) step) := by
  unfold Convert.RangeSpec.expr stepExpr
  generalize r.stop = stop at h ⊢
  cases stop with
  | int format n =>
    cases format with
    | word => exact absurd rfl (h n)
    | _ => cases r.step <;> rfl
  | _ => cases r.step <;> rfl

/-- The end `b` is written as `last`: moved back, and as a word if it is a plain one. -/
def EndsAt (r : RangeSpec) (b last : Int) : Prop :=
  r.stop = .int .word b ∧ last = Word.wrap (r.moved b) ∨ (∀ n, r.stop ≠ .int .word n) ∧ last = r.moved b

theorem EndsAt.eq_moved (h : r.EndsAt b last) (hb : Word.InRange b) (hfits : ¬ r.Overflows) :
    last = if r.descending then b + 1 else b - 1 := by
  obtain ⟨hstop, rfl⟩ | ⟨-, rfl⟩ := h
  · have hne : b ≠ if r.descending then Word.largest else Word.smallest := by
      rintro rfl
      exact hfits hstop
    refine Word.wrap_of_inRange ?_
    have hwide : Word.smallest + 1 < Word.largest := by decide
    grind [moved, Word.InRange]
  · rfl

theorem EndsAt.eq_wrapped (h : r.EndsAt b last) (hover : r.Overflows) :
    last = if r.descending then Word.smallest else Word.largest := by
  obtain ⟨hstop, rfl⟩ | ⟨hne, -⟩ := h
  · obtain rfl : (if r.descending then Word.largest else Word.smallest) = b := by
      simpa using hover.symm.trans hstop
    unfold moved
    cases r.descending <;> decide
  · exact absurd hover (hne _)

theorem exists_expr (ha : r.start.IsInteger a) (hb : r.stop.IsInteger b) (hd : r.HasStep d) (hne : d ≠ 0) :
    ∃ e last, Convert.RangeSpec.expr r s = (.ok e, s) ∧ e.values? = some (inclusive a last d) ∧
      r.EndsAt b last := by
  obtain ⟨step, hstep, hvalue⟩ : ∃ step, r.stepExpr s = (.ok step, s) ∧
      step.elim (some 1) Expr.integer? = some d := by
    unfold HasStep at hd
    unfold stepExpr
    generalize r.step = step at hd
    cases step with
    | none => exact ⟨none, rfl, congrArg some (Eq.symm hd)⟩
    | some v => exact ⟨some (.int d), Convert.bind_of_ok (Convert.expression_of_isInteger hd s) _, rfl⟩
  have hvalues : ∀ {stop last}, Expr.integer? stop = some last →
      (Expr.range (.int a) stop step).values? = some (inclusive a last d) := by
    intro stop last hstop
    simp [Expr.values?, Expr.integer?, hstop, hvalue, hne]
  have hstart := Convert.expression_of_isInteger ha s
  by_cases hword : ∃ n, r.stop = .int .word n
  · obtain ⟨n, hstop⟩ := hword
    obtain rfl : b = n := by
      obtain ⟨-, hv | ⟨_, -, hv⟩⟩ := hstop ▸ hb <;> cases hv
      rfl
    rw [expr_of_word hstop, Convert.bind_of_ok hstart, Convert.bind_of_ok hstep]
    refine ⟨_, Word.wrap (r.moved b), rfl, hvalues ?_, .inl ⟨hstop, rfl⟩⟩
    unfold moved
    split <;> rfl
  · have hother : ∀ n, r.stop ≠ .int .word n := fun n h => hword ⟨n, h⟩
    rw [expr_of_ne_word hother, Convert.bind_of_ok hstart, Convert.bind_of_ok hstep,
      Convert.bind_of_ok (Convert.expression_of_isInteger hb s)]
    refine ⟨_, r.moved b, rfl, hvalues ?_, .inr ⟨hother, rfl⟩⟩
    unfold moved
    split <;> rfl

end RangeSpec

namespace Convert

/-- A range over words is written with exactly the numbers that were asked for, if it goes up or its step
is a plain word, and its end can be moved. A step down of another format makes it end two numbers later,
and an end that cannot be moved makes it run to the other end of the words. -/
theorem range_values {r : RangeSpec} {a b d : Int} (ha : r.start.IsInteger a) (hb : r.stop.IsInteger b)
    (hd : r.HasStep d) (hne : d ≠ 0) (s : State) :
    ∃ e xs, RangeSpec.expr r s = (.ok e, s) ∧ e.values? = some xs ∧
      (¬ r.Overflows → 0 < d ∨ r.descending = true → HalfOpen a b d xs) ∧
      (¬ r.Overflows → d < 0 → r.descending = false → HalfOpen a (b - 2) d xs) ∧
      (r.Overflows → HalfOpen a (if r.descending then Word.smallest - 1
        else if 0 < d then Word.largest + 1 else Word.largest - 1) d xs) := by
  obtain ⟨e, last, hexpr, hvalues, hlast⟩ := RangeSpec.exists_expr (s := s) ha hb hd hne
  have hdown := hd.neg_of_descending
  refine ⟨e, inclusive a last d, hexpr, hvalues, ?_, ?_, ?_⟩
  · intro hfits hdir
    have hmoved := hlast.eq_moved hb.1 hfits
    refine halfOpen_inclusive hne ?_ ?_ <;> grind
  · intro hfits hneg hr
    have hmoved := hlast.eq_moved hb.1 hfits
    refine halfOpen_inclusive hne ?_ ?_ <;> grind
  · intro hover
    have hwrapped := hlast.eq_wrapped hover
    refine halfOpen_inclusive hne ?_ ?_ <;> grind

/-- From 10 down to 1, given in three formats. -/
theorem range_values_down :
    ∃ r : RangeSpec, r = ⟨.int .u8 10, .expr (.int 1), some (.int .word (-3))⟩ ∧
      r.start.IsInteger 10 ∧ r.stop.IsInteger 1 ∧ r.HasStep (-3) ∧ ¬ r.Overflows ∧ r.descending = true ∧
      ∃ e, RangeSpec.expr r {} = (.ok e, {}) ∧ e.values? = some [10, 7, 4] ∧ HalfOpen 10 1 (-3) [10, 7, 4] := by
  have ha : (Value.int .u8 10).IsInteger 10 := ⟨by decide, .inr ⟨.u8, by decide, rfl⟩⟩
  have hb : (Value.expr (.int 1)).IsInteger 1 := ⟨by decide, .inl rfl⟩
  have hd : (Value.int .word (-3)).IsInteger (-3) := ⟨by decide, .inr ⟨.word, by decide, rfl⟩⟩
  have hfits : ¬ RangeSpec.Overflows ⟨.int .u8 10, .expr (.int 1), some (.int .word (-3))⟩ := fun h => by cases h
  obtain ⟨e, xs, hexpr, hvalues, hexact, -⟩ := range_values
    (r := ⟨.int .u8 10, .expr (.int 1), some (.int .word (-3))⟩) ha hb hd (by decide) {}
  have hhalf := hexact hfits (.inr rfl)
  cases hexpr
  cases hvalues
  exact ⟨_, rfl, ha, hb, hd, hfits, rfl, _, rfl, rfl, hhalf⟩

/-- A step down that is no plain word, an end at the brink of the words on either side, and an unsigned
start behind the words. -/
theorem range_values_differ :
    (∃ e, RangeSpec.expr ⟨.int .word 3, .int .word 0, some (.int .i64 (-1))⟩ {} = (.ok e, {}) ∧
      e.values? = some [3, 2, 1, 0, -1] ∧ ¬ HalfOpen 3 0 (-1) [3, 2, 1, 0, -1]) ∧
    (∃ e xs, RangeSpec.expr ⟨.int .word (Word.largest - 1), .int .word Word.smallest, none⟩ {} = (.ok e, {}) ∧
      e.values? = some xs ∧ xs = [Word.largest - 1, Word.largest] ∧
      ¬ HalfOpen (Word.largest - 1) Word.smallest 1 xs) ∧
    (∃ e xs, RangeSpec.expr
        ⟨.int .word (Word.smallest + 1), .int .word Word.largest, some (.int .word (-1))⟩ {} = (.ok e, {}) ∧
      e.values? = some xs ∧ xs = [Word.smallest + 1, Word.smallest] ∧
      ¬ HalfOpen (Word.smallest + 1) Word.largest (-1) xs) ∧
    (∃ e xs, RangeSpec.expr
        ⟨.int .uword (Word.largest + 1), .int .uword (Word.largest + 3), none⟩ {} = (.ok e, {}) ∧
      e.values? = some xs ∧ xs = [Word.smallest, Word.smallest + 1] ∧
      ¬ HalfOpen (Word.largest + 1) (Word.largest + 3) 1 xs) := by
  refine ⟨⟨_, rfl, rfl, ?_⟩, ⟨_, _, rfl, rfl, rfl, ?_⟩, ⟨_, _, rfl, rfl, rfl, ?_⟩, ⟨_, _, rfl, rfl, rfl, ?_⟩⟩
  · intro h
    have hzero := (h.inside 3).1 (by decide)
    omega
  · intro h
    have hfirst := (h.inside 0).1 (by decide)
    revert hfirst
    decide
  · intro h
    have hfirst := (h.inside 0).1 (by decide)
    revert hfirst
    decide
  · intro h
    have hfirst := h.terms 0 Word.smallest rfl
    revert hfirst
    decide

end Convert

end QasmStudio
