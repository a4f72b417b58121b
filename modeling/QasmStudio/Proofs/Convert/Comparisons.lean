import QasmStudio.Convert.Operator
import QasmStudio.Proofs.Number.Doubles
import QasmStudio.Proofs.Number.Word

/-!
# Comparisons of integers

Integers known while converting are compared as doubles. The result is that of the integers, and of
the comparison that would have been written into the program, unless the two are not equal and have
the same nearest double (`Convert.compare_words`).
-/

namespace QasmStudio
open Number

namespace Comparison

/-- What a comparison says of integers. -/
def holds (c : Comparison) (m n : Int) : Bool :=
  match c with
  | eq => m = n
  | ne => m ≠ n
  | lt => m < n
  | le => m ≤ n
  | gt => n < m
  | ge => n ≤ m

theorem floats_eq_holds {b : Nat} {x y : Float} {v w : Int} (hx : Holds b x.toModel.unpack v)
    (hy : Holds b y.toModel.unpack w) (c : Comparison) : c.floats x y = c.holds v w := by
  cases c with
  | eq => exact hx.beq hy
  | ne => exact (congrArg not (hx.beq hy)).trans (decide_not).symm
  | lt => exact decide_eq_decide.2 (hx.lt_iff hy)
  | le => exact decide_eq_decide.2 (hx.le_iff hy)
  | gt => exact decide_eq_decide.2 (hy.lt_iff hx)
  | ge => exact decide_eq_decide.2 (hy.le_iff hx)

/-- A conversion that keeps the order keeps a comparison, unless it makes the two sides equal and that matters. -/
theorem holds_iff_of_mono {f : Int → Int} (hf : ∀ {m n}, m ≤ n → f m ≤ f n) (c : Comparison) (m n : Int) :
    c.holds (f m) (f n) = c.holds m n ↔ (f m = f n → c.holds m n = c.holds m m) := by
  have hle := hf (m := m) (n := n)
  have hge := hf (m := n) (n := m)
  rcases Int.lt_trichotomy m n with h | rfl | h
  · cases c <;> simp [holds] <;> omega
  · cases c <;> simp [holds]
  · cases c <;> simp [holds] <;> omega

end Comparison

/-- The truth value that a comparison of two integer literals has when the program runs. -/
def Expr.decided? : Expr → Option Bool
  | .binary op (.int m) (.int n) =>
    (([.eq, .ne, .lt, .le, .gt, .ge] : List Comparison).find? (·.symbol == op)).map (·.holds m n)
  | _ => none

namespace Convert

theorem expression_word {n : Int} (hn : Word.InRange n) (s : State) :
    expression (.int .word n) s = (.ok (.int n), s) := by
  simp only [expression, Value.toExpr, Word.wrap_of_inRange hn]
  rfl

/-- Words are compared by their nearest doubles. That is exact where these differ, and so for all words up to 2^53. -/
theorem compare_words {m n : Int} (hm : Word.InRange m) (hn : Word.InRange n) (h : Handle) (c : Comparison)
    (s : State) :
    ∃ t l r, compare h c (.int .word m) (.int .word n) s = (.ok (.bool t), s) ∧
      t = c.holds (nearestInt m) (nearestInt n) ∧
      (t = c.holds m n ↔ (nearestInt m = nearestInt n → c.holds m n = c.holds m m)) ∧
      (m.natAbs ≤ 2 ^ 53 → n.natAbs ≤ 2 ^ 53 → t = c.holds m n) ∧
      expression (.int .word m) s = (.ok l, s) ∧ expression (.int .word n) s = (.ok r, s) ∧
      (Expr.binary c.symbol l r).decided? = some (c.holds m n) := by
  have habs : ∀ {k : Int}, Word.InRange k → k.natAbs < 2 ^ 64 := fun hk => by
    unfold Word.InRange Word.smallest Word.largest at hk
    omega
  have hfloats : c.floats (Float.ofInt m) (Float.ofInt n) = c.holds (nearestInt m) (nearestInt n) :=
    Comparison.floats_eq_holds (holds_ofInt (habs hm)) (holds_ofInt (habs hn)) c
  refine ⟨_, _, _, rfl, hfloats, ?_, fun hm' hn' => ?_, expression_word hm s, expression_word hn s, ?_⟩
  · rw [hfloats]
    exact Comparison.holds_iff_of_mono nearestInt_mono c m n
  · rw [hfloats, nearestInt_of_short hm', nearestInt_of_short hn']
  · cases c <;> rfl

/-- The first of the two words goes to the double below it, and the other is one itself. -/
theorem compare_words_odd : Word.InRange 9007199254740993 ∧ Word.InRange 9007199254740994 ∧
    ∃ t, compare .own .lt (.int .word 9007199254740993) (.int .word 9007199254740994) {} = (.ok (.bool t), {}) ∧
      t = true := by
  have hfirst : Word.InRange 9007199254740993 := by decide
  have hsecond : Word.InRange 9007199254740994 := by decide
  obtain ⟨t, l, r, hrun, -, hexact, -⟩ := compare_words hfirst hsecond .own .lt {}
  exact ⟨hfirst, hsecond, t, hrun, hexact.2 (by decide +kernel)⟩

/-- Two words with one nearest double are equal while converting, and not in the program. -/
theorem neighbours_compare_equal :
    Comparison.eq.data (.int .word 9007199254740992) (.int .word 9007199254740993) = .ok true ∧
      Comparison.lt.data (.int .word 9007199254740992) (.int .word 9007199254740993) = .ok false ∧
      (Expr.binary "==" (.int 9007199254740992) (.int 9007199254740993)).decided? = some false :=
  ⟨rfl, rfl, rfl⟩

end Convert
end QasmStudio
