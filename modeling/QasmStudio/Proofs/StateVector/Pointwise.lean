import Mathlib.Data.Nat.Bitwise
import Mathlib.Logic.Function.Basic
import QasmStudio.Proofs.StateVector.Total

/-!
# The kernels entry by entry

A kernel overwrites the vector that it reads. It goes through the indices in ascending order and handles
them in pairs, and each pair is handled at one of its two indices only (`Pairing`). So the entries that it
reads are those of the vector it began with, and the outcome is a function of the old entries at each index:
`acted` for a matrix under controls, `exchanged` for a swap, `coupled` for a coupling of two qubits.
-/

namespace QasmStudio
variable {controls : List Nat}

namespace Kernel
variable {α : Type} {n : Nat} {q₁ q₂ : Nat}

/-! ### Bits of an index -/

/-- The index in which bit `q` has the value `b` and all other bits are those of `i`. -/
def withBit (i q : Nat) (b : Bool) : Nat := if i.testBit q = b then i else i ^^^ 2 ^ q

def exchangeBits (q₁ q₂ i : Nat) : Nat := withBit (withBit i q₁ (i.testBit q₂)) q₂ (i.testBit q₁)

def flipBit (q i : Nat) : Nat := withBit i q (!i.testBit q)

theorem testBit_withBit (i q p : Nat) (b : Bool) :
    (withBit i q b).testBit p = if p = q then b else i.testBit p := by
  unfold withBit
  split <;> rename_i h
  · split <;> simp_all
  · rw [Nat.testBit_xor, Nat.testBit_two_pow]
    split <;> rename_i hpq
    · subst hpq
      cases b <;> simp_all
    · simp [Ne.symm hpq]

theorem withBit_lt {i q : Nat} (b : Bool) (hi : i < 2 ^ n) (hq : q < n) : withBit i q b < 2 ^ n := by
  unfold withBit
  split
  · exact hi
  · exact Nat.xor_lt_two_pow hi (Nat.pow_lt_pow_right (by omega) hq)

theorem testBit_flipBit (q i p : Nat) :
    (flipBit q i).testBit p = if p = q then !i.testBit q else i.testBit p := testBit_withBit ..

theorem testBit_exchangeBits (q₁ q₂ i p : Nat) : (exchangeBits q₁ q₂ i).testBit p =
    if p = q₂ then i.testBit q₁ else if p = q₁ then i.testBit q₂ else i.testBit p := by
  unfold exchangeBits
  rw [testBit_withBit, testBit_withBit]

theorem withBit_true {i q : Nat} (h : i.testBit q = false) : withBit i q true = flipBit q i := by
  rw [flipBit, h, Bool.not_false]

theorem withBit_false {i q : Nat} (h : i.testBit q = true) : withBit i q false = flipBit q i := by
  rw [flipBit, h, Bool.not_true]

theorem flipBit_flipBit (q i : Nat) : flipBit q (flipBit q i) = i := by
  refine Nat.eq_of_testBit_eq fun p => ?_
  simp only [testBit_flipBit]
  grind

theorem flipBit_comm (q₁ q₂ i : Nat) : flipBit q₁ (flipBit q₂ i) = flipBit q₂ (flipBit q₁ i) := by
  refine Nat.eq_of_testBit_eq fun p => ?_
  simp only [testBit_flipBit]
  grind

theorem exchangeBits_exchangeBits (q₁ q₂ i : Nat) : exchangeBits q₁ q₂ (exchangeBits q₁ q₂ i) = i := by
  refine Nat.eq_of_testBit_eq fun p => ?_
  simp only [testBit_exchangeBits]
  grind

theorem exchangeBits_of_eq {i : Nat} (h : i.testBit q₁ = i.testBit q₂) : exchangeBits q₁ q₂ i = i := by
  refine Nat.eq_of_testBit_eq fun p => ?_
  rw [testBit_exchangeBits]
  grind

/-! The masks that the kernels work with -/

theorem and_two_pow_eq_zero {i q : Nat} : i &&& 2 ^ q = 0 ↔ i.testBit q = false := by
  rw [Nat.and_two_pow]
  cases i.testBit q <;> simp

theorem or_two_pow (i q : Nat) : i ||| 2 ^ q = withBit i q true := by
  refine Nat.eq_of_testBit_eq fun p => ?_
  rw [testBit_withBit, Nat.testBit_or, Nat.testBit_two_pow]
  grind

theorem clear_or_two_pow {i : Nat} (h₁ : i.testBit q₁ = true) (h₂ : i.testBit q₂ = false) :
    (i ^^^ (i &&& 2 ^ q₁)) ||| 2 ^ q₂ = exchangeBits q₁ q₂ i := by
  refine Nat.eq_of_testBit_eq fun p => ?_
  simp only [testBit_exchangeBits, Nat.testBit_or, Nat.testBit_xor, Nat.testBit_and, Nat.testBit_two_pow]
  grind

theorem xor_two_pow (i q : Nat) : i ^^^ 2 ^ q = flipBit q i := by
  refine Nat.eq_of_testBit_eq fun p => ?_
  rw [testBit_flipBit, Nat.testBit_xor, Nat.testBit_two_pow]
  grind

def controlMask (controls : List Nat) : Nat := (controls.map (2 ^ ·)).foldl (· ||| ·) 0

theorem testBit_controlMask (controls : List Nat) (p : Nat) :
    (controlMask controls).testBit p = controls.contains p := by
  have hfold : ∀ m : Nat, ((controls.map (2 ^ ·)).foldl (· ||| ·) m).testBit p =
      (m.testBit p || controls.contains p) := by
    induction controls with
    | nil => simp
    | cons q qs ih =>
      intro m
      rw [List.map_cons, List.foldl_cons, ih, Nat.testBit_or, Nat.testBit_two_pow, List.contains_cons,
        Bool.or_assoc]
      congr 2
      grind
  simpa [controlMask] using hfold 0

theorem and_controlMask {i : Nat} :
    i &&& controlMask controls = controlMask controls ↔ ∀ q ∈ controls, i.testBit q = true := by
  constructor
  · intro h q hq
    have hbit := congrArg (·.testBit q) h
    simpa [Nat.testBit_and, testBit_controlMask, hq] using hbit
  · intro h
    refine Nat.eq_of_testBit_eq fun p => ?_
    rw [Nat.testBit_and, testBit_controlMask]
    grind

/-! ### Vectors -/

/-- The vector with the entries `a`, one for each index of `n` bits. -/
def vector (n : Nat) (a : Nat → α) : Array α := Array.ofFn fun i : Fin (2 ^ n) => a i

@[simp]
theorem size_vector (a : Nat → α) : (vector n a).size = 2 ^ n := Array.size_ofFn

theorem getElem?_vector (a : Nat → α) (i : Nat) : (vector n a)[i]? = if i < 2 ^ n then some (a i) else none := by
  unfold vector
  rw [Array.getElem?_ofFn]
  split <;> rfl

theorem vector_congr {a b : Nat → α} (h : ∀ i < 2 ^ n, a i = b i) : vector n a = vector n b := by
  refine Array.ext_getElem? fun i => ?_
  rw [getElem?_vector, getElem?_vector]
  split
  · rename_i hi
    rw [h i hi]
  · rfl

theorem exists_vector {v : Array α} (hv : v.size = 2 ^ n) : ∃ a : Nat → α, v = vector n a := by
  have hpos : 0 < v.size := hv ▸ Nat.two_pow_pos n
  refine ⟨fun i => v.getD i v[0], Array.ext_getElem? fun i => ?_⟩
  rw [getElem?_vector, ← hv]
  split
  · rename_i hi
    simp [hi]
  · rename_i hi
    exact Array.getElem?_eq_none (Nat.le_of_not_lt hi)

theorem update_vector (f g : α → α → α) (a : Nat → α) {i j : Nat} (hi : i < 2 ^ n) (hj : j < 2 ^ n) :
    update f g (vector n a) i j =
      .ok (vector n (Function.update (Function.update a i (f (a i) (a j))) j (g (a i) (a j)))) := by
  unfold update
  rw [getElem?_vector, getElem?_vector, if_pos hi, if_pos hj]
  refine congrArg Except.ok (Array.ext_getElem? fun k => ?_)
  simp only [Array.getElem?_setIfInBounds, Array.size_setIfInBounds, size_vector, getElem?_vector,
    Function.update_apply]
  by_cases hkj : k = j
  · simp [hkj, hj]
  by_cases hki : k = i
  · subst hki
    simp [hi, hkj, Ne.symm hkj]
  · simp [hki, hkj, Ne.symm hki, Ne.symm hkj]

/-! ### Pairs of indices -/

/-- A division of the indices of `n` bits into pairs. Some of the pairs have a leader, the index that the
pair is handled at. -/
structure Pairing (n : Nat) where
  leads : Nat → Bool
  mate : Nat → Nat
  mate_mate : ∀ i, mate (mate i) = i
  mate_lt : ∀ i < 2 ^ n, mate i < 2 ^ n
  leads_mate : ∀ i, leads i = true → leads (mate i) = false

namespace Pairing

/-- The entries when the pairs with a leader below `m` have been handled: `f` gives the entry of a leader and
`g` that of its mate, both from the old entries of the two. -/
def handled (P : Pairing n) (f g : Nat → α → α → α) (a : Nat → α) (m i : Nat) : α :=
  if P.leads i ∧ i < m then f i (a i) (a (P.mate i))
  else if P.leads (P.mate i) ∧ P.mate i < m then g (P.mate i) (a (P.mate i)) (a i)
  else a i

variable (P : Pairing n) {f g : Nat → α → α → α} {step : Array α → Nat → Except Fault (Array α)}

/-- What a kernel does at an index: nothing, or both entries of the pair that the index leads. -/
structure HandledBy (f g : Nat → α → α → α) (step : Array α → Nat → Except Fault (Array α)) : Prop where
  skip : ∀ v i, P.leads i = false → step v i = .ok v
  pair : ∀ v i, P.leads i = true → step v i = update (f i) (g i) v i (P.mate i)

variable {P}

theorem HandledBy.step_vector (h : P.HandledBy f g step) (a : Nat → α) {m : Nat} (hm : m < 2 ^ n) :
    step (vector n (P.handled f g a m)) m = .ok (vector n (P.handled f g a (m + 1))) := by
  cases hlead : P.leads m with
  | false =>
    rw [h.skip _ _ hlead]
    congr 2
    funext i
    -- neither `i` nor its mate is the new index, as that one leads no pair
    have hself : (P.leads i ∧ i < m + 1) ↔ (P.leads i ∧ i < m) := by grind
    have hmate : (P.leads (P.mate i) ∧ P.mate i < m + 1) ↔ (P.leads (P.mate i) ∧ P.mate i < m) := by grind
    simp only [handled, hself, hmate]
  | true =>
    have hfollow : P.leads (P.mate m) = false := P.leads_mate m hlead
    have hback : P.mate (P.mate m) = m := P.mate_mate m
    -- both entries of the pair are still the old ones
    have hold : P.handled f g a m m = a m := by simp [handled, hfollow]
    have hold' : P.handled f g a m (P.mate m) = a (P.mate m) := by simp [handled, hfollow, hback]
    rw [h.pair _ _ hlead, update_vector _ _ _ hm (P.mate_lt m hm), hold, hold']
    congr 2
    funext i
    rw [Function.update_apply, Function.update_apply]
    by_cases hi' : i = P.mate m
    · simp [handled, hi', hfollow, hback, hlead]
    by_cases hi : i = m
    · simp [handled, hi, hlead, show m ≠ P.mate m from fun h => hi' (hi.trans h)]
    · have hne : P.mate i ≠ m := fun h => hi' (by rw [← h, P.mate_mate])
      have hself : i < m + 1 ↔ i < m := by omega
      have hmate : P.mate i < m + 1 ↔ P.mate i < m := by omega
      simp only [if_neg hi', if_neg hi, handled, hself, hmate]

theorem HandledBy.foldlM_vector (h : P.HandledBy f g step) (a : Nat → α) {m : Nat} (hm : m ≤ 2 ^ n) :
    (List.range m).foldlM step (vector n a) = .ok (vector n (P.handled f g a m)) := by
  induction m with
  | zero =>
    have hnone : P.handled f g a 0 = a := by
      funext i
      simp [handled]
    rw [hnone]
    rfl
  | succ m ih =>
    have hm : m < 2 ^ n := hm
    rw [List.range_succ, List.foldlM_append, ih hm.le]
    show [m].foldlM step _ = _
    rw [List.foldlM_cons, h.step_vector a hm]
    rfl

/-- A sweep handles every pair that has a leader, from the entries that it began with. -/
theorem HandledBy.sweep_vector (h : P.HandledBy f g step) {a b : Nat → α} (hlead : ∀ i, P.leads i = true →
      b i = f i (a i) (a (P.mate i)) ∧ b (P.mate i) = g i (a i) (a (P.mate i)))
    (hrest : ∀ i, P.leads i = false → P.leads (P.mate i) = false → b i = a i) :
    sweep step (vector n a) = .ok (vector n b) := by
  rw [sweep, size_vector, h.foldlM_vector a le_rfl]
  refine congrArg Except.ok (vector_congr fun i hi => ?_)
  have hmate := P.mate_lt i hi
  cases hself : P.leads i with
  | true => simp [handled, hself, hi, (hlead i hself).1]
  | false =>
    cases hother : P.leads (P.mate i) with
    | true =>
      have hb := (hlead _ hother).2
      rw [P.mate_mate] at hb
      simp [handled, hself, hother, hmate, hb]
    | false => simp [handled, hself, hother, hrest i hself hother]

end Pairing

/-! ### The three kernels -/

section
variable [Add α] [Mul α] {t : Nat}

/-- The entries after a matrix has acted on the qubit `t` where all controls are set. -/
def acted (u : Matrix2 α) (t : Nat) (controls : List Nat) (a : Nat → α) (i : Nat) : α :=
  if ∀ q ∈ controls, i.testBit q = true then
    if i.testBit t then u.m10 * a (withBit i t false) + u.m11 * a i
    else u.m00 * a i + u.m01 * a (withBit i t true)
  else a i

/-- The entries after two qubits have been coupled: `c` is the factor of the old entry and `k` that of the
one with both bits flipped. The term of the index in which bit `q₁` is clear comes first. -/
def coupled (c : α) (k : Nat → α) (q₁ q₂ : Nat) (a : Nat → α) (i : Nat) : α :=
  if i.testBit q₁ then k i * a (flipBit q₂ (flipBit q₁ i)) + c * a i
  else c * a i + k i * a (flipBit q₂ (flipBit q₁ i))

theorem not_leads_flipBit (controls : List Nat) (i : Nat) (h : (!i.testBit t && controls.all i.testBit) = true) :
    (!(flipBit t i).testBit t && controls.all (flipBit t i).testBit) = false := by
  simp_all [testBit_flipBit]

/-- The indices that differ in bit `t`. The one in which it is clear leads if all controls are set. -/
def targetPairing {t : Nat} (ht : t < n) (controls : List Nat) : Pairing n where
  leads i := !i.testBit t && controls.all i.testBit
  mate := flipBit t
  mate_mate := flipBit_flipBit t
  mate_lt _ hi := withBit_lt _ hi ht
  leads_mate := not_leads_flipBit controls

theorem leads_targetPairing (ht : t < n) (controls : List Nat) (i : Nat) :
    (targetPairing ht controls).leads i = true ↔ i.testBit t = false ∧ ∀ q ∈ controls, i.testBit q = true := by
  simp [targetPairing]

theorem apply_vector (u : Matrix2 α) (ht : t < n) (hc : t ∉ controls) (a : Nat → α) :
    apply u (2 ^ t) (controlMask controls) (vector n a) = .ok (vector n (acted u t controls a)) := by
  have hlead := leads_targetPairing ht controls
  -- the controls are the same in both indices of a pair
  have hsame : ∀ i, (∀ q ∈ controls, (flipBit t i).testBit q = true) ↔ ∀ q ∈ controls, i.testBit q = true := by
    refine fun i => forall₂_congr fun q hq => ?_
    have hne : q ≠ t := fun h => hc (h ▸ hq)
    rw [testBit_flipBit, if_neg hne]
  refine Pairing.HandledBy.sweep_vector (P := targetPairing ht controls)
    (f := fun _ a b => u.m00 * a + u.m01 * b) (g := fun _ a b => u.m10 * a + u.m11 * b)
    ⟨fun v i hi => if_pos ?_, fun v i hi => ?_⟩ (fun i hi => ?_) fun i hi hi' => if_neg fun hset => ?_
  · by_contra hboth
    simp only [not_or, not_not, and_two_pow_eq_zero, and_controlMask] at hboth
    simp [(hlead i).2 hboth] at hi
  · obtain ⟨hbit, hset⟩ := (hlead i).1 hi
    rw [if_neg (by simpa [and_two_pow_eq_zero, and_controlMask, hbit] using hset), or_two_pow, withBit_true hbit]
    rfl
  · obtain ⟨hbit, hset⟩ := (hlead i).1 hi
    have hbit' : (flipBit t i).testBit t = true := by simp [testBit_flipBit, hbit]
    constructor
    · rw [acted, if_pos hset, if_neg (by simp [hbit]), withBit_true hbit]
      rfl
    · show acted u t controls a (flipBit t i) = _
      rw [acted, if_pos ((hsame i).2 hset), if_pos hbit', withBit_false hbit', flipBit_flipBit]
      rfl
  · rw [← Bool.not_eq_true, hlead] at hi hi'
    have hclear : (flipBit t i).testBit t = false := by
      rw [testBit_flipBit, if_pos rfl, Bool.not_eq_false']
      exact Bool.eq_true_of_not_eq_false fun hbit => hi ⟨hbit, hset⟩
    exact hi' ⟨hclear, (hsame i).2 hset⟩

theorem flipBit_pair (q₁ q₂ i : Nat) : flipBit q₂ (flipBit q₁ (flipBit q₂ (flipBit q₁ i))) = i := by
  rw [flipBit_comm q₂ q₁ i, flipBit_flipBit, flipBit_flipBit]

theorem not_leads_flipBit_pair (h : q₁ ≠ q₂) (i : Nat) (hi : (!i.testBit q₁) = true) :
    (!(flipBit q₂ (flipBit q₁ i)).testBit q₁) = false := by
  simp_all [testBit_flipBit]

/-- The indices that differ in both bits. The one in which bit `q₁` is clear leads. -/
def bothPairing {q₁ q₂ : Nat} (h₁ : q₁ < n) (h₂ : q₂ < n) (h : q₁ ≠ q₂) : Pairing n where
  leads i := !i.testBit q₁
  mate i := flipBit q₂ (flipBit q₁ i)
  mate_mate := flipBit_pair q₁ q₂
  mate_lt _ hi := withBit_lt _ (withBit_lt _ hi h₁) h₂
  leads_mate := not_leads_flipBit_pair h

theorem couple_vector (c : α) {k k' : Nat → α} (h₁ : q₁ < n) (h₂ : q₂ < n) (h : q₁ ≠ q₂)
    (hk : ∀ i, i.testBit q₁ = false → k' i = k i ∧ k' (flipBit q₂ (flipBit q₁ i)) = k i) (a : Nat → α) :
    couple c k (2 ^ q₁) (2 ^ q₂) (vector n a) = .ok (vector n (coupled c k' q₁ q₂ a)) := by
  have hlead : ∀ i, (bothPairing h₁ h₂ h).leads i = true ↔ i.testBit q₁ = false := by simp [bothPairing]
  refine Pairing.HandledBy.sweep_vector (P := bothPairing h₁ h₂ h)
    (f := fun i a b => c * a + k i * b) (g := fun i a b => k i * a + c * b)
    ⟨fun v i hi => if_pos ?_, fun v i hi => ?_⟩ (fun i hi => ?_) fun i hi hi' => ?_
  · rw [← Bool.not_eq_true, hlead] at hi
    rwa [ne_eq, and_two_pow_eq_zero]
  · rw [if_neg (by rw [not_not, and_two_pow_eq_zero, ← hlead, hi]), xor_two_pow, xor_two_pow]
    rfl
  · have hbit := (hlead i).1 hi
    obtain ⟨hself, hmate⟩ := hk i hbit
    constructor
    · rw [coupled, if_neg (by simp [hbit]), hself]
      rfl
    · show coupled c k' q₁ q₂ a (flipBit q₂ (flipBit q₁ i)) = _
      rw [coupled, if_pos (by simp [testBit_flipBit, h, hbit]), flipBit_pair, hmate]
      rfl
  · -- one of the two leads
    rw [← Bool.not_eq_true, hlead] at hi hi'
    simp [bothPairing, testBit_flipBit, h, hi] at hi'

/-- The factor that a kernel takes from the second bit of a leader says whether the two bits are equal. -/
theorem couple_vector_parity (c k k' : α) (h₁ : q₁ < n) (h₂ : q₂ < n) (h : q₁ ≠ q₂) (a : Nat → α) :
    couple c (fun i => if i &&& 2 ^ q₂ = 0 then k' else k) (2 ^ q₁) (2 ^ q₂) (vector n a) =
      .ok (vector n (coupled c (fun i => if i.testBit q₁ = i.testBit q₂ then k' else k) q₁ q₂ a)) := by
  refine couple_vector c h₁ h₂ h (fun i hi => ?_) a
  simp only [and_two_pow_eq_zero, testBit_flipBit, h, Ne.symm h, hi]
  cases i.testBit q₂ <;> simp

end

theorem not_leads_exchangeBits (i : Nat) (hi : (i.testBit q₁ && !i.testBit q₂) = true) :
    ((exchangeBits q₁ q₂ i).testBit q₁ && !(exchangeBits q₁ q₂ i).testBit q₂) = false := by
  simp_all [testBit_exchangeBits]

/-- The indices that arise from each other when two bits change places. Where the bits differ, the index in
which bit `q₁` is set leads. -/
def swapPairing {q₁ q₂ : Nat} (h₁ : q₁ < n) (h₂ : q₂ < n) : Pairing n where
  leads i := i.testBit q₁ && !i.testBit q₂
  mate := exchangeBits q₁ q₂
  mate_mate := exchangeBits_exchangeBits q₁ q₂
  mate_lt _ hi := withBit_lt _ (withBit_lt _ hi h₁) h₂
  leads_mate := not_leads_exchangeBits

theorem swap_vector (h₁ : q₁ < n) (h₂ : q₂ < n) (a : Nat → α) :
    swap (2 ^ q₁) (2 ^ q₂) (vector n a) = .ok (vector n fun i => a (exchangeBits q₁ q₂ i)) := by
  have hlead : ∀ i, (swapPairing h₁ h₂).leads i = true ↔ i.testBit q₁ = true ∧ i.testBit q₂ = false := by
    simp [swapPairing]
  have hcond : ∀ i, (i &&& 2 ^ q₁ ≠ 0 ∧ i &&& 2 ^ q₂ = 0) ↔ (swapPairing h₁ h₂).leads i = true := by
    intro i
    rw [hlead, ne_eq, and_two_pow_eq_zero, and_two_pow_eq_zero, Bool.not_eq_false]
  refine Pairing.HandledBy.sweep_vector (P := swapPairing h₁ h₂) (f := fun _ _ b => b) (g := fun _ a _ => a)
    ⟨fun v i hi => if_neg ?_, fun v i hi => ?_⟩ (fun i hi => ⟨rfl, ?_⟩) fun i hi hi' => congrArg a ?_
  · rw [hcond, hi]
    exact Bool.false_ne_true
  · obtain ⟨hset, hclear⟩ := (hlead i).1 hi
    rw [if_pos ((hcond i).2 hi), clear_or_two_pow hset hclear]
    rfl
  · exact congrArg a (exchangeBits_exchangeBits q₁ q₂ i)
  · -- neither leads, so the two bits are equal
    refine exchangeBits_of_eq ?_
    rw [← Bool.not_eq_true, hlead] at hi hi'
    simp only [swapPairing, testBit_exchangeBits] at hi'
    grind

end Kernel

/-! ### States -/

theorem qubitBit_eq_two_pow {q : Nat} (hq : q < 64) : qubitBit q = .ok (2 ^ q) := by
  unfold qubitBit
  rw [if_neg (by omega), if_pos (by omega), Int.toNat_natCast, Nat.one_shiftLeft]

theorem qubitMask_eq_controlMask (hc : ∀ q ∈ controls, q < 64) :
    qubitMask (controls.map Int.ofNat) = .ok (Kernel.controlMask controls) := by
  have hbits : (controls.map Int.ofNat).mapM qubitBit = .ok (controls.map (2 ^ ·)) := by
    induction controls with
    | nil => rfl
    | cons q qs ih =>
      obtain ⟨hq, hqs⟩ := List.forall_mem_cons.1 hc
      have hbit : qubitBit (Int.ofNat q) = .ok (2 ^ q) := qubitBit_eq_two_pow hq
      rw [List.map_cons, List.mapM_cons, hbit, ih hqs]
      rfl
  rw [qubitMask, hbits]
  rfl

namespace StateVector

open Kernel (vector acted coupled exchangeBits controlMask flipBit)

theorem lift_of_eq {s : StateVector} {f : Array Amplitude → Except Fault (Array Amplitude)}
    {w : Array Amplitude} (h : f s.amplitudes = .ok w) : s.lift f = .ok { s with amplitudes := w } := by
  rw [lift, h]
  rfl

/-- The kernels, which overwrite the vector that they read, give at each index what the old entries say:
the product with the matrix where all controls are set, the entry of the index with both bits exchanged, and
the sum of the entry itself and of the one with both bits flipped. In the coupling of two Y operators the
factor has the opposite sign where the two bits are equal. Sums and products are not assumed to have any law.
Indices are words of 64 bits, which is the limit for states. -/
theorem inPlace_eq_outOfPlace {n t q₁ q₂ : Nat} {controls : List Nat} (ht : t < n)
    (hcontrols : ∀ q ∈ controls, q < n) (hfree : t ∉ controls) (h₁ : q₁ < n) (h₂ : q₂ < n) :
    (∀ (α : Type) [Add α] [Mul α] (v : Array α), v.size = 2 ^ n → ∃ a : Nat → α, v = vector n a ∧
      (∀ u, Kernel.apply u (2 ^ t) (controlMask controls) v = .ok (vector n (acted u t controls a))) ∧
      Kernel.swap (2 ^ q₁) (2 ^ q₂) v = .ok (vector n fun i => a (exchangeBits q₁ q₂ i)) ∧
      (q₁ ≠ q₂ → ∀ c k k',
        Kernel.couple c (fun _ => k) (2 ^ q₁) (2 ^ q₂) v =
          .ok (vector n (coupled c (fun _ => k) q₁ q₂ a)) ∧
        Kernel.couple c (fun i => if i &&& 2 ^ q₂ = 0 then k' else k) (2 ^ q₁) (2 ^ q₂) v =
          .ok (vector n (coupled c (fun i => if i.testBit q₁ = i.testBit q₂ then k' else k) q₁ q₂ a)))) ∧
    (∀ s : StateVector, n ≤ 64 → s.Sized n → ∃ a : Nat → Amplitude, s.amplitudes = vector n a ∧
      (∀ u, s.applyMatrix u t (controls.map Int.ofNat) =
        .ok { s with amplitudes := vector n (acted u t controls a) }) ∧
      s.applySwap q₁ q₂ = .ok { s with amplitudes := vector n fun i => a (exchangeBits q₁ q₂ i) } ∧
      (q₁ ≠ q₂ → ∀ theta : Float,
        let c := Amplitude.ofReal (theta / 2).cos
        let sn := Amplitude.ofReal (theta / 2).sin
        s.applyCoupling .xx q₁ q₂ theta =
          .ok { s with amplitudes := vector n (coupled c (fun _ => -Amplitude.i * sn) q₁ q₂ a) } ∧
        s.applyCoupling .yy q₁ q₂ theta =
          .ok { s with amplitudes := vector n (coupled c (fun i =>
            if i.testBit q₁ = i.testBit q₂ then Amplitude.i * sn else -Amplitude.i * sn) q₁ q₂ a) })) := by
  refine ⟨fun α _ _ v hv => ?_, fun s hn hs => ?_⟩
  · obtain ⟨a, rfl⟩ := Kernel.exists_vector hv
    exact ⟨a, rfl, fun u => Kernel.apply_vector u ht hfree a, Kernel.swap_vector h₁ h₂ a, fun hne c k k' =>
      ⟨Kernel.couple_vector c h₁ h₂ hne (fun _ _ => ⟨rfl, rfl⟩) a,
        Kernel.couple_vector_parity c k k' h₁ h₂ hne a⟩⟩
  · obtain ⟨a, ha⟩ := Kernel.exists_vector hs.size
    have hbit : ∀ q < n, qubitBit q = .ok (2 ^ q) := fun q hq => qubitBit_eq_two_pow (by omega)
    have hmask := qubitMask_eq_controlMask fun q hq => Nat.lt_of_lt_of_le (hcontrols q hq) hn
    refine ⟨a, ha, fun u => ?_, ?_, fun hne theta => ⟨?_, ?_⟩⟩
    · rw [applyMatrix, hbit t ht, hmask]
      exact lift_of_eq (ha ▸ Kernel.apply_vector u ht hfree a)
    · rw [applySwap, hbit q₁ h₁, hbit q₂ h₂]
      exact lift_of_eq (ha ▸ Kernel.swap_vector h₁ h₂ a)
    · rw [applyCoupling, hbit q₁ h₁, hbit q₂ h₂]
      exact lift_of_eq (ha ▸ Kernel.couple_vector _ h₁ h₂ hne (fun _ _ => ⟨rfl, rfl⟩) a)
    · rw [applyCoupling, hbit q₁ h₁, hbit q₂ h₂]
      exact lift_of_eq (ha ▸ Kernel.couple_vector_parity _ _ _ h₁ h₂ hne a)

theorem inPlace_eq_outOfPlace_controlled :
    (0 < 2 ∧ (∀ q ∈ [1], q < 2) ∧ 0 ∉ [1] ∧ 1 < 2) ∧
    ∃ a : Nat → Int, #[10, 11, 12, 13] = vector 2 a ∧
      Kernel.apply ⟨2, 3, 5, 7⟩ (2 ^ 0) (controlMask [1]) #[10, 11, 12, 13] =
        .ok (vector 2 (acted ⟨2, 3, 5, 7⟩ 0 [1] a)) ∧
      Kernel.swap (2 ^ 0) (2 ^ 1) #[10, 11, 12, 13] = .ok (vector 2 fun i => a (exchangeBits 0 1 i)) := by
  refine ⟨by decide, ?_⟩
  obtain ⟨a, ha, happly, hswap, -⟩ := (@inPlace_eq_outOfPlace 2 0 0 1 [1] (by decide) (by decide) (by decide)
    (by decide) (by decide)).1 Int #[10, 11, 12, 13] rfl
  exact ⟨a, ha, happly _, hswap⟩

example : Kernel.apply (⟨2, 3, 5, 7⟩ : Matrix2 Int) (2 ^ 0) (controlMask [1]) #[10, 11, 12, 13] =
    .ok #[10, 11, 63, 151] := by decide +kernel

end StateVector
end QasmStudio
