import QasmStudio.Proofs.Lang.TypeTexts
import QasmStudio.Value

/-!
# Zero values

The zero value of an array type is a literal that is nested as the dimensions say, with the type of each level on
its way (`Ty.Nests`). There is one unless more elements are asked for than can be allocated (`Ty.Fits`). The
induction is on the type, through the types of elements that are arrays again, and inside of it on the dimensions.
-/

namespace QasmStudio.Ty

def scalars : List Kind := [.bit, .bool, .int, .float, .angle, .duration]

/-- A scalar, or an array of such types with one or more dimensions. -/
inductive Storable : Ty → Prop
  | scalar {t : Ty} (h : t.kind ∈ scalars) : Storable t
  | array {elem : Ty} {dims : List Int} (h : elem.Storable) (hne : dims ≠ []) (hdims : ∀ d ∈ dims, 0 ≤ d) :
      Storable (.array (some elem) dims)

/-- The bits and the elements of every literal can be allocated. -/
def Fits : Ty → Prop
  | ⟨kind, size, elem, dims⟩ =>
    match kind with
    | .bit => size ≤ 8 * Fault.longest
    | .array => (∀ d ∈ dims, d * 2 ≤ Fault.longest) ∧
      match elem with
      | none => True
      | some t => t.Fits
    | _ => True

/-- Literals of the lengths `dims`, one inside the other, each with the type of its level, around the zero value
of `elem`. -/
def Nests (elem : Ty) : List Int → Expr → Prop
  | [], e => elem.zero = .ok (.value e)
  | n :: dims, e => ∃ es, e = .array es (some (.array (some elem) (n :: dims))) ∧ (es.length : Int) = n ∧
      ∀ x ∈ es, elem.Nests dims x

/-- The type has a zero value with the property, or it is too long. -/
def HasZero (t : Ty) (P : Expr → Prop) : Prop :=
  (∃ e, t.zero = .ok (.value e) ∧ P e) ∨ t.zero = .error .lengthOverflow ∧ ¬ t.Fits

variable {elem : Ty} {dims : List Int}

theorem length_of_nonneg {d : Int} (hd : 0 ≤ d) : Fault.length d 16 = .ok d.toNat ∧ d * 2 ≤ Fault.longest ∨
    Fault.length d 16 = .error .lengthOverflow ∧ ¬ d * 2 ≤ Fault.longest := by
  unfold Fault.length
  rw [if_neg (by omega)]
  by_cases h : d * 2 ≤ Fault.longest
  · rw [if_neg (by omega)]
    exact .inl ⟨rfl, h⟩
  · rw [if_pos (by omega)]
    exact .inr ⟨rfl, h⟩

theorem nests_zeroArray (hzero : elem.HasZero fun _ => True) (hdims : ∀ d ∈ dims, 0 ≤ d) :
    (∃ e, zeroArray (some elem) elem.zero dims = .ok (.value e) ∧ elem.Nests dims e) ∨
      zeroArray (some elem) elem.zero dims = .error .lengthOverflow ∧
        ¬ ((∀ d ∈ dims, d * 2 ≤ Fault.longest) ∧ elem.Fits) := by
  induction dims with
  | nil =>
    rcases hzero with ⟨e, he, -⟩ | ⟨he, hfits⟩
    · exact .inl ⟨e, he, he⟩
    · exact .inr ⟨he, fun h => hfits h.2⟩
  | cons d dims ih =>
    obtain ⟨hd, hrest⟩ := List.forall_mem_cons.1 hdims
    obtain ⟨n, rfl⟩ := Int.eq_ofNat_of_zero_le hd
    rcases length_of_nonneg hd with ⟨hlength, -⟩ | ⟨hlength, hlong⟩
    · cases n with
      | zero =>
        refine .inl ⟨_, by simp only [zeroArray, hlength]; rfl, [], rfl, rfl, by simp⟩
      | succ n =>
        rcases ih hrest with ⟨e, he, hnests⟩ | ⟨he, hfits⟩
        · refine .inl ⟨_, by simp only [zeroArray, hlength, he]; rfl, List.replicate (n + 1) e, rfl, by simp, ?_⟩
          intro x hx
          rwa [List.eq_of_mem_replicate hx]
        · refine .inr ⟨by simp only [zeroArray, hlength, he]; rfl, fun h => hfits ⟨?_, h.2⟩⟩
          exact fun d hd => h.1 d (List.mem_cons_of_mem _ hd)
    · exact .inr ⟨by simp only [zeroArray, hlength]; rfl, fun h => hlong (h.1 _ List.mem_cons_self)⟩

theorem Storable.equal_self {t : Ty} (h : t.Storable) : t.equal t = true := by
  induction h with
  | scalar h =>
    refine equal_iff.2 ⟨rfl, rfl, rfl, fun harray => ?_⟩
    rw [harray] at h
    simp [scalars] at h
  | array _ _ _ ih => exact equal_iff.2 ⟨rfl, rfl, rfl, fun _ => ih⟩

theorem hasZero_scalar {t : Ty} (h : t.kind ∈ scalars) : t.HasZero fun e => assignable t e.ty = .ok true := by
  obtain ⟨kind, size, elem, dims⟩ := t
  simp only [scalars, List.mem_cons, List.not_mem_nil, or_false] at h
  rcases h with rfl | rfl | rfl | rfl | rfl | rfl
  · by_cases hsize : 0 < size
    · by_cases hlong : size ≤ 8 * Fault.longest
      · have hlength : Fault.length size 1 = .ok size.toNat := by
          rw [Fault.length, if_neg (by omega), if_neg (by omega)]
        exact .inl ⟨_, by simp only [zero, if_pos hsize, hlength]; rfl, rfl⟩
      · have hlength : Fault.length size 1 = .error .lengthOverflow := by
          rw [Fault.length, if_neg (by omega), if_pos (by omega)]
        exact .inr ⟨by simp only [zero, if_pos hsize, hlength]; rfl, hlong⟩
    · exact .inl ⟨_, by simp only [zero, if_neg hsize]; rfl, rfl⟩
  all_goals exact .inl ⟨_, rfl, rfl⟩

/-- Every type that can be stored has a zero value that can be assigned to its variables, if it is not too long.
The zero value of an array is nested like its type, and has that type. -/
theorem zero_value {t : Ty} (ht : t.Storable) : t.HasZero fun e => assignable t e.ty = .ok true ∧
    ∀ elem dims, t = .array (some elem) dims → elem.Nests dims e ∧ tyEqual e.ty (some t) = true := by
  induction ht with
  | @scalar t h =>
    refine (hasZero_scalar h).imp_left fun hzero => ?_
    obtain ⟨e, he, hassign⟩ := hzero
    refine ⟨e, he, hassign, fun elem dims heq => ?_⟩
    rw [heq] at h
    simp [scalars, array] at h
  | @array elem dims h hne hdims ih =>
    have hself := (Storable.array h hne hdims).equal_self
    have hzero : elem.HasZero fun _ => True := ih.imp_left fun h => h.imp fun e he => ⟨he.1, trivial⟩
    refine (nests_zeroArray hzero hdims).imp_left fun hzero => ?_
    obtain ⟨e, he, hnests⟩ := hzero
    obtain ⟨d, dims, rfl⟩ := List.exists_cons_of_ne_nil hne
    obtain ⟨es, rfl, hlength, hinner⟩ := hnests
    refine ⟨_, he, by simp [assignable, Expr.ty, array], fun elem' dims' heq => ?_⟩
    cases heq
    exact ⟨⟨es, rfl, hlength, hinner⟩, hself⟩

/-- Pairs of single entries, which are pairs of registers of three bits each. -/
def sampleArray : Ty := .array (some (.array (some (.bit 3)) [2])) [2, 1]

def sampleZero : Expr :=
  let pair : Expr := .array [.bits "000", .bits "000"] (some (.array (some (.bit 3)) [2]))
  let entry : Expr := .array [pair] (some (.array (some (.array (some (.bit 3)) [2])) [1]))
  .array [entry, entry] (some sampleArray)

theorem zero_value_sample : sampleArray.Storable ∧ sampleArray.zero = .ok (.value sampleZero) ∧
    assignable sampleArray sampleZero.ty = .ok true := by
  have hstorable : sampleArray.Storable :=
    .array (.array (.scalar (by decide)) (by decide) (by decide)) (by decide) (by decide)
  rcases zero_value hstorable with ⟨e, he, hassign, -⟩ | ⟨he, -⟩
  · cases he
    exact ⟨hstorable, rfl, hassign⟩
  · cases he

/-- The zero value of an array of more elements than can be allocated. -/
theorem zero_of_vast : (Ty.array (some .int) [1152921504606846976]).Storable ∧
    (Ty.array (some .int) [1152921504606846976]).zero = .error .lengthOverflow :=
  ⟨.array (.scalar (by decide)) (by decide) (by decide), rfl⟩

end QasmStudio.Ty
