import QasmStudio.Cbor.Record
import QasmStudio.Proofs.Cbor.ReadBack
import QasmStudio.Proofs.Number.Word

/-!
# The laws of a CBOR codec

What is asked of a codec, apart from each other. `Codec.Canonical`: a record is written as a map from the
numbers of the fields that are not left out to their values, of definite lengths and with the shortest heads.
`Codec.Decodes`: a map whose entries are fields of a record, written with heads of whatever form, sets these
fields and no others. Neither speaks of the other direction.

`Cbor.codec` has both (`canonical_codec`, `decodes_codec`). For the second, the entries of such a map are read
as the items of their values, and each sets its own field (`setFields_map`).
-/

namespace QasmStudio

open List

namespace Record

/-- Texts have a length that can be written, numbers are words, and lists can be read. -/
def Value.Fits : Value → Prop
  | text s => (Cbor.utf8 s).length < 2 ^ 64
  | int n => Word.InRange n
  | bool _ => True
  | texts ss => ss.length ≤ Cbor.maxEntries ∧ ∀ s ∈ ss, (Cbor.utf8 s).length < 2 ^ 64

/-- Fields are numbered in their order, and the values fit. -/
structure Fits (r : Record) : Prop where
  ascending : (r.map Field.key).Pairwise (· < ·)
  keys : ∀ f ∈ r, Word.InRange f.key
  values : ∀ f ∈ r, f.value.Fits
  length : r.length ≤ Cbor.maxEntries

/-- The entries are values for fields of the record, at most one for each. -/
structure Accepts (r : Record) (es : List (Nat × Value)) : Prop where
  once : (es.map Prod.fst).Nodup
  known : ∀ e ∈ es, Word.InRange e.1 ∧ e.2.Fits ∧ e.1 ∈ r.map Field.key
  kinds : ∀ e ∈ es, ∀ f ∈ r, f.key = e.1 → f.value.blank = e.2.blank
  length : es.length ≤ Cbor.maxEntries

def Field.fill (es : List (Nat × Value)) (f : Field) : Field := { f with value := (es.lookup f.key).getD f.value }

/-- The record with the values of the entries, and its own where there is none. -/
def fill (es : List (Nat × Value)) (r : Record) : Record := r.map (Field.fill es)

end Record

namespace Cbor
variable {levels : Nat} {bs : Bytes}

open Record (Value)

/-! ### What bytes spell -/

/-- Values one after another, behind a head with their number. -/
def SpellsSequence {α : Type} (m : Major) (spells : Bytes → α → Prop) (bs : Bytes) (xs : List α) : Prop :=
  ∃ head pieces, IsHead m xs.length head ∧ Forall₂ spells pieces xs ∧ bs = head ++ pieces.flatten

def SpellsText (bs : Bytes) (s : String) : Prop := ∃ head, IsHead .text (utf8 s).length head ∧ bs = head ++ utf8 s

def SpellsValue (bs : Bytes) : Value → Prop
  | .text s => SpellsText bs s
  | .int (.ofNat n) => IsHead .unsigned n bs
  | .int (.negSucc n) => IsHead .negative n bs
  | .bool b => bs = [initialByte .simple (if b then 21 else 20)]
  | .texts ss => SpellsSequence .array SpellsText bs ss

def SpellsEntry (bs : Bytes) (e : Nat × Value) : Prop :=
  ∃ key value, IsHead .unsigned e.1 key ∧ SpellsValue value e.2 ∧ bs = key ++ value

def SpellsMap : Bytes → List (Nat × Value) → Prop := SpellsSequence .map SpellsEntry

theorem spellsSequence_write {α : Type} {m : Major} {S : Bytes → α → Prop} {write : α → Bytes} {xs : List α}
    (hlen : xs.length ≤ maxEntries) (h : ∀ x ∈ xs, S (write x) x) :
    SpellsSequence m S (writeSequence m write xs) xs := by
  have hlt : xs.length < 2 ^ 64 := by
    unfold maxEntries at hlen
    omega
  refine ⟨_, xs.map write, isHead_writeHead m hlt, ?_, by rw [writeSequence, flatMap_def]⟩
  rwa [forall₂_map_left_iff, forall₂_same]

theorem spellsText_write {s : String} (h : (utf8 s).length < 2 ^ 64) : SpellsText (writeText s) s :=
  ⟨_, isHead_writeHead .text h, rfl⟩

theorem spellsValue_write {v : Value} (h : v.Fits) : SpellsValue (writeValue v) v := by
  match v with
  | .text s => exact spellsText_write h
  | .int (.ofNat n) =>
    refine isHead_writeHead .unsigned ?_
    simp only [Value.Fits, Word.InRange, Word.largest, Int.ofNat_eq_natCast] at h
    omega
  | .int (.negSucc n) =>
    refine isHead_writeHead .negative ?_
    simp only [Value.Fits, Word.InRange, Word.smallest] at h
    omega
  | .bool b => rfl
  | .texts ss => exact spellsSequence_write h.1 fun s hs => spellsText_write (h.2 s hs)

theorem spellsMap_writeRecord {r : Record} (h : r.Fits) : SpellsMap (writeRecord r) r.entries := by
  have hlen : r.entries.length ≤ maxEntries := by
    rw [Record.entries, length_map]
    exact Nat.le_trans (length_filter_le _ _) h.length
  refine spellsSequence_write hlen fun e he => ?_
  obtain ⟨f, hf, rfl⟩ := mem_map.1 he
  have hmem := mem_of_mem_filter hf
  have hkey : f.key < 2 ^ 64 := by
    have hword := h.keys f hmem
    simp only [Word.InRange, Word.largest] at hword
    omega
  exact ⟨_, _, isHead_writeHead .unsigned hkey, spellsValue_write (h.values f hmem), rfl⟩

end Cbor

/-! ### The laws -/

namespace Codec
variable (c : Codec)

structure Canonical : Prop where
  marshal : ∀ r : Record, r.Fits → c.marshal r = Cbor.writeRecord r
  marshalAll : ∀ rs : List Record, (∀ r ∈ rs, r.Fits) → rs.length ≤ Cbor.maxEntries →
    c.marshalAll rs = Cbor.writeSequence .array Cbor.writeRecord rs

structure Decodes : Prop where
  unmarshal : ∀ r es bs, r.Accepts es → Cbor.SpellsMap bs es → c.unmarshal? r bs = some (r.fill es)
  unmarshalAll : ∀ r ess bs, (∀ es ∈ ess, r.Accepts es) → ess.length ≤ Cbor.maxEntries →
    Cbor.SpellsSequence .array Cbor.SpellsMap bs ess → c.unmarshalAll? r bs = some (ess.map fun es => some (r.fill es))

end Codec

/-! ### The codec of the program -/

namespace Cbor
variable {levels : Nat} {bs : Bytes} {r : Record} {es : List (Nat × Record.Value)}

open Record (Value Field)

theorem canonical_codec : codec.Canonical := ⟨fun _ _ => rfl, fun _ _ _ => rfl⟩

def itemOf : Value → Item
  | .text s => .text [utf8 s]
  | .int (.ofNat n) => .unsigned n
  | .int (.negSucc n) => .negative n
  | .bool b => .bool b
  | .texts ss => .array (ss.map fun s => .text [utf8 s])

def entryItem (e : Nat × Value) : Item × Item := (.unsigned e.1, itemOf e.2)

theorem SpellsText.readAs {s : String} (h : SpellsText bs s) : ReadAs levels bs (.text [utf8 s]) := by
  obtain ⟨head, hhead, rfl⟩ := h
  exact .text hhead

theorem SpellsValue.readAs {v : Value} (h : SpellsValue bs v) (hfits : v.Fits) : ReadAs (levels + 1) bs (itemOf v) := by
  match v with
  | .text s => exact SpellsText.readAs h
  | .int (.ofNat n) => exact .unsigned h
  | .int (.negSucc n) => exact .negative h
  | .bool b =>
    obtain rfl := h
    exact .bool b
  | .texts ss =>
    obtain ⟨head, pieces, hhead, hpieces, rfl⟩ := h
    refine .array (by rwa [length_map]) ?_ (by rw [length_map]; exact hfits.1)
    rw [forall₂_map_right_iff]
    exact hpieces.imp fun _ _ htext => htext.readAs

theorem SpellsMap.readAs (h : SpellsMap bs es) (hacc : r.Accepts es) :
    ReadAs (levels + 2) bs (.map (es.map entryItem)) := by
  obtain ⟨head, pieces, hhead, hpieces, rfl⟩ := h
  refine .map (by rwa [length_map]) ?_ (by rw [length_map]; exact hacc.length)
  have hfits := (forall₂_and_left _ _).2
    ⟨fun e he => (hacc.known e he).2.1, Forall₂.flip (R := fun e bs => SpellsEntry bs e) hpieces⟩
  rw [forall₂_map_right_iff]
  refine hfits.flip.imp ?_
  rintro piece e ⟨hfits, key, value, hkey, hvalue, rfl⟩
  exact ⟨key, value, rfl, .unsigned hkey, hvalue.readAs hfits⟩

theorem readText?_utf8 (s : String) : readText? (.text [utf8 s]) = some s := by
  have hpart : String.fromUTF8? ⟨(utf8 s).toArray⟩ = some s := by
    unfold utf8
    rw [Array.toArray_toList]
    show String.fromUTF8? s.toByteArray = some s
    rw [String.fromUTF8?, dif_pos s.isValidUTF8]
    rfl
  simp [readText?, untag?, textOf?, hpart]

theorem mapM_eq_some_map {α β : Type} {f : α → Option β} {g : α → β} {as : List α} (hf : ∀ a ∈ as, f a = some (g a)) :
    as.mapM f = some (as.map g) := by
  induction as with
  | nil => rfl
  | cons a as ih =>
    have hrest := ih fun b hb => hf b (mem_cons_of_mem _ hb)
    simp [hf a (mem_cons_self ..), hrest]

theorem readLike?_itemOf {v w : Value} (hkind : v.blank = w.blank) (h : w.Fits) : readLike? (itemOf w) v = some w := by
  match v, w, hkind with
  | .text _, .text s, _ => simp [readLike?, itemOf, readText?_utf8]
  | .int _, .int (.ofNat n), _ =>
    have hword : Word.InRange (n : Int) := h
    simp [readLike?, itemOf, readInt?, untag?, hword]
  | .int _, .int (.negSucc n), _ =>
    have hneg : -1 - (n : Int) = Int.negSucc n := by omega
    have hword : Word.InRange (Int.negSucc n) := h
    simp [readLike?, itemOf, readInt?, untag?, hneg, hword]
  | .bool _, .bool b, _ => simp [readLike?, itemOf, readBool?, untag?]
  | .texts _, .texts ss, _ =>
    have hall : (ss.map fun s => Item.text [utf8 s]).mapM readText? = some ss := by
      rw [mapM_map]
      exact (mapM_eq_some_map fun s _ => readText?_utf8 s).trans (congrArg some (map_id ss))
    simp [readLike?, itemOf, readTexts?, untag?, hall]

theorem fill_singleton (f : Field) (k : Nat) (v : Value) :
    f.fill [(k, v)] = if f.key = k then { f with value := v } else f := by
  by_cases hk : f.key = k
  · simp [Field.fill, hk]
  · simp [Field.fill, lookup_cons, beq_false_of_ne hk, hk]

theorem setField_itemOf {k : Nat} {v : Value} (hkind : ∀ f ∈ r, f.key = k → f.value.blank = v.blank) (h : v.Fits) :
    setField r k (itemOf v) = some (r.fill [(k, v)]) := by
  refine mapM_eq_some_map fun f hf => ?_
  rw [fill_singleton]
  by_cases hk : f.key = k
  · simp [hk, readLike?_itemOf (hkind f hf hk) h]
  · rw [if_neg hk, if_neg (mt Int.ofNat_inj.1 hk)]

theorem fill_cons {k : Nat} {v : Value} (h : k ∉ es.map Prod.fst) :
    (r.fill [(k, v)]).fill es = r.fill ((k, v) :: es) := by
  simp only [Record.fill, map_map]
  refine map_congr_left fun f _ => ?_
  rw [Function.comp_apply, fill_singleton]
  by_cases hk : f.key = k
  · have hnone : es.lookup k = none := by
      rw [lookup_eq_none_iff]
      intro e he
      rw [bne_iff_ne]
      rintro rfl
      exact h (mem_map_of_mem he)
    simp [Field.fill, hk, hnone]
  · simp [Field.fill, lookup_cons, beq_false_of_ne hk, hk]

/-- Each entry sets the field of its number, since no entry before it had the same. -/
theorem setFields_map (seen : List Int) (h : r.Accepts es) (hseen : ∀ e ∈ es, (e.1 : Int) ∉ seen) :
    setFields r seen (es.map entryItem) = some (r.fill es) := by
  induction es generalizing r seen with
  | nil =>
    show some r = some (r.map (Field.fill []))
    rw [show Field.fill [] = id from rfl, map_id]
  | cons e es ih =>
    obtain ⟨k, v⟩ := e
    obtain ⟨hword, hfits, -⟩ := h.known _ (mem_cons_self ..)
    obtain ⟨hnew, honce⟩ := nodup_cons.1 h.once
    have hkey : key? r (.unsigned k) = some (k : Int) := by rw [key?, Word.wrap_of_inRange hword]
    have hcontains : seen.contains (k : Int) = false := by
      simpa using hseen _ (mem_cons_self ..)
    have hset := setField_itemOf (h.kinds _ (mem_cons_self ..)) hfits
    have hkeys : (r.fill [(k, v)]).map Field.key = r.map Field.key := map_map
    have hother : ∀ e ∈ es, e.1 ≠ k := by
      rintro e he rfl
      exact hnew (mem_map.2 ⟨e, he, rfl⟩)
    have hrest : (r.fill [(k, v)]).Accepts es := by
      refine ⟨honce, fun e he => hkeys ▸ h.known e (mem_cons_of_mem _ he), fun e he f hf hfe => ?_,
        Nat.le_trans (Nat.le_succ _) h.length⟩
      obtain ⟨g, hg, rfl⟩ := mem_map.1 hf
      have hne : g.key ≠ k := fun heq => hother e he (hfe.symm.trans heq)
      rw [fill_singleton, if_neg hne]
      exact h.kinds e (mem_cons_of_mem _ he) g hg hfe
    have hfilled := ih (k :: seen) hrest fun e he hmem => by
      rcases mem_cons.1 hmem with heq | hmem
      · exact hother e he (Int.ofNat_inj.1 heq)
      · exact hseen e (mem_cons_of_mem _ he) hmem
    rw [fill_cons hnew] at hfilled
    simp only [map_cons, entryItem, setFields, hkey, Option.bind_eq_bind, Option.bind_some, hcontains, hset,
      Bool.false_eq_true, if_false, hfilled]

theorem readRecord?_map (h : r.Accepts es) : readRecord? r (.map (es.map entryItem)) = some (r.fill es) := by
  simp [readRecord?, untag?, setFields_map [] h (by simp)]

theorem decodes_codec : codec.Decodes where
  unmarshal r es bs hacc hbs := by
    simp [codec, (hbs.readAs hacc).read?, readRecord?_map hacc]
  unmarshalAll r ess bs hacc hmax hbs := by
    obtain ⟨head, pieces, hhead, hpieces, rfl⟩ := hbs
    have harray : ReadAs maxLevels (head ++ pieces.flatten) (.array (ess.map fun es => .map (es.map entryItem))) := by
      refine .array (by rwa [length_map]) ?_ (by rwa [length_map])
      have hall := (forall₂_and_left _ _).2 ⟨hacc, Forall₂.flip (R := fun es bs => SpellsMap bs es) hpieces⟩
      rw [forall₂_map_right_iff]
      exact hall.flip.imp fun _ es hes => SpellsMap.readAs hes.2 hes.1
    have hread : readRecords? r (.array (ess.map fun es => .map (es.map entryItem))) =
        some (ess.map fun es => some (r.fill es)) := by
      simp only [readRecords?, untag?, Option.bind_eq_bind, Option.bind_some, mapM_map]
      refine mapM_eq_some_map fun es hes => ?_
      simp [readRecord?_map (hacc es hes)]
    simp [codec, harray.read?, hread]

end Cbor

end QasmStudio
