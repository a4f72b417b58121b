import Mathlib.Data.List.Nodup
import QasmStudio.Artifact
import QasmStudio.Proofs.Cbor.Codec

/-!
# Artifacts and their bytes

For any codec that writes records canonically and reads what is written so, a record comes back from its
bytes: the fields that are written are set again, and those that were left out are blank from the start. So an
artifact comes back from its bytes, and so does a list of them.

A length is written in at most eight bytes, and a list is read up to `maxEntries` entries: these are the bounds
in `Artifact.Fits`.
-/

namespace QasmStudio

open List

/-! ### Records -/

namespace Record
variable {r : Record}

def blank (r : Record) : Record := r.map fun f => { f with value := f.value.blank }

theorem Value.blank_blank (v : Value) : v.blank.blank = v.blank := by cases v <;> rfl

theorem mem_entries {e : Nat × Value} (h : e ∈ r.entries) : ∃ f ∈ r, (f.key, f.value) = e := by
  obtain ⟨f, hf, rfl⟩ := mem_map.1 h
  exact ⟨f, mem_of_mem_filter hf, rfl⟩

theorem keys_entries_sublist (r : Record) : (r.entries.map Prod.fst).Sublist (r.map Field.key) := by
  rw [entries, map_map]
  exact filter_sublist.map Field.key

theorem Fits.keys_nodup (h : r.Fits) : (r.map Field.key).Nodup := h.ascending.imp Nat.ne_of_lt

theorem Fits.accepts (h : r.Fits) : r.blank.Accepts r.entries where
  once := h.keys_nodup.sublist r.keys_entries_sublist
  known e he := by
    obtain ⟨f, hf, rfl⟩ := mem_entries he
    refine ⟨h.keys f hf, h.values f hf, ?_⟩
    rw [blank, map_map]
    exact mem_map_of_mem (f := Field.key) hf
  kinds e he b hb hkey := by
    obtain ⟨f, hf, rfl⟩ := mem_entries he
    obtain ⟨g, hg, rfl⟩ := mem_map.1 hb
    obtain rfl := inj_on_of_nodup_map h.keys_nodup hg hf hkey
    exact g.value.blank_blank
  length := by
    have hle := r.keys_entries_sublist.length_le
    rw [length_map, length_map] at hle
    exact Nat.le_trans hle h.length

/-- A field has the value of its entry, or else it was left out, which is for the blank value only. -/
theorem lookup_entries {f : Field} (hkeys : (r.map Field.key).Nodup) (hf : f ∈ r) :
    (r.entries.lookup f.key).getD f.value.blank = f.value := by
  induction r with
  | nil => cases hf
  | cons g r ih =>
    obtain ⟨hnew, hkeys⟩ := nodup_cons.1 hkeys
    rcases mem_cons.1 hf with rfl | hf
    · cases homit : f.isOmitted with
      | false => simp [entries, homit]
      | true =>
        have hnone : lookup f.key (entries r) = none := by
          rw [lookup_eq_none_iff]
          intro e he
          obtain ⟨g, hg, rfl⟩ := mem_entries he
          rw [bne_iff_ne]
          exact fun heq => hnew (heq ▸ mem_map_of_mem hg)
        have hblank : f.value = f.value.blank := by
          simp only [Field.isOmitted, Bool.and_eq_true, decide_eq_true_eq] at homit
          exact homit.2
        have hskip : entries (f :: r) = entries r := by simp [entries, homit]
        rw [hskip, hnone, Option.getD_none, ← hblank]
    · have hne : f.key ≠ g.key := fun heq => hnew (heq ▸ mem_map_of_mem hf)
      have hskip : lookup f.key (entries (g :: r)) = lookup f.key (entries r) := by
        cases homit : g.isOmitted with
        | false => simp [entries, homit, lookup_cons, beq_false_of_ne hne]
        | true => simp [entries, homit]
      rw [hskip]
      exact ih hkeys hf

theorem fill_blank_entries (hkeys : (r.map Field.key).Nodup) : r.blank.fill r.entries = r := by
  rw [fill, blank, map_map]
  refine (map_congr_left fun f hf => ?_).trans (map_id r)
  simp only [Function.comp_apply, Field.fill, lookup_entries hkeys hf, id]

end Record

section Codec
variable {c : Codec} (hcanonical : c.Canonical) (hdecodes : c.Decodes)

include hcanonical hdecodes

theorem Codec.unmarshal?_marshal {r : Record} (h : r.Fits) : c.unmarshal? r.blank (c.marshal r) = some r := by
  have hbytes : Cbor.SpellsMap (c.marshal r) r.entries := hcanonical.marshal r h ▸ Cbor.spellsMap_writeRecord h
  rw [hdecodes.unmarshal _ _ _ h.accepts hbytes, Record.fill_blank_entries h.keys_nodup]

/-- Records of one kind come back from their bytes together. -/
theorem Codec.unmarshalAll?_marshalAll {rs : List Record} {blank : Record} (h : ∀ r ∈ rs, r.Fits)
    (hblank : ∀ r ∈ rs, r.blank = blank) (hmax : rs.length ≤ Cbor.maxEntries) :
    c.unmarshalAll? blank (c.marshalAll rs) = some (rs.map some) := by
  have hbytes : Cbor.SpellsSequence .array Cbor.SpellsMap (c.marshalAll rs) (rs.map Record.entries) := by
    obtain ⟨head, pieces, hhead, hpieces, heq⟩ :=
      Cbor.spellsSequence_write (m := .array) (S := fun bs r => Cbor.SpellsMap bs r.entries) hmax
        fun r hr => Cbor.spellsMap_writeRecord (h r hr)
    rw [hcanonical.marshalAll rs h hmax, heq]
    exact ⟨head, pieces, by rwa [length_map], by rwa [forall₂_map_right_iff], rfl⟩
  have haccepts : ∀ es ∈ rs.map Record.entries, blank.Accepts es := by
    intro es hes
    obtain ⟨r, hr, rfl⟩ := mem_map.1 hes
    exact hblank r hr ▸ (h r hr).accepts
  rw [hdecodes.unmarshalAll _ _ _ haccepts (by rwa [length_map]) hbytes, map_map]
  refine congrArg some (map_congr_left fun r hr => congrArg some ?_)
  rw [← hblank r hr, Record.fill_blank_entries (h r hr).keys_nodup]

end Codec

/-! ### Artifacts -/

namespace Artifact
variable {a : Artifact}

def texts (a : Artifact) : List String :=
  a.buildId :: a.name :: a.source :: (a.subroutines ++ a.gates)

/-- Numbers are words, lengths of texts can be written, and lists can be read. -/
structure Fits (a : Artifact) : Prop where
  texts : ∀ s ∈ a.texts, (Cbor.utf8 s).length < 2 ^ 64
  numQubits : Word.InRange a.numQubits
  subroutines : a.subroutines.length ≤ Cbor.maxEntries
  gates : a.gates.length ≤ Cbor.maxEntries

theorem Fits.record (h : a.Fits) : a.record.Fits where
  ascending := by simp [Artifact.record]
  keys := by simp [Artifact.record, Word.InRange, Word.smallest, Word.largest]
  values := by
    obtain ⟨htexts, hnum, hsubs, hgates⟩ := h
    simp only [Artifact.record, forall_mem_cons, not_mem_nil, false_imp_iff, implies_true, and_true]
    exact ⟨htexts _ (by simp [Artifact.texts]), htexts _ (by simp [Artifact.texts]),
      htexts _ (by simp [Artifact.texts]), hnum, trivial,
      ⟨hsubs, fun s hs => htexts s (by simp [Artifact.texts, hs])⟩,
      ⟨hgates, fun s hs => htexts s (by simp [Artifact.texts, hs])⟩⟩
  length := show 7 ≤ Cbor.maxEntries by decide

theorem blank_record (a : Artifact) : a.record.blank = ({} : Artifact).record := rfl

theorem ofRecord?_record (a : Artifact) : ofRecord? a.record = some a := rfl

/-- With a codec that is canonical and decodes, an artifact comes back from its bytes, a list of artifacts from
theirs, and two artifacts with the same bytes are the same. A list that is empty is one that was left out. -/
theorem codec_round_trip (codec : Codec) (hcanonical : codec.Canonical) (hdecodes : codec.Decodes) :
    (∀ a : Artifact, a.Fits → decode? codec (a.encode codec) = some a) ∧
    (∀ as : List Artifact, (∀ a ∈ as, a.Fits) → as.length ≤ Cbor.maxEntries →
      decodeList? codec (encodeList codec as) = some (as.map some)) ∧
    ∀ a b : Artifact, a.Fits → b.Fits → a.encode codec = b.encode codec → a = b := by
  have hone : ∀ a : Artifact, a.Fits → decode? codec (a.encode codec) = some a := by
    intro a ha
    have hrecord := Codec.unmarshal?_marshal hcanonical hdecodes ha.record
    rw [blank_record] at hrecord
    simp [decode?, encode, hrecord, ofRecord?_record]
  refine ⟨hone, fun as hall hmax => ?_, fun a b ha hb hbytes => ?_⟩
  · have hrecords : codec.unmarshalAll? ({} : Artifact).record (codec.marshalAll (as.map record)) =
        some ((as.map record).map some) :=
      Codec.unmarshalAll?_marshalAll hcanonical hdecodes (by simpa using fun a ha => (hall a ha).record)
        (by simp [blank_record]) (by simpa using hmax)
    simp only [decodeList?, encodeList, hrecords, Option.bind_eq_bind, Option.bind_some, List.map_map, List.mapM_map]
    exact Cbor.mapM_eq_some_map fun a _ => by simp [ofRecord?_record]
  · have hsome : some a = some b := by rw [← hone a ha, ← hone b hb, hbytes]
    exact Option.some.inj hsome

/-- Lengths and numbers on either side of the bounds of heads, and fields that are left out. -/
def edgeArtifact : Artifact where
  source := String.ofList (List.replicate 256 'é')
  numQubits := Word.smallest
  gates := List.replicate 24 "g"

theorem codec_round_trip_edge :
    edgeArtifact.Fits ∧ decode? Cbor.codec (edgeArtifact.encode Cbor.codec) = some edgeArtifact ∧
      decodeList? Cbor.codec (encodeList Cbor.codec [edgeArtifact, {}]) = some [some edgeArtifact, some {}] := by
  have hedge : edgeArtifact.Fits := by
    refine ⟨?_, by decide, by decide, by decide⟩
    decide +kernel
  have hempty : ({} : Artifact).Fits := by
    refine ⟨?_, by decide, by decide, by decide⟩
    decide +kernel
  have hboth : ∀ a ∈ [edgeArtifact, {}], a.Fits := by simp [hedge, hempty]
  have htrip := codec_round_trip Cbor.codec Cbor.canonical_codec Cbor.decodes_codec
  exact ⟨hedge, htrip.1 edgeArtifact hedge, htrip.2.1 [edgeArtifact, {}] hboth (by decide)⟩

end Artifact

end QasmStudio
