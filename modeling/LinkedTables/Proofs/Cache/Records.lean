import LinkedTables.Cache.Record
import LinkedTables.Proofs.Json.Arranged

/-!
# A stored record is read back

Every part of a record has a form in JSON and a reader of that form, and the reader undoes the form.
The parts are put together: a list of parts is read back item by item, and an object is read back
from its fields because their names differ, however the fields are arranged. So a record is read from
the bytes of its text as it was, whatever is in it (`Record.ofBytes?_text`), and the artifact that was
stored is the one that is found (`Record.artifact?_record`).

What is found under a key is no more than verified: `Artifact.Verified` lists what was checked.
-/

namespace LinkedTables

namespace Json

variable {α : Type} {read : Json → Option α} {write : α → Json}

/-- What is written for a value in JSON is plain, and is read as the value. -/
structure Restores (read : Json → Option α) (write : α → Json) : Prop where
  plain : ∀ x, (write x).Plain
  eq : ∀ x, read (write x) = some x

theorem nat?_nat {bound n : Nat} (h : n < bound) : nat? bound (nat n) = some n := by
  have hdigits : (Nat.toDigits 10 n).all Char.isDigit = true :=
    List.all_eq_true.2 fun c hc => isDigit_of_mem_toDigits hc
  have hvalue := Text.numeral?_decimal bound n
  rw [Text.toList_toString, if_pos h] at hvalue
  simp [nat?, nat, hdigits, hvalue]

theorem mapM_restored (h : Restores read write) :
    ∀ xs : List α, (xs.map write).mapM read = some xs
  | [] => rfl
  | x :: xs => by simp [h.eq x, mapM_restored h xs]

namespace Arrangement

open Stored

variable {arranged : Json → Json} (h : Arrangement arranged)

include h

theorem restores_text : Restores text? fun s => arranged (.text s) :=
  ⟨fun s => by rw [h.text_eq]; exact .text s, fun s => by rw [h.text_eq]; rfl⟩

theorem restores_uint32 : Restores uint32? fun w => arranged (nat w.toNat) where
  plain w := by
    rw [h.nat_eq]
    exact .nat w.toNat
  eq w := by
    have hlt : w.toNat < Text.bound32 := w.toNat_lt
    rw [h.nat_eq, uint32?, nat?_nat hlt, Option.map_some, UInt32.ofNat_toNat]

theorem restores_uint64 : Restores uint64? fun w => arranged (nat w.toNat) where
  plain w := by
    rw [h.nat_eq]
    exact .nat w.toNat
  eq w := by
    have hlt : w.toNat < Text.bound64 := w.toNat_lt
    rw [h.nat_eq, uint64?, nat?_nat hlt, Option.map_some, UInt64.ofNat_toNat]

theorem restores_list (hitem : Restores read fun x => arranged (write x)) :
    Restores (listOf? read) fun xs => arranged (.list (xs.map write)) where
  plain xs := by
    rw [h.list_eq, List.map_map]
    refine .list fun j hj => ?_
    obtain ⟨x, -, rfl⟩ := List.mem_map.1 hj
    exact hitem.plain x
  eq xs := by
    rw [h.list_eq, List.map_map]
    exact mapM_restored hitem xs

section Parts

theorem restores_texts : Restores texts? fun items => arranged (texts items) :=
  h.restores_list h.restores_text

theorem restores_linkMode : Restores linkMode? fun m => arranged m.toJson where
  plain m := by cases m <;> exact h.restores_text.plain _
  eq m := by cases m <;> rw [LinkMode.toJson, h.text_eq] <;> rfl

theorem restores_mode : Restores mode? fun m => arranged m.toJson where
  plain m := h.restores_text.plain m.name
  eq m := by
    rw [Mode.toJson, h.text_eq]
    cases m <;> rfl

theorem restores_opcode : Restores opcode? fun op => arranged (.text op.stored) where
  plain op := h.restores_text.plain op.stored
  eq op := by
    rw [h.text_eq]
    rcases op with _ | _ | _ | _ | _ | op | op | op
    all_goals (try cases op) <;> decide +kernel

theorem restores_link : Restores link? fun x => arranged x.toJson where
  plain l := h.plain_object (by simp [h.restores_text.plain, h.restores_linkMode.plain])
  eq l := by
    unfold link? Link.toJson
    rw [h.record?_object (by rfl) (by decide)]
    simp [h.restores_text.eq, h.restores_linkMode.eq]

theorem restores_columnRef : Restores columnRef? fun x => arranged x.toJson where
  plain c := h.plain_object (by simp [h.restores_text.plain, h.restores_texts.plain])
  eq c := by
    unfold columnRef? ColumnRef.toJson
    rw [h.record?_object (by rfl) (by decide)]
    simp [h.restores_text.eq, h.restores_texts.eq]

theorem restores_tableRef : Restores tableRef? fun x => arranged x.toJson where
  plain t := h.plain_object (by simp [h.restores_link.plain, h.restores_texts.plain])
  eq t := by
    unfold tableRef? TableRef.toJson
    rw [h.record?_object (by rfl) (by decide)]
    simp [h.restores_link.eq, h.restores_texts.eq]

theorem restores_checkRef : Restores checkRef? fun x => arranged x.toJson where
  plain c := h.plain_object (by simp [h.restores_uint32.plain, h.restores_link.plain])
  eq c := by
    unfold checkRef? CheckRef.toJson
    rw [h.record?_object (by rfl) (by decide)]
    simp [h.restores_uint32.eq, h.restores_link.eq]

theorem restores_shapeRef : Restores shapeRef? fun x => arranged x.toJson where
  plain s := h.plain_object (by simp [h.restores_text.plain, h.restores_uint64.plain])
  eq s := by
    unfold shapeRef? ShapeRef.toJson
    rw [h.record?_object (by rfl) (by decide)]
    simp [h.restores_text.eq, h.restores_uint64.eq]

theorem restores_layout : Restores layout? fun x => arranged x.toJson where
  plain l := h.plain_object (by
    simp [h.restores_text.plain, (h.restores_list h.restores_columnRef).plain,
      (h.restores_list h.restores_tableRef).plain, (h.restores_list h.restores_checkRef).plain,
      (h.restores_list h.restores_shapeRef).plain])
  eq l := by
    unfold layout? Layout.toJson
    rw [h.record?_object (by rfl) (by decide)]
    simp [h.restores_text.eq, (h.restores_list h.restores_columnRef).eq,
      (h.restores_list h.restores_tableRef).eq, (h.restores_list h.restores_checkRef).eq,
      (h.restores_list h.restores_shapeRef).eq]

theorem restores_reference : Restores reference? fun x => arranged x.toJson where
  plain r := h.plain_object (by simp [h.restores_text.plain, h.restores_texts.plain])
  eq r := by
    unfold reference? Reference.toJson
    rw [h.record?_object (by rfl) (by decide)]
    simp [h.restores_text.eq, h.restores_texts.eq]

theorem restores_constant : Restores constant? fun x => arranged (Request.constantToJson x) where
  plain c := by
    rw [Request.constantToJson, h.list_eq]
    exact .list (by simp [h.restores_text.plain, h.restores_uint64.plain])
  eq c := by
    rw [Request.constantToJson, h.list_eq, List.map_cons, List.map_cons, List.map_nil]
    simp [constant?, h.restores_text.eq, h.restores_uint64.eq]

theorem restores_request : Restores request? fun x => arranged x.toJson where
  plain r := h.plain_object (by
    simp [h.restores_uint32.plain, h.restores_mode.plain, h.restores_texts.plain,
      (h.restores_list h.restores_reference).plain, h.restores_layout.plain,
      (h.restores_list h.restores_constant).plain])
  eq r := by
    unfold request? Request.toJson
    rw [h.record?_object (by rfl) (by decide)]
    simp [h.restores_uint32.eq, h.restores_mode.eq, h.restores_texts.eq,
      (h.restores_list h.restores_reference).eq, h.restores_layout.eq,
      (h.restores_list h.restores_constant).eq]

theorem restores_tape : Restores tape? fun x => arranged x.toJson where
  plain t := h.plain_object (by
    simp [h.restores_mode.plain, h.restores_texts.plain,
      (h.restores_list h.restores_uint32).plain, (h.restores_list h.restores_uint64).plain,
      h.restores_layout.plain])
  eq t := by
    have hops : (arranged (texts (t.ops.map Opcode.stored))).listOf? opcode? = some t.ops := by
      rw [texts, List.map_map]
      exact (h.restores_list h.restores_opcode).eq t.ops
    unfold tape? Tape.toJson
    rw [h.record?_object (by rfl) (by decide)]
    simp [h.restores_mode.eq, hops, (h.restores_list h.restores_uint32).eq,
      (h.restores_list h.restores_uint64).eq, h.restores_layout.eq]

theorem restores_record : Restores Stored.record? fun x => arranged x.toJson where
  plain r := by
    refine h.plain_object ?_
    simp only [List.mem_cons, List.not_mem_nil, or_false, forall_eq_or_imp, forall_eq]
    refine ⟨h.plain_object ?_, h.restores_text.plain r.source, h.restores_tape.plain r.tape⟩
    simp [h.restores_text.plain, h.restores_mode.plain, h.restores_uint64.plain,
      h.restores_request.plain]
  eq r := by
    unfold Stored.record? Record.toJson
    rw [h.record?_object (by rfl) (by decide)]
    simp only [Option.bind_eq_bind, Option.bind_some, List.map_cons, List.map_nil]
    rw [h.record?_object (by rfl) (by decide)]
    simp [h.restores_text.eq, h.restores_mode.eq, h.restores_uint64.eq, h.restores_request.eq,
      h.restores_tape.eq]

end Parts

end Arrangement

end Json

theorem fromUTF8?_toUTF8 (s : String) : String.fromUTF8? s.toUTF8 = some s :=
  dif_pos s.isValidUTF8

/-- A record is read from the bytes of its text as it was. -/
theorem Record.ofBytes?_text (r : Record) : Record.ofBytes? r.text.toUTF8 = some r := by
  have hread : Json.read? r.text.toList = some r.toJson := by
    rw [Record.text, Json.render, String.toList_ofList]
    exact (Json.arrangement_written.restores_record.plain r).read?_write
  rw [Record.ofBytes?, fromUTF8?_toUTF8]
  simp [hread, Json.arrangement_written.restores_record.eq]

/-- What was checked of an artifact that was found under a key. -/
structure Artifact.Verified (key : String) (artifact : Artifact) : Prop where
  digest : artifact.digest = key
  request : artifact.request.digest = key
  program : Listing.read artifact.source = .ok artifact.program
  mode : artifact.program.mode = artifact.mode

theorem Record.verified_of_artifact? {r : Record} {key : String} {artifact : Artifact}
    (h : r.artifact? key = some artifact) : artifact.Verified key := by
  unfold Record.artifact? at h
  split_ifs at h with hkey
  simp only [ne_eq, Bool.or_eq_true, decide_eq_true_eq, not_or, not_not] at hkey
  split at h
  · cases h
  rename_i p hread
  split_ifs at h with hsame
  simp only [Bool.and_eq_true, decide_eq_true_eq] at hsame
  cases h
  exact ⟨hkey.1, hkey.2, hread, hsame.2⟩

/-- Every artifact that would be verified is the artifact that its record is. -/
theorem Artifact.Verified.artifact?_record {key : String} {artifact : Artifact}
    (h : artifact.Verified key) : artifact.record.artifact? key = some artifact := by
  have hdigest := h.digest
  subst hdigest
  simp [Record.artifact?, record, h.request, h.program, h.mode, Program.tape]

end LinkedTables
