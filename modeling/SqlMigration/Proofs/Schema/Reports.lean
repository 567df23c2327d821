import Mathlib.Data.List.Nodup
import SqlMigration.Schema.Report

/-!
# What a report says

A report says its complaints, each at the end of a way through fields, positions
and keys. A report is tidy when no part of it is empty or has a key twice: then
it has no entry that does not lead to a complaint, and one complaint at each
end.
-/

set_option autoImplicit false

namespace SqlMigration

theorem Complaint.isTold_eq_false {c : Complaint} : c.isTold = false ↔ c = .noConversion none := by
  cases c <;> simp [isTold]

namespace Report

/-- A complaint stands at the end of a way. -/
inductive At : Report → List Scalar → Complaint → Prop
  | one (c : Complaint) : At (.one c) [] c
  | field {entries : List (Scalar × Report)} {k : Scalar} {r : Report} {way : List Scalar} {c : Complaint}
      (mem : (k, r) ∈ entries) (inside : At r way c) : At (.fields entries) (k :: way) c
  | pair {entries : List (Scalar × Report)} {k : Scalar} {r : Report} {way : List Scalar} {c : Complaint}
      (mem : (k, r) ∈ entries) (inside : At r way c) : At (.pairs entries) (k :: way) c

theorem at_one_iff {c d : Complaint} {way : List Scalar} : (one c).At way d ↔ way = [] ∧ d = c := by
  constructor
  · rintro ⟨⟩
    exact ⟨rfl, rfl⟩
  · rintro ⟨rfl, rfl⟩
    exact .one d

theorem at_fields_iff {entries : List (Scalar × Report)} {way : List Scalar} {c : Complaint} :
    (fields entries).At way c ↔ ∃ k r rest, way = k :: rest ∧ (k, r) ∈ entries ∧ r.At rest c := by
  constructor
  · rintro (_ | ⟨mem, inside⟩)
    exact ⟨_, _, _, rfl, mem, inside⟩
  · rintro ⟨k, r, rest, rfl, mem, inside⟩
    exact .field mem inside

theorem at_pairs_iff {entries : List (Scalar × Report)} {way : List Scalar} {c : Complaint} :
    (pairs entries).At way c ↔ ∃ k r rest, way = k :: rest ∧ (k, r) ∈ entries ∧ r.At rest c := by
  constructor
  · rintro (_ | _ | ⟨mem, inside⟩)
    exact ⟨_, _, _, rfl, mem, inside⟩
  · rintro ⟨k, r, rest, rfl, mem, inside⟩
    exact .pair mem inside

/-- No part of a report is empty or has a key twice. -/
inductive Tidy : Report → Prop
  | one (c : Complaint) : Tidy (.one c)
  | fields {entries : List (Scalar × Report)} (inhabited : entries ≠ [])
      (distinct : (entries.map Prod.fst).Nodup) (inside : ∀ e ∈ entries, Tidy e.2) : Tidy (.fields entries)
  | pairs {entries : List (Scalar × Report)} (inhabited : entries ≠ [])
      (distinct : (entries.map Prod.fst).Nodup) (inside : ∀ e ∈ entries, Tidy e.2) : Tidy (.pairs entries)

theorem tidy_notRecord : notRecord.Tidy :=
  .fields (List.cons_ne_nil _ _) (List.nodup_singleton _)
    (List.forall_mem_singleton.mpr (.one .notRecord))

theorem at_notRecord_iff {way : List Scalar} {c : Complaint} :
    notRecord.At way c ↔ way = [.text "_schema"] ∧ c = .notRecord := by
  rw [notRecord, at_fields_iff]
  simp only [List.mem_singleton, Prod.mk.injEq]
  constructor
  · rintro ⟨k, r, rest, rfl, ⟨rfl, rfl⟩, inside⟩
    obtain ⟨rfl, rfl⟩ := at_one_iff.mp inside
    exact ⟨rfl, rfl⟩
  · rintro ⟨rfl, rfl⟩
    exact ⟨_, _, _, rfl, ⟨rfl, rfl⟩, .one _⟩

mutual

theorem isTold_iff (r : Report) : r.isTold = true ↔ ∀ way c, r.At way c → c.isTold = true := by
  cases r with
  | one c => simp [isTold, at_one_iff]
  | fields entries =>
    rw [isTold, areTold_iff entries]
    constructor
    · rintro told _ c (_ | ⟨mem, inside⟩)
      exact told _ mem _ c inside
    · exact fun told e mem way c inside => told (e.1 :: way) c (.field mem inside)
  | pairs entries =>
    rw [isTold, areTold_iff entries]
    constructor
    · rintro told _ c (_ | _ | ⟨mem, inside⟩)
      exact told _ mem _ c inside
    · exact fun told e mem way c inside => told (e.1 :: way) c (.pair mem inside)

theorem areTold_iff (entries : List (Scalar × Report)) :
    areTold entries = true ↔ ∀ e ∈ entries, ∀ way c, e.2.At way c → c.isTold = true := by
  cases entries with
  | nil => simp [areTold]
  | cons e rest =>
    rw [areTold, Bool.and_eq_true, isTold_iff e.2, areTold_iff rest, List.forall_mem_cons]

end

end Report

end SqlMigration
