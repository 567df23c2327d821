import SqlMigration.Job.Loading
import SqlMigration.Proofs.Effect
import SqlMigration.Proofs.Schema.Records

/-!
# Documents of a format

Where a check is exact, a value is accepted for what it gives, or refused with a
report of exactly its flaws.
-/

set_option autoImplicit false

namespace SqlMigration.Format

open Effect (bind_eq_ok)
open Schema

variable {α : Type} {f : Format α} {content : Bytes} {v : Value}

theorem ofBytes_eq (value : f.value content = .ok v) : f.ofBytes content = f.ofValue v := by
  rw [ofBytes, value]
  rfl

theorem settings_value : settings.value content = .ok v ↔ Yaml.read content = .ok v := Effect.mapError_eq_ok

theorem mapping_value : mapping.value content = .ok v ↔ jsonValue content = .ok v := Iff.rfl

theorem macros_value : macros.value content = .ok v ↔ Yaml.read content = .ok v := Effect.mapError_eq_ok

theorem value_of_ofBytes {a : α} (accepted : (f.ofBytes content).toOption = some a) :
    f.ofBytes content = .ok a ∧ ∃ v, f.value content = .ok v := by
  have outcome := Effect.toOption_eq_some.mp accepted
  obtain ⟨v, value, _⟩ := bind_eq_ok outcome
  exact ⟨outcome, v, value⟩

/-- A document can be read and is refused with a report. -/
def refuses (f : Format α) (content : Bytes) : Bool :=
  match f.value content with
  | .error _ => false
  | .ok v =>
    match f.ofValue v with
    | .error (.invalid _) => true
    | _ => false

theorem invalid_of_refuses (refused : f.refuses content = true) :
    ∃ v report, f.value content = .ok v ∧ f.ofBytes content = .error (.invalid report) := by
  rw [refuses] at refused
  split at refused
  · cases refused
  · next v value =>
    split at refused
    · next report invalid => exact ⟨v, report, value, (ofBytes_eq value).trans invalid⟩
    · cases refused

section Exactness

variable {P : Value → Prop} {check : Check α} {gives : Value → α → Prop} {flaw : Flaw}
  (exact : Exact P check gives flaw) (proper : v.Throughout P)

include exact proper

theorem checked_eq_ok_iff (a : α) : checked check v = .ok a ↔ gives v a := by
  rw [checked, Effect.mapError_eq_ok]
  exact exact.accepts proper a

theorem checked_refuses (nothing : ∀ a, ¬ gives v a) :
    ∃ report, checked check v = .error (.ofReport report) ∧ report.Tidy ∧
      ∀ way c, report.At way c ↔ flaw v way c := by
  obtain ⟨report, refused, tidy, complaints⟩ := exact.refuses proper nothing
  refine ⟨report, ?_, tidy, complaints⟩
  rw [checked, refused]
  rfl

theorem checked_refuses_told (tellable : Tellable flaw) (nothing : ∀ a, ¬ gives v a) :
    ∃ report, checked check v = .error (.invalid report) ∧ report.Tidy ∧
      ∀ way c, report.At way c ↔ flaw v way c := by
  obtain ⟨report, refused, tidy, complaints⟩ := checked_refuses exact proper nothing
  have told : report.isTold = true :=
    (Report.isTold_iff report).mpr fun way c said => tellable v way c ((complaints way c).mp said)
  refine ⟨report, ?_, tidy, complaints⟩
  rw [refused, Failure.ofReport, if_pos told]

end Exactness

def ofLines (lines : List String) : Bytes :=
  lines.flatMap (fun line => Utf8.encode (line.toList ++ ['\n']))

end SqlMigration.Format
