import SqlMigration.CommandLine.Command
import SqlMigration.Proofs.Job.Confinement
import SqlMigration.Proofs.Job.Formats

/-!
# The documents of a job

A job is told by its settings, and by a name mapping and macros where they are
given. They are loaded in this order before anything else is done: where one of
them cannot be loaded, the run has noted what it has read and has done nothing.
-/

set_option autoImplicit false

namespace SqlMigration

open Files Effect

def World.noting (w : World) (notes : List Note) : World :=
  { w with events := w.events ++ notes.map .note }

theorem World.noting_nil (w : World) : w.noting [] = w := by
  rw [noting, List.map_nil, List.append_nil]

theorem World.noting_noting (w : World) (notes more : List Note) :
    (w.noting notes).noting more = w.noting (notes ++ more) := by
  simp only [noting, List.map_append, List.append_assoc]

/-! ### Runs that look and note -/

def Run.settle {α : Type} : Except Stop α → Run α
  | .ok a => pure a
  | .error stop => throw stop

/-- What comes out depends on the disk alone, and but for notes the world stays as it is. -/
def Run.Tells {α : Type} (x : Run α) (told : Disk → Except Stop α) : Prop :=
  ∀ w, ∃ notes, x w = Run.settle (told w.disk) (w.noting notes)

namespace Run.Tells

variable {α β : Type} {x : Run α} {told : Disk → Except Stop α}

theorem congr (h : x.Tells told) {told' : Disk → Except Stop α} (same : ∀ d, told d = told' d) :
    x.Tells told' :=
  funext same ▸ h

theorem settle (e : Except Stop α) : (Run.settle e).Tells (fun _ => e) :=
  fun w => ⟨[], by rw [w.noting_nil]⟩

theorem ofExcept (e : Except Failure α) : (Run.ofExcept e).Tells (fun _ => e.mapError .failure) := by
  cases e with
  | ok a => exact settle (.ok a)
  | error f => exact settle (.error (.failure f))

theorem note (n : Note) : (Run.note n).Tells (fun _ => .ok ()) := fun _ => ⟨[n], rfl⟩

theorem bind {g : α → Run β} {t : α → Disk → Except Stop β} (h : x.Tells told)
    (next : ∀ a, (g a).Tells (t a)) : (x >>= g).Tells (fun d => told d >>= (t · d)) := by
  intro w
  obtain ⟨notes, first⟩ := h w
  dsimp only
  cases ht : told w.disk with
  | error stop =>
    rw [ht] at first
    exact ⟨notes, bind_error first⟩
  | ok a =>
    rw [ht] at first
    obtain ⟨later, second⟩ := next a (w.noting notes)
    rw [World.noting_noting] at second
    exact ⟨notes ++ later, (bind_ok first).trans second⟩

theorem tryCatch {result : Disk → Except Failure α} {g : Stop → Run α} {t : Failure → Stop}
    (h : x.Tells (fun d => (result d).mapError .failure))
    (caught : ∀ f, g (.failure f) = throw (t f)) :
    (tryCatch x g).Tells (fun d => (result d).mapError t) := by
  intro w
  obtain ⟨notes, first⟩ := h w
  dsimp only at first ⊢
  refine ⟨notes, ?_⟩
  cases hr : result w.disk with
  | error f =>
    rw [hr] at first
    rw [tryCatch_error first, caught]
    rfl
  | ok a =>
    rw [hr] at first
    rw [tryCatch_ok first]
    rfl

end Run.Tells

/-! ### Loading a document -/

def Failure.of {α : Type} : Except Failure α → List Failure
  | .ok _ => []
  | .error failure => [failure]

namespace Format

def content (given : Given) (d : Disk) : Except Failure Bytes :=
  match given with
  | .blank => .error .blankPath
  | .path s =>
    match read s d with
    | .ok bytes _ => .ok bytes
    | .error fault _ => .error (.file fault)

variable {α : Type} (f : Format α)

def document (given : Given) (d : Disk) : Except Failure α := content given d >>= f.ofBytes

theorem document_of_content {given : Given} {d : Disk} {bytes : Bytes} (h : content given d = .ok bytes) :
    f.document given d = f.ofBytes bytes := by
  rw [document, h]
  rfl

def document? (given : Option Given) (d : Disk) : Except Failure (Option α) :=
  match CommandLine.pathGiven given with
  | none => .ok none
  | some s => some <$> f.document (.path s) d

theorem tells_read (s : String) :
    (Run.files (read s)).Tells (fun d => (content (.path s) d).mapError .failure) := by
  intro w
  have same : final (read s w.disk) = w.disk := keeps_read (fun d => d = w.disk) s w.disk rfl
  refine ⟨[], ?_⟩
  rw [w.noting_nil]
  cases hr : read s w.disk with
  | ok bytes d =>
    rw [hr] at same
    subst same
    simp only [Run.files, content, hr]
    rfl
  | error fault d =>
    rw [hr] at same
    subst same
    simp only [Run.files, content, hr]
    rfl

theorem tells_needed (given : Given) :
    given.needed.Tells
      (fun _ => (given.path?.elim (.error (.failure .blankPath)) .ok : Except Stop String)) := by
  cases given with
  | blank => exact Run.Tells.settle (.error _)
  | path s => exact Run.Tells.settle (.ok s)

theorem tells_load (given : Given) :
    (f.load given).Tells (fun d => (f.document given d).mapError .failure) := by
  refine Run.Tells.congr ((Run.Tells.note _).bind (fun _ => (tells_needed given).bind (fun s =>
    (tells_read s).bind (fun bytes => (Run.Tells.ofExcept (f.value bytes)).bind
      (t := fun v _ => (f.ofValue v).mapError .failure) (fun v => ?_))))) (fun d => ?_)
  · cases f.ofValue v with
    | ok a => exact (Run.Tells.note _).bind (fun _ => Run.Tells.settle (.ok a))
    | error failure =>
      dsimp only
      cases failure.report? with
      | some report =>
        exact (Run.Tells.note _).bind (fun _ => Run.Tells.settle (.error (.failure failure)))
      | none =>
        exact (Run.Tells.settle (.ok ())).bind (fun _ => Run.Tells.settle (.error (.failure failure)))
  · cases given with
    | blank => rfl
    | path s =>
      change ((content (.path s) d).mapError Stop.failure >>= fun bytes => _) =
        (content (.path s) d >>= f.ofBytes).mapError _
      cases content (.path s) d with
      | error e => rfl
      | ok bytes =>
        change ((f.value bytes).mapError Stop.failure >>= fun v => _) =
          (f.value bytes >>= f.ofValue).mapError _
        cases f.value bytes <;> rfl

end Format

def Failure.isInvalid : Failure → Bool
  | .invalid _ => true
  | _ => false

theorem Failure.isInvalid_iff {f : Failure} : f.isInvalid = true ↔ ∃ report, f = .invalid report := by
  cases f <;> simp [isInvalid]

/-- How the command ends when a document cannot be loaded: one that is invalid has been told of, any
other failure stays what it is. -/
def Failure.ending (f : Failure) : Stop := if f.isInvalid then .exit ⟨some 1, "", ""⟩ else .failure f

theorem Failure.ending_eq_exit {f : Failure} :
    (∃ e : Exit, f.ending = .exit e ∧ e.code = some 1) ↔ ∃ report, f = .invalid report := by
  rw [← isInvalid_iff, ending]
  cases f.isInvalid <;> simp

theorem Failure.ending_eq_failure {f : Failure} (h : ∀ report, f ≠ .invalid report) :
    f.ending = .failure f := by
  have other : ¬ f.isInvalid = true := by
    rw [isInvalid_iff]
    rintro ⟨report, same⟩
    exact h report same
  rw [ending, if_neg other]

namespace CommandLine

variable {α : Type} (f : Format α)

theorem tells_loadOrExit (given : Given) :
    (loadOrExit f given).Tells (fun d => (f.document given d).mapError Failure.ending) :=
  (f.tells_load given).tryCatch (fun e => by cases e <;> rfl)

theorem tells_loadGiven (given : Option Given) :
    (loadGiven f given).Tells (fun d => (f.document? given d).mapError Failure.ending) := by
  unfold loadGiven Format.document?
  cases pathGiven given with
  | none => exact Run.Tells.settle (.ok none)
  | some s =>
    refine Run.Tells.congr ((tells_loadOrExit f (.path s)).bind
      (fun a => Run.Tells.settle (.ok (some a)))) (fun d => ?_)
    change _ = (some <$> f.document (.path s) d).mapError _
    cases f.document (.path s) d <;> rfl

theorem bind_document {β : Type} {x : Run α} {document : Disk → Except Failure α}
    (h : x.Tells (fun d => (document d).mapError Failure.ending)) (g : α → Run β) (w : World) :
    (∃ failure notes, document w.disk = .error failure ∧
        (x >>= g) w = .error failure.ending (w.noting notes)) ∨
      ∃ a notes, document w.disk = .ok a ∧ (x >>= g) w = g a (w.noting notes) := by
  obtain ⟨notes, run⟩ := h w
  dsimp only at run
  cases hd : document w.disk with
  | error failure =>
    rw [hd] at run
    exact Or.inl ⟨failure, notes, rfl, bind_error run⟩
  | ok a =>
    rw [hd] at run
    exact Or.inr ⟨a, notes, rfl, bind_ok run⟩

/-! ### Loading all documents -/

/-- Why documents of a job cannot be loaded, in the order in which they are needed. -/
def Arguments.failures (a : Arguments) (d : Disk) : List Failure :=
  Failure.of (Format.settings.document a.config d) ++
    Failure.of (Format.mapping.document? a.mapping d) ++
    Failure.of (Format.macros.document? a.macros d)

def Arguments.documents (a : Arguments) (d : Disk) :
    Except Failure (Settings Text × Option NameMapping × Option Macros) := do
  let settings ← Format.settings.document a.config d
  let mapping ← Format.mapping.document? a.mapping d
  let macros ← Format.macros.document? a.macros d
  return (settings, mapping, macros)

theorem Arguments.documents_failures (a : Arguments) (d : Disk) :
    Failure.of (a.documents d) = (a.failures d).take 1 := by
  unfold documents failures
  cases Format.settings.document a.config d <;> cases Format.mapping.document? a.mapping d <;>
    cases Format.macros.document? a.macros d <;> rfl

theorem Arguments.settings_of_documents (a : Arguments) {d : Disk} {settings : Settings Text}
    {others : Option NameMapping × Option Macros} (h : a.documents d = .ok (settings, others)) :
    Format.settings.document a.config d = .ok settings := by
  revert h
  unfold documents
  cases Format.settings.document a.config d <;> cases Format.mapping.document? a.mapping d <;>
    cases Format.macros.document? a.macros d <;> intro h <;> cases h
  rfl

def Arguments.work (a : Arguments) (settings : Settings Text) (mapping : Option NameMapping)
    (macros : Option Macros) : Run Unit := do
  Run.note .verifying
  let settings ← Run.ofExcept (settings.strings.mapError .unsendable)
  Credentials.checkAll settings.project.number
  let input ← a.input.needed
  Batch.start ⟨settings, input, a.output, macros, mapping⟩

def Arguments.loadAll (a : Arguments) : Run (Settings Text × Option NameMapping × Option Macros) := do
  let settings ← loadOrExit Format.settings a.config
  let mapping ← loadGiven Format.mapping a.mapping
  let macros ← loadGiven Format.macros a.macros
  return (settings, mapping, macros)

theorem Arguments.tells_loadAll (a : Arguments) :
    a.loadAll.Tells (fun d => (a.documents d).mapError Failure.ending) := by
  refine Run.Tells.congr ((tells_loadOrExit _ _).bind (fun settings => (tells_loadGiven _ _).bind
    (fun mapping => (tells_loadGiven _ _).bind (fun macros =>
      Run.Tells.settle (.ok (settings, mapping, macros)))))) (fun d => ?_)
  unfold documents
  cases Format.settings.document a.config d <;> cases Format.mapping.document? a.mapping d <;>
    cases Format.macros.document? a.macros d <;> rfl

theorem runJob_eq (a : Arguments) :
    runJob a = a.loadAll >>= fun loaded => a.work loaded.1 loaded.2.1 loaded.2.2 := by
  simp only [runJob, Arguments.loadAll, Arguments.work, bind_assoc, pure_bind]

/-- Nothing is done unless all documents can be loaded. Where one cannot be, the run has left its notes
and nothing else; it ends with exit code one if the first of the failures is that the document is
invalid, and with that failure otherwise. -/
theorem runJob_refuses (a : Arguments) (w : World) {first : Failure} {later : List Failure}
    (h : a.failures w.disk = first :: later) :
    ∃ stop notes, runJob a w = .error stop (w.noting notes) ∧
      ((∃ e, stop = .exit e ∧ e.code = some 1) ↔ ∃ report, first = .invalid report) ∧
      ((∀ report, first ≠ .invalid report) → stop = .failure first) := by
  have failed := a.documents_failures w.disk
  rw [runJob_eq]
  obtain ⟨failure, notes, hd, run⟩ | ⟨documents, notes, hd, run⟩ := bind_document a.tells_loadAll
    (fun loaded => a.work loaded.1 loaded.2.1 loaded.2.2) w
  · rw [hd, h] at failed
    obtain rfl : failure = first := (List.cons.inj failed).1
    exact ⟨failure.ending, notes, run, Failure.ending_eq_exit, Failure.ending_eq_failure⟩
  · rw [hd, h] at failed
    cases failed

def desk (texts : List (String × String)) (more : List (Place × Node)) : World :=
  World.ofDisk ⟨⟨(["w"], .directory) ::
    texts.map (fun t => (["w", t.1], .file (Utf8.encode t.2.toList))) ++ more⟩, ["w"]⟩

def settingsText : String :=
  "\x7bgcp_settings: \x7bproject_number: '1', gcs_bucket: b\x7d, translation_config: " ++
    "\x7btranslation_type: Translation_Teradata2BQ, location: us\x7d\x7d"

def toldSettings : Settings Text := ⟨⟨"1", "b"⟩, ⟨.teradata, "us", none, none, true⟩⟩

theorem settings_told :
    Format.settings.ofBytes (Utf8.encode settingsText.toList) = .ok toldSettings := by
  have told : (Format.settings.ofBytes (Utf8.encode settingsText.toList)).toOption = some toldSettings := by
    decide +kernel
  exact (Format.value_of_ofBytes told).1

-- whatever the text is, it is not looked at here
theorem content_desk (text : String) (texts : List (String × String)) (more : List (Place × Node)) :
    Format.content (.path "c.yaml") (desk (("c.yaml", text) :: texts) more).disk =
      .ok (Utf8.encode text.toList) := rfl

theorem settings_desk (texts : List (String × String)) (more : List (Place × Node)) :
    Format.settings.document (.path "c.yaml") (desk (("c.yaml", settingsText) :: texts) more).disk =
      .ok toldSettings :=
  (Format.settings.document_of_content (content_desk settingsText texts more)).trans settings_told

def ordered : Arguments where
  verbose := false
  config := .path "c.yaml"
  input := .path "in"
  output := .path "out"
  macros := some (.path "m.yaml")
  mapping := some (.path "n.json")

theorem runJob_refuses_mapping :
    let w := desk [("c.yaml", settingsText), ("n.json", "1")] []
    ∃ report missing, ordered.failures w.disk = [.invalid report, missing] ∧
      ∃ e notes, runJob ordered w = .error (.exit e) (w.noting notes) ∧ e.code = some 1 := by
  intro w
  have told : Format.settings.document ordered.config w.disk = .ok toldSettings := settings_desk _ _
  have kinds : (ordered.failures w.disk).map Failure.isInvalid = [true, false] := by
    rw [Arguments.failures, told]
    decide
  obtain ⟨first, later, split, invalid, rest⟩ := List.map_eq_cons_iff.mp kinds
  obtain ⟨missing, none, rfl, _, last⟩ := List.map_eq_cons_iff.mp rest
  obtain ⟨report, rfl⟩ := Failure.isInvalid_iff.mp invalid
  rw [List.map_eq_nil_iff.mp last] at split
  obtain ⟨stop, notes, run, exits, _⟩ := runJob_refuses ordered w split
  obtain ⟨e, rfl, code⟩ := exits.mpr ⟨report, rfl⟩
  exact ⟨report, missing, split, e, notes, run, code⟩

end CommandLine

end SqlMigration
