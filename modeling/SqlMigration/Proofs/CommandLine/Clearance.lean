import SqlMigration.Proofs.CommandLine.Documents
import SqlMigration.Proofs.Job.Independence
import SqlMigration.Proofs.Text.Codes

/-!
# Before the cloud is touched

Before the first call to the storage or to the migration service the shell tool
has been set to the project of the settings, and it has shown an account. What
else it shows is noted, and plays no role in what is done.
-/

set_option autoImplicit false

namespace SqlMigration

open Files Effect

/-- Calls to the storage and to the migration service. -/
def Event.isCloud : Event → Bool
  | .gotBucket _ | .madeBucket _ | .listed _ _ | .uploaded _ _ | .downloaded _ _ _ | .requested _ => true
  | _ => false

def Event.isDeed : Event → Bool
  | .note _ => false
  | _ => true

theorem Event.isDeed_of_isCloud {e : Event} (h : e.isCloud = true) : e.isDeed = true := by
  cases e with
  | note n => cases h
  | _ => rfl

def World.logging (w : World) (events : List Event) : World := { w with events := w.events ++ events }

theorem World.logging_logging (w : World) (events more : List Event) :
    (w.logging events).logging more = w.logging (events ++ more) := by
  simp only [logging, List.append_assoc]

theorem Run.note_logging (n : Note) (w : World) : Run.note n w = .ok () (w.logging [.note n]) := rfl

/-! ### The checks -/

namespace Credentials

def loginSteps (shown : String) : List Event :=
  [.note .loginCheck, .asked "gcloud auth list"] ++
    if holds "No credentialed accounts" shown then
      [.note .loginMissing, .note .loginAdvice, .ran "gcloud auth login"]
    else []

def credentialSteps (there : Bool) : List Event :=
  .note .credentialCheck ::
    if there then []
    else [.note .credentialMissing, .note .credentialAdvice, .ran "gcloud auth application-default login"]

def projectSteps (project shown : String) : List Event :=
  [.note .projectCheck, .ran ("gcloud config set project " ++ project), .asked "gcloud config list",
    .note (.cloudSettings shown)]

theorem ask_eq (command : String) (output : Shell → String) (w : World) :
    ask command output w = .ok (output w.shell) (w.logging [.asked command]) := rfl

theorem runCommand_eq (command : String) (w : World) :
    runCommand command w = .ok () (w.logging [.ran command]) := rfl

theorem checkLogin_eq (w : World) : checkLogin w = .ok () (w.logging (loginSteps w.shell.authList)) := by
  rw [checkLogin, bind_ok (Run.note_logging _ w), bind_ok (ask_eq _ _ _), World.logging_logging, loginSteps]
  change (if holds _ w.shell.authList = true then _ else _ : Run Unit) _ = _
  split
  · rw [bind_ok (Run.note_logging _ _), bind_ok (Run.note_logging _ _), runCommand_eq]
    simp only [World.logging_logging]
    rfl
  · rfl

theorem checkCredentials_eq (w : World) : checkCredentials w =
    .ok () (w.logging (credentialSteps (w.disk.exists? (credentialFile w.home)))) := by
  rw [checkCredentials, bind_ok (Run.note_logging _ w), bind_ok (get_apply _), credentialSteps]
  change (if (!w.disk.exists? (credentialFile w.home)) = true then _ else _ : Run Unit) _ = _
  cases w.disk.exists? (credentialFile w.home) with
  | true => rfl
  | false =>
    rw [if_pos (show (!false) = true from rfl), bind_ok (Run.note_logging _ _),
      bind_ok (Run.note_logging _ _), runCommand_eq]
    simp only [World.logging_logging]
    rfl

def hasAccount (shell : Shell) : Bool := holds "account =" shell.configList

theorem checkProject_eq (project : String) (w : World) : checkProject project w =
    (if hasAccount w.shell then Pure.pure () else Run.fail .noAccount : Run Unit)
      (w.logging (projectSteps project w.shell.configList)) := by
  rw [checkProject, bind_ok (Run.note_logging _ w), bind_ok (runCommand_eq _ _), bind_ok (ask_eq _ _ _),
    bind_ok (Run.note_logging _ _)]
  simp only [World.logging_logging]
  change (if (!hasAccount w.shell) = true then _ else _ : Run Unit) _ = _
  cases hasAccount w.shell <;> rfl

def steps (project : String) (w : World) : List Event :=
  loginSteps w.shell.authList ++ credentialSteps (w.disk.exists? (credentialFile w.home)) ++
    projectSteps project w.shell.configList

theorem checkAll_eq (project : String) (w : World) : checkAll project w =
    (if hasAccount w.shell then Pure.pure () else Run.fail .noAccount : Run Unit)
      (w.logging (steps project w)) := by
  rw [checkAll, bind_ok (checkLogin_eq w), bind_ok (checkCredentials_eq _), checkProject_eq]
  simp only [World.logging_logging]
  rfl

theorem steps_not_cloud (project : String) (w : World) : ∀ e ∈ steps project w, e.isCloud = false := by
  unfold steps loginSteps credentialSteps projectSteps
  cases holds "No credentialed accounts" w.shell.authList <;>
    cases w.disk.exists? (credentialFile w.home) <;> simp [Event.isCloud]

def checked (project : String) (w : World) : World := w.logging (.note .verifying :: steps project w)

end Credentials

/-- Two worlds that differ in what the shell shows and in notes only. -/
structure SameDeeds (w v : World) : Prop where
  rest : v = { w with shell := v.shell, events := v.events }
  deeds : v.events.filter Event.isDeed = w.events.filter Event.isDeed

namespace SameDeeds

variable {w v : World} (h : SameDeeds w v)
include h

theorem logging {events events' : List Event}
    (same : events'.filter Event.isDeed = events.filter Event.isDeed) :
    SameDeeds (w.logging events) (v.logging events') := by
  constructor
  · rw [World.logging, h.rest]
    rfl
  · simp only [World.logging, List.filter_append, h.deeds, same]

theorem noting (notes notes' : List Note) : SameDeeds (w.noting notes) (v.noting notes') := by
  have none : ∀ notes : List Note, (notes.map Event.note).filter Event.isDeed = [] := by
    intro notes
    rw [List.filter_eq_nil_iff]
    rintro _ he
    obtain ⟨n, _, rfl⟩ := List.mem_map.mp he
    exact Bool.false_ne_true
  exact h.logging ((none notes').trans (none notes).symm)

theorem cloud (there : ∃ e ∈ w.events, e.isCloud = true) : ∃ e ∈ v.events, e.isCloud = true := by
  obtain ⟨e, logged, cloud⟩ := there
  have deed : e ∈ v.events.filter Event.isDeed := by
    rw [h.deeds]
    exact List.mem_filter.mpr ⟨logged, Event.isDeed_of_isCloud cloud⟩
  exact ⟨e, (List.mem_filter.mp deed).1, cloud⟩

theorem checked (auth : v.shell.authList = w.shell.authList) (project : String) :
    SameDeeds (Credentials.checked project w) (Credentials.checked project v) := by
  have disk : v.disk = w.disk := by rw [h.rest]
  have home : v.home = w.home := by rw [h.rest]
  refine h.logging ?_
  simp only [Credentials.steps, List.filter_append, List.filter_cons, auth, disk, home]
  rfl

theorem blind {α : Type} {x : Run α} (hx : x.Blind) : Alike SameDeeds (x w) (x v) := by
  have run := hx.alike w v.shell v.events
  rw [← h.rest] at run
  refine run.imp ?_
  rintro w' _ ⟨since, log, rfl⟩
  exact ⟨rfl, by simp only [log, List.filter_append, h.deeds]⟩

end SameDeeds

theorem Settings.number_of_strings {told : Settings Text} {settings : Settings String}
    (h : told.strings = .ok settings) : told.project.number = settings.project.number := by
  obtain ⟨number, hn, h⟩ := bind_eq_ok h
  obtain ⟨bucket, _, h⟩ := bind_eq_ok h
  obtain ⟨location, _, h⟩ := bind_eq_ok h
  obtain ⟨database, _, h⟩ := bind_eq_ok h
  obtain ⟨searchPath, _, h⟩ := bind_eq_ok h
  cases h
  exact Text.string_eq_ok_iff.mp hn

namespace CommandLine

open Credentials

section Work

variable (a : Arguments) {told : Settings Text} (mapping : Option NameMapping) (macros : Option Macros)

theorem work_refused {t : Text} (h : told.strings = .error t) (w : World) :
    a.work told mapping macros w =
      .error (.failure (.unsendable t)) (w.logging [.note .verifying]) := by
  rw [Arguments.work, bind_ok (Run.note_logging _ w), h]
  rfl

theorem work_eq {settings : Settings String} (h : told.strings = .ok settings) (w : World) :
    a.work told mapping macros w =
      if hasAccount w.shell then
        (do Batch.start ⟨settings, ← a.input.needed, a.output, macros, mapping⟩ : Run Unit)
          (checked settings.project.number w)
      else .error (.failure .noAccount) (checked settings.project.number w) := by
  have made := checkAll_eq settings.project.number (w.logging [.note .verifying])
  rw [World.logging_logging] at made
  change checkAll _ _ = (if hasAccount w.shell then _ else _ : Run Unit)
    (checked settings.project.number w) at made
  have plain : Run.ofExcept (told.strings.mapError .unsendable) (w.logging [.note .verifying]) =
      .ok settings (w.logging [.note .verifying]) := by
    rw [h]
    rfl
  rw [Arguments.work, bind_ok (Run.note_logging _ w), bind_ok plain]
  by_cases account : hasAccount w.shell = true
  · rw [if_pos account] at made ⊢
    rw [bind_ok made]
  · rw [if_neg account] at made ⊢
    rw [bind_error made]

theorem blind_job (settings : Settings String) :
    (do Batch.start ⟨settings, ← a.input.needed, a.output, macros, mapping⟩ : Run Unit).Blind :=
  (blind_needed a.input).bind (fun _ => Batch.blind_start _)

theorem work_log (told : Settings Text) (w : World) : ∃ quiet since,
    (final (a.work told mapping macros w)).events = w.events ++ quiet ++ since ∧
      (∀ e ∈ quiet, e.isCloud = false) ∧
      (since ≠ [] → hasAccount w.shell = true ∧ ∃ number : String, told.project.number = number ∧
        [.ran ("gcloud config set project " ++ number), .asked "gcloud config list"] <:+: quiet) := by
  cases h : told.strings with
  | error t =>
    rw [work_refused a mapping macros h]
    exact ⟨[.note .verifying], [], (List.append_nil _).symm, by simp [Event.isCloud],
      fun h => absurd rfl h⟩
  | ok settings =>
    have silent : ∀ e ∈ .note .verifying :: steps settings.project.number w, e.isCloud = false := by
      intro e he
      rcases List.mem_cons.mp he with rfl | step
      · rfl
      · exact steps_not_cloud _ w e step
    rw [work_eq a mapping macros h]
    by_cases account : hasAccount w.shell = true
    · rw [if_pos account]
      obtain ⟨since, log⟩ := (blind_job a mapping macros settings).extends_log
        (checked settings.project.number w)
      refine ⟨_, since, log, silent, fun _ => ⟨account, _, Settings.number_of_strings h, ?_⟩⟩
      exact List.IsInfix.trans ⟨[.note .projectCheck], [.note (.cloudSettings w.shell.configList)], rfl⟩
        ((List.suffix_append _ _).trans (List.suffix_cons _ _)).isInfix
    · rw [if_neg account]
      exact ⟨_, [], (List.append_nil _).symm, silent, fun h => absurd rfl h⟩

theorem work_same (told : Settings Text) {w v : World} (h : SameDeeds w v)
    (auth : v.shell.authList = w.shell.authList) (account : hasAccount v.shell = hasAccount w.shell) :
    Alike SameDeeds (a.work told mapping macros w) (a.work told mapping macros v) := by
  cases hs : told.strings with
  | error t =>
    rw [work_refused a mapping macros hs, work_refused a mapping macros hs]
    exact .error _ (h.logging rfl)
  | ok settings =>
    have same := h.checked auth settings.project.number
    rw [work_eq a mapping macros hs, work_eq a mapping macros hs, account]
    by_cases there : hasAccount w.shell = true
    · rw [if_pos there, if_pos there]
      exact same.blind (blind_job a mapping macros settings)
    · rw [if_neg there, if_neg there]
      exact .error _ same

end Work

theorem runJob_same (a : Arguments) {w v : World} (h : SameDeeds w v)
    (auth : v.shell.authList = w.shell.authList) (account : hasAccount v.shell = hasAccount w.shell) :
    Alike SameDeeds (runJob a w) (runJob a v) := by
  have disk : v.disk = w.disk := by rw [h.rest]
  obtain ⟨notes, run⟩ := a.tells_loadAll w
  obtain ⟨notes', run'⟩ := a.tells_loadAll v
  have noted := h.noting notes notes'
  rw [disk] at run'
  rw [runJob_eq]
  dsimp only at run run'
  cases hd : a.documents w.disk with
  | error failure =>
    rw [hd] at run run'
    rw [bind_error run, bind_error run']
    exact .error _ noted
  | ok documents =>
    rw [hd] at run run'
    rw [bind_ok run, bind_ok run']
    exact work_same a _ _ _ noted auth account

theorem quiet_before {quiet since before after : List Event} {e : Event}
    (split : quiet ++ since = before ++ e :: after) (silent : ∀ e ∈ quiet, e.isCloud = false)
    (cloud : e.isCloud = true) : quiet <+: before ∧ since ≠ [] := by
  rcases List.append_eq_append_iff.mp split with ⟨middle, rfl, rfl⟩ | ⟨middle, rfl, tail⟩
  · exact ⟨List.prefix_append _ _, by simp⟩
  · cases middle with
    | nil => exact ⟨by simp, by rintro rfl; cases tail⟩
    | cons x middle =>
      obtain ⟨rfl, rfl⟩ := List.cons.inj tail
      have told := silent e (by simp)
      rw [cloud] at told
      cases told

theorem runJob_log (a : Arguments) (w : World) : ∃ quiet since,
    (final (runJob a w)).events = w.events ++ quiet ++ since ∧ (∀ e ∈ quiet, e.isCloud = false) ∧
      (since ≠ [] → hasAccount w.shell = true ∧
        ∃ settings, ∃ number : String, Format.settings.document a.config w.disk = .ok settings ∧
          settings.project.number = number ∧
          [.ran ("gcloud config set project " ++ number), .asked "gcloud config list"] <:+: quiet) := by
  have silent : ∀ (notes : List Note), ∀ e ∈ notes.map Event.note, e.isCloud = false := by
    rintro notes _ he
    obtain ⟨n, _, rfl⟩ := List.mem_map.mp he
    rfl
  rw [runJob_eq]
  obtain ⟨failure, notes, _, run⟩ | ⟨⟨settings, mapping, macros⟩, notes, loaded, run⟩ :=
    bind_document a.tells_loadAll (fun loaded => a.work loaded.1 loaded.2.1 loaded.2.2) w
  · rw [run]
    exact ⟨notes.map .note, [], (List.append_nil _).symm, silent notes, fun h => absurd rfl h⟩
  · rw [run]
    obtain ⟨quiet, since, log, later, cleared⟩ := work_log a mapping macros settings (w.noting notes)
    refine ⟨notes.map .note ++ quiet, since, ?_, ?_, fun h => ?_⟩
    · rw [log, ← List.append_assoc]
      rfl
    · intro e he
      rcases List.mem_append.mp he with noted | checked
      · exact silent notes e noted
      · exact later e checked
    · obtain ⟨account, number, same, steps⟩ := cleared h
      exact ⟨account, settings, number, a.settings_of_documents loaded, same,
        steps.trans (List.suffix_append _ _).isInfix⟩

/-- Whatever the command line, the disk and the shell are like: a call to the storage or to the
migration service is made only where the shell tool has shown an account, after it was set to the
project of the settings. What else it has shown plays no role: another text that shows an account as
well, or none as well, leads to the same deeds. -/
theorem runJob_cleared (a : Arguments) (w : World) :
    (∀ before e after, (final (runJob a w)).events = w.events ++ before ++ e :: after →
      e.isCloud = true → holds "account =" w.shell.configList = true ∧
        ∃ settings, ∃ number : String, Format.settings.document a.config w.disk = .ok settings ∧
          settings.project.number = number ∧
          [.ran ("gcloud config set project " ++ number), .asked "gcloud config list"] <:+: before) ∧
      ∀ shown, holds "account =" shown = holds "account =" w.shell.configList →
        Alike SameDeeds (runJob a w)
          (runJob a { w with shell := { w.shell with configList := shown } }) := by
  refine ⟨fun before e after log cloud => ?_, fun shown account => ?_⟩
  · obtain ⟨quiet, since, log', silent, cleared⟩ := runJob_log a w
    rw [log', List.append_assoc, List.append_assoc] at log
    obtain ⟨earlier, nonempty⟩ := quiet_before (List.append_cancel_left log) silent cloud
    obtain ⟨there, settings, number, loaded, same, steps⟩ := cleared nonempty
    exact ⟨there, settings, number, loaded, same, steps.trans earlier.isInfix⟩
  · exact runJob_same a ⟨rfl, rfl⟩ rfl account

def plain : Arguments where
  verbose := false
  config := .path "c.yaml"
  input := .path "in"
  output := .path "out"
  macros := none
  mapping := none

def office (shown : String) : World :=
  { desk [("c.yaml", settingsText)] [(["w", "in"], .directory)] with
    storage := ⟨[("b", [])], []⟩
    service := ⟨none, .ok "workflows/1", [], .ok []⟩
    shell := ⟨"", shown⟩ }

def ownProject : String := "account = me\nproject = 1"

theorem cloud_office : ∃ e ∈ (final (runJob plain (office ownProject))).events, e.isCloud = true := by
  have loaded : plain.documents (office ownProject).disk = .ok (toldSettings, none, none) := by
    have told : Format.settings.document plain.config (office ownProject).disk = .ok toldSettings :=
      settings_desk _ _
    rw [Arguments.documents, told]
    rfl
  -- the work itself is evaluated without the notes on the documents, which are no deeds
  have worked : (final (plain.work toldSettings none none (office ownProject))).events.any
      Event.isCloud = true := by
    decide +kernel
  obtain ⟨notes, run⟩ := plain.tells_loadAll (office ownProject)
  dsimp only at run
  rw [loaded] at run
  have same : SameDeeds (office ownProject) ((office ownProject).noting notes) := by
    have noted := (⟨rfl, rfl⟩ : SameDeeds (office ownProject) (office ownProject)).noting [] notes
    rwa [World.noting_nil] at noted
  rw [runJob_eq, bind_ok run]
  exact (work_same plain none none toldSettings same rfl rfl).final.cloud (List.any_eq_true.mp worked)

theorem runJob_cleared_office : ∃ before e after,
    (final (runJob plain (office ownProject))).events = before ++ e :: after ∧ e.isCloud = true ∧
      holds "account =" ownProject = true ∧ ∃ settings, ∃ number : String,
        Format.settings.document plain.config (office ownProject).disk = .ok settings ∧
          settings.project.number = number ∧
          [.ran ("gcloud config set project " ++ number), .asked "gcloud config list"] <:+: before := by
  obtain ⟨e, there, cloud⟩ := cloud_office
  obtain ⟨before, after, split⟩ := List.append_of_mem there
  exact ⟨before, e, after, split, cloud,
    (runJob_cleared plain (office ownProject)).1 before e after split cloud⟩

theorem number_office (shown : String) : ∃ settings,
    Format.settings.document plain.config (office shown).disk = .ok settings ∧
      settings.project.number = "1" :=
  ⟨toldSettings, settings_desk _ _, rfl⟩

/-- The shell tool works with another project, and the calls are made all the same. -/
theorem runJob_other_project :
    let w := office "account = me\nproject = 2"
    (∃ settings, ∃ number : String, Format.settings.document plain.config w.disk = .ok settings ∧
        settings.project.number = number ∧
        holds ("project = " ++ number) w.shell.configList = false) ∧
      ∃ e ∈ (final (runJob plain w)).events, e.isCloud = true := by
  intro w
  obtain ⟨settings, loaded, number⟩ := number_office "account = me\nproject = 2"
  refine ⟨⟨settings, "1", loaded, number, by decide⟩, ?_⟩
  have same : SameDeeds (office ownProject) w := ⟨rfl, rfl⟩
  exact (runJob_same plain same rfl (by decide)).final.cloud cloud_office

end CommandLine

end SqlMigration
