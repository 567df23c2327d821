import SqlMigration.CommandLine.Arguments
import SqlMigration.Proofs.Files.Removal
import SqlMigration.Proofs.Job.Keeping

/-!
# What reading the command line does to the disk

The values that the words give for the output are cleared away as they are met,
and nothing else changes. So a path that was found in order stays so, unless one
of those values, taken at the start, names an entry on the way to it.
-/

set_option autoImplicit false

namespace SqlMigration

open Effect Files

namespace PathCheck

theorem keeps_kind (I : World → Prop) (path : String) : Keeps I (kind path) := by
  refine Run.keeps_disk_bind (fun w hw => ?_)
  cases w.disk.node true path with
  | ok n => exact hw
  | error r => cases r <;> exact hw

theorem kind_ok {path : String} {w w' : World} {x : Option Node} (h : kind path w = .ok x w') :
    w' = w ∧ ∀ n, x = some n → w.disk.node true path = .ok n := by
  rw [kind, bind_ok (show Run.disk w = .ok w.disk w from rfl)] at h
  cases found : w.disk.node true path with
  | ok n =>
    rw [found] at h
    cases h
    exact ⟨rfl, fun m e => by rw [Option.some.inj e]⟩
  | error r =>
    rw [found] at h
    cases r with
    | nameTooLong => cases h
    | _ =>
      cases h
      exact ⟨rfl, fun _ e => nomatch e⟩

theorem keeps_file (I : World → Prop) (given : String) : Keeps I (file given) := by
  refine Keeps.bind (keeps_kind I _) (fun x => ?_)
  split
  · exact Keeps.pure _
  · exact Keeps.throw _

theorem keeps_directory (I : World → Prop) (given : String) : Keeps I (directory given) := by
  refine Keeps.bind (keeps_kind I _) (fun x => ?_)
  split
  · exact Keeps.pure _
  · exact Keeps.throw _

theorem file_ok {given c : String} {w w' : World} (h : file given w = .ok c w') :
    w.disk.isFile c = true := by
  obtain ⟨x, w₁, looked, done⟩ := ok_of_bind h
  obtain ⟨rfl, found⟩ := kind_ok looked
  split at done
  · next content =>
    cases done
    unfold Disk.isFile
    rw [found _ rfl]
  · cases done

theorem directory_ok {given c : String} {w w' : World} (h : directory given w = .ok c w') :
    w.disk.isDirectory c = true := by
  obtain ⟨x, w₁, looked, done⟩ := ok_of_bind h
  obtain ⟨rfl, found⟩ := kind_ok looked
  split at done
  · cases done
    unfold Disk.isDirectory
    rw [found _ rfl]
  · cases done

section Clearing

variable {d : Disk} {lost : Place → Prop}

theorem keeps_clear {path : String} (within : ∀ q, Covers d path q → lost q) :
    Keeps (fun w => Pruned d w.disk lost) (clear path) := by
  have unlinking : Keeps (fun w => Pruned d w.disk lost) (do
      if (← Run.disk).isFile path then Run.files (Files.unlink path)) :=
    Run.keeps_disk_bind (fun w hw =>
      Keeps.ite (fun _ => Run.keeps_files_of (keeps_unlink within)) (fun _ => Keeps.pure _) w hw)
  refine Run.keeps_disk_bind (fun w hw => ?_)
  exact Keeps.ite
    (fun _ => Keeps.bind (Run.keeps_files_of (keeps_removeTree within)) (fun _ => unlinking))
    (fun _ => unlinking) w hw

theorem keeps_free {given : String} (within : ∀ q, Covers d (Path.tidy given) q → lost q)
    (force : Bool) : Keeps (fun w => Pruned d w.disk lost) (free force given) := by
  refine Keeps.bind (keeps_kind _ _) (fun x => ?_)
  split
  · exact Keeps.pure _
  · exact Keeps.ite (fun _ => Keeps.bind (keeps_clear within) (fun _ => Keeps.pure _))
      (fun _ => Keeps.throw _)

end Clearing

end PathCheck

namespace CommandLine

/-! ### The values of the output -/

/-- The deeds that the words stand for, up to the first word that ends the reading by itself, and
whether there is no such word. -/
def plan : List (String × Word) → List Deed × Bool
  | [] => ([], true)
  | (_, .known o short value) :: rest =>
    match readOption o short value rest with
    | .ok r => if r.deed = .help then ([], false) else (r.deed :: (plan rest).1, (plan rest).2)
    | .error _ => ([], false)
  | _ :: rest => plan rest

def Deed.output? : Deed → Option String
  | .value .output given => some given
  | _ => none

/-- The values of the output that are met in reading: those that the command line gives; its default,
if there are none and the reading comes to the end. -/
def outputs (argv : List String) : List String :=
  let words := classifyAll argv
  if (firstAmbiguous? words).isSome then []
  else
    match (plan words).1.filterMap Deed.output? with
    | [] => if (plan words).2 then Opt.output.default?.toList else []
    | given => given

/-- A value for the output names an entry of the disk that is at the place or above it. -/
def Lost (d : Disk) (argv : List String) (q : Place) : Prop :=
  ∃ v ∈ outputs argv, Covers d (Path.tidy v) q

instance (d : Disk) (argv : List String) (q : Place) : Decidable (Lost d argv q) :=
  inferInstanceAs (Decidable (∃ v ∈ outputs argv, Covers d (Path.tidy v) q))

/-- No place on the way along a path is lost to the output. -/
def Spared (d : Disk) (argv : List String) (path : String) : Prop :=
  ∀ q ∈ d.passed path, ¬ Lost d argv q

instance (d : Disk) (argv : List String) (path : String) : Decidable (Spared d argv path) :=
  inferInstanceAs (Decidable (∀ q ∈ d.passed path, ¬ Lost d argv q))

theorem output?_eq_some {deed : Deed} {v : String} :
    deed.output? = some v ↔ deed = .value .output v := by
  unfold Deed.output?
  split <;> simp_all

theorem readLetters_help {rest : List (String × Word)} {letters : List Char} {r : Reading}
    (h : readLetters rest letters = .ok r) : r.deed = .help := by
  induction letters with
  | nil =>
    cases h
    rfl
  | cons c cs ih =>
    unfold readLetters at h
    split at h
    · cases h
    · next o _ =>
      split_ifs at h
      · exact ih h
      · cases hn : nextValue o rest with
        | error f =>
          rw [hn] at h
          cases h
        | ok n =>
          rw [hn] at h
          cases h
          rfl
      · cases h
        rfl

theorem nextValue_plain {o : Opt} {rest : List (String × Word)} {r : Reading}
    (h : nextValue o rest = .ok r) : ∀ x ∈ rest.take r.taken, x.2 = .plain := by
  unfold nextValue at h
  split at h
  · next given tail =>
    cases h
    intro x hx
    have e : x = (given, .plain) := by simpa using hx
    rw [e]
  · cases h

theorem readOption_plain {o : Opt} {short : Bool} {value : Option String}
    {rest : List (String × Word)} {r : Reading} (h : readOption o short value rest = .ok r)
    (on : r.deed ≠ .help) : ∀ x ∈ rest.take r.taken, x.2 = .plain := by
  unfold readOption at h
  split at h
  · split_ifs at h
    · exact nextValue_plain h
    all_goals
      cases h
      simp
  · split_ifs at h
    · cases h
      simp
    · exact absurd (readLetters_help h) on

theorem plan_known (word : String) {o : Opt} {short : Bool} {value : Option String}
    {rest : List (String × Word)} {r : Reading} (h : readOption o short value rest = .ok r)
    (on : r.deed ≠ .help) :
    plan ((word, .known o short value) :: rest) = (r.deed :: (plan rest).1, (plan rest).2) := by
  rw [plan, h]
  exact if_neg on

theorem plan_drop {rest : List (String × Word)} {n : Nat}
    (plain : ∀ x ∈ rest.take n, x.2 = .plain) : plan (rest.drop n) = plan rest := by
  induction n generalizing rest with
  | zero => rfl
  | succ n ih =>
    cases rest with
    | nil => rfl
    | cons x rest =>
      obtain ⟨word, kind⟩ := x
      have first : kind = .plain := plain (word, kind) List.mem_cons_self
      rw [first, List.drop_succ_cons]
      exact ih (fun y hy => plain y (List.mem_cons_of_mem _ hy))

section Outputs

variable {argv : List String} (clear : firstAmbiguous? (classifyAll argv) = none)
include clear

theorem mem_outputs {v : String} (h : Deed.value .output v ∈ (plan (classifyAll argv)).1) :
    v ∈ outputs argv := by
  have given : v ∈ (plan (classifyAll argv)).1.filterMap Deed.output? :=
    List.mem_filterMap.mpr ⟨_, h, rfl⟩
  have unmistaken : ¬ (firstAmbiguous? (classifyAll argv)).isSome = true := by simp [clear]
  simp only [outputs, if_neg unmistaken]
  split
  · next none =>
    rw [none] at given
    cases given
  · exact given

theorem default_mem_outputs (h : ∀ v, Deed.value .output v ∉ (plan (classifyAll argv)).1)
    (whole : (plan (classifyAll argv)).2 = true) {v : String} (hv : Opt.output.default? = some v) :
    v ∈ outputs argv := by
  have none : (plan (classifyAll argv)).1.filterMap Deed.output? = [] := by
    rw [List.filterMap_eq_nil_iff]
    intro deed hd
    cases ho : deed.output? with
    | none => rfl
    | some u =>
      rw [output?_eq_some.mp ho] at hd
      exact absurd hd (h u)
  simp [outputs, clear, none, whole, hv]

end Outputs

/-! ### Values in order -/

def InOrder (d : Disk) (path : String) : Opt → Prop
  | .input => d.isDirectory path = true
  | .output => True
  | _ => d.isFile path = true

/-- A value in order: a path on whose way nothing gets lost is in order, and a blank comes from a
double dash. -/
def Meets (d : Disk) (lost : Place → Prop) (given : List Deed) (o : Opt) : Given → Prop
  | .blank => .value o "--" ∈ given
  | .path c => (∀ q ∈ d.passed c, ¬ lost q) → InOrder d c o

section Reading

variable {d : Disk} {lost : Place → Prop} {given : List Deed}

theorem inOrder_of_pruned {e : Disk} (pruned : Pruned d e lost) {path : String}
    (spared : ∀ q ∈ d.passed path, ¬ lost q) (o : Opt) : InOrder e path o ↔ InOrder d path o := by
  have same : e.node true path = d.node true path := by
    simp only [Disk.node, pruned.find_eq spared]
  cases o <;> simp only [InOrder, Disk.isFile, Disk.isDirectory, same]

theorem keeps_check {o : Opt} {v : String}
    (within : o = .output → ∀ q, Covers d (Path.tidy v) q → lost q) :
    Keeps (fun w => Pruned d w.disk lost) (check o v) := by
  cases o with
  | input => exact PathCheck.keeps_directory _ v
  | output => exact PathCheck.keeps_free (within rfl) true
  | help => exact PathCheck.keeps_file _ v
  | verbose => exact PathCheck.keeps_file _ v
  | config => exact PathCheck.keeps_file _ v
  | macros => exact PathCheck.keeps_file _ v
  | mapping => exact PathCheck.keeps_file _ v

theorem check_ok {o : Opt} {v c : String} {w w' : World} (h : check o v w = .ok c w') :
    InOrder w.disk c o := by
  cases o with
  | input => exact PathCheck.directory_ok h
  | output => exact trivial
  | help => exact PathCheck.file_ok h
  | verbose => exact PathCheck.file_ok h
  | config => exact PathCheck.file_ok h
  | macros => exact PathCheck.file_ok h
  | mapping => exact PathCheck.file_ok h

variable (program : String)

theorem keeps_convert {o : Opt} {v : String}
    (within : o = .output → ∀ q, Covers d (Path.tidy v) q → lost q) :
    Keeps (fun w => Pruned d w.disk lost) (convert program o v) := by
  refine Keeps.ite (fun _ => Keeps.pure _) (fun _ => Keeps.tryCatch ?_ (fun stop => ?_))
  · exact Keeps.bind (keeps_check within) (fun _ => Keeps.pure _)
  · split <;> exact Keeps.throw _

variable {program}

theorem convert_meets {o : Opt} {v : String} {g : Given} {w w' : World}
    (h : convert program o v w = .ok g w') (pruned : Pruned d w.disk lost)
    (dash : v = "--" → .value o v ∈ given) : Meets d lost given o g := by
  unfold convert at h
  by_cases blank : v = "--"
  · rw [if_pos blank] at h
    cases h
    rw [blank] at dash
    exact dash rfl
  · rw [if_neg blank] at h
    cases hc : check o v w with
    | error stop w₁ =>
      rw [tryCatch_error (bind_error hc)] at h
      split at h <;> cases h
    | ok c w₁ =>
      have done : (do return Given.path (← check o v) : Run Given) w = .ok (.path c) w₁ := bind_ok hc
      rw [tryCatch_ok done] at h
      cases h
      exact fun spared => (inOrder_of_pruned pruned spared o).mp (check_ok hc)

/-- The state of affairs while `words` are still to be read, of words that stand for `given`. -/
structure Ongoing (d : Disk) (lost : Place → Prop) (given : List Deed) (whole : Bool)
    (words : List (String × Word)) (p : Progress) (w : World) : Prop where
  pruned : Pruned d w.disk lost
  left : ∀ deed ∈ (plan words).1, deed ∈ given
  whole : (plan words).2 = whole
  inOrder : ∀ o g, (o, g) ∈ p.values → Meets d lost given o g
  output : ∀ v, .value .output v ∈ given →
    .value .output v ∈ (plan words).1 ∨ p.values.lookup .output ≠ none

variable {whole : Bool} (within : ∀ v, .value .output v ∈ given → ∀ q, Covers d (Path.tidy v) q → lost q)

include within in
theorem keeps_perform (p : Progress) {deed : Deed} (mem : deed ≠ .help → deed ∈ given) :
    Keeps (fun w => Pruned d w.disk lost) (perform program p deed) := by
  cases deed with
  | help => exact Keeps.throw _
  | verbose => exact Keeps.pure _
  | value o v =>
    refine Keeps.bind (keeps_convert program ?_) (fun _ => Keeps.pure _)
    rintro rfl
    exact within v (mem (fun e => nomatch e))

theorem perform_meets {p p' : Progress} {deed : Deed} {w w' : World}
    (h : perform program p deed w = .ok p' w') (pruned : Pruned d w.disk lost)
    (mem : deed ∈ given) (before : ∀ o g, (o, g) ∈ p.values → Meets d lost given o g) :
    ∀ o g, (o, g) ∈ p'.values → Meets d lost given o g := by
  cases deed with
  | help => cases h
  | verbose =>
    cases h
    exact before
  | value u v =>
    obtain ⟨x, w₁, converted, done⟩ := ok_of_bind h
    cases done
    intro o g hg
    rcases List.mem_cons.mp hg with e | old
    · cases e
      exact convert_meets converted pruned (fun _ => mem)
    · exact before o g old

theorem perform_output {p p' : Progress} {deed : Deed} {w w' : World}
    (h : perform program p deed w = .ok p' w')
    (has : (∃ v, deed = .value .output v) ∨ p.values.lookup .output ≠ none) :
    p'.values.lookup .output ≠ none := by
  cases deed with
  | help => cases h
  | verbose =>
    cases h
    rcases has with ⟨v, e⟩ | old
    · cases e
    · exact old
  | value o v =>
    obtain ⟨x, w₁, -, done⟩ := ok_of_bind h
    cases done
    by_cases e : o = .output
    · rw [e, List.lookup_cons_self]
      exact Option.some_ne_none x
    · rcases has with ⟨u, eq⟩ | old
      · cases eq
        exact absurd rfl e
      · have other : (Opt.output == o) = false := beq_false_of_ne (Ne.symm e)
        rwa [List.lookup_cons, other]

theorem Ongoing.mem {word : String} {o : Opt} {short : Bool} {value : Option String}
    {rest : List (String × Word)} {p : Progress} {w : World} {r : Reading}
    (h : Ongoing d lost given whole ((word, .known o short value) :: rest) p w)
    (hr : readOption o short value rest = .ok r) (on : r.deed ≠ .help) : r.deed ∈ given := by
  apply h.left
  rw [plan_known word hr on]
  exact List.mem_cons_self

include within in
theorem Ongoing.perform {word : String} {o : Opt} {short : Bool} {value : Option String}
    {rest : List (String × Word)} {p p' : Progress} {w w' : World} {r : Reading}
    (h : Ongoing d lost given whole ((word, .known o short value) :: rest) p w)
    (hr : readOption o short value rest = .ok r)
    (done : CommandLine.perform program p r.deed w = .ok p' w') :
    Ongoing d lost given whole (rest.drop r.taken) p' w' := by
  have on : r.deed ≠ .help := by
    intro e
    rw [e] at done
    cases done
  have mem := h.mem hr on
  obtain ⟨pruned, left, whole, inOrder, output⟩ := h
  rw [plan_known word hr on] at left whole output
  rw [← plan_drop (readOption_plain hr on)] at left whole output
  refine ⟨(keeps_perform within p (fun _ => mem)).of_ok pruned done,
    fun deed hd => left deed (List.mem_cons_of_mem _ hd), whole,
    perform_meets done pruned mem inOrder, fun v hv => ?_⟩
  rcases output v hv with there | has
  · rcases List.mem_cons.mp there with now | later
    · exact Or.inr (perform_output done (Or.inl ⟨v, now.symm⟩))
    · exact Or.inl later
  · exact Or.inr (perform_output done (Or.inr has))

theorem Ongoing.aside {x : String × Word} {rest : List (String × Word)} {p : Progress} {w : World}
    (same : plan (x :: rest) = plan rest) (h : Ongoing d lost given whole (x :: rest) p w)
    (extras : List String) : Ongoing d lost given whole rest { p with extras := extras } w := by
  obtain ⟨pruned, left, whole, inOrder, output⟩ := h
  rw [same] at left whole output
  exact ⟨pruned, left, whole, inOrder, output⟩

theorem readWords_error (p : Progress) (word : String) {o : Opt} {short : Bool}
    {value : Option String} {rest : List (String × Word)} {f : Fault}
    (h : readOption o short value rest = .error f) :
    readWords program p 0 ((word, .known o short value) :: rest) = reject program f := by
  simp only [readWords, h]

theorem readWords_known (p : Progress) (word : String) {o : Opt} {short : Bool}
    {value : Option String} {rest : List (String × Word)} {r : Reading}
    (h : readOption o short value rest = .ok r) :
    readWords program p 0 ((word, .known o short value) :: rest) =
      (perform program p r.deed >>= fun p => readWords program p r.taken rest) := by
  simp only [readWords, h]

include within in
/-- Reading goes from one state of affairs to the next, to the end of the words or to a stop. -/
theorem readWords_ongoing (words : List (String × Word)) {p : Progress} {skip : Nat} {w : World}
    (h : Ongoing d lost given whole (words.drop skip) p w) :
    match readWords program p skip words w with
    | .ok p' w' => Ongoing d lost given whole [] p' w'
    | .error _ w' => Pruned d w'.disk lost := by
  induction words generalizing p skip w with
  | nil =>
    rw [List.drop_nil] at h
    exact h
  | cons x rest ih =>
    obtain ⟨word, kind⟩ := x
    cases skip with
    | succ k => exact ih h
    | zero =>
      cases kind with
      | plain => exact @ih _ 0 _ (h.aside rfl _)
      | unknown => exact @ih _ 0 _ (h.aside rfl _)
      | ambiguous candidates => exact @ih _ 0 _ (h.aside rfl _)
      | known o short value =>
        cases hr : readOption o short value rest with
        | error f =>
          rw [readWords_error p word hr]
          exact h.pruned
        | ok r =>
          rw [readWords_known p word hr]
          cases hp : perform program p r.deed w with
          | error e w₁ =>
            rw [bind_error hp]
            exact (keeps_perform within p (h.mem hr)).of_error h.pruned hp
          | ok p₁ w₁ =>
            rw [bind_ok hp]
            exact ih (h.perform within hr hp)

theorem keeps_valueOr {p : Progress} {o : Opt}
    (within : ∀ v, o = .output → p.values.lookup o = none → o.default? = some v →
      ∀ q, Covers d (Path.tidy v) q → lost q) :
    Keeps (fun w => Pruned d w.disk lost) (valueOr program p o) := by
  cases hl : p.values.lookup o with
  | some v =>
    simp only [valueOr, hl]
    exact Keeps.pure _
  | none =>
    cases hd : o.default? with
    | none =>
      simp only [valueOr, hl, hd]
      exact Keeps.pure _
    | some v =>
      simp only [valueOr, hl, hd]
      exact Keeps.bind (keeps_convert program (fun e => within v e hl hd)) (fun _ => Keeps.pure _)

theorem default?_ne_dash (o : Opt) : o.default? ≠ some "--" := by
  cases o <;> decide

theorem valueOr_meets {p : Progress} {o : Opt} {x : Option Given} {w w' : World}
    (h : valueOr program p o w = .ok x w') (pruned : Pruned d w.disk lost)
    (inOrder : ∀ o g, (o, g) ∈ p.values → Meets d lost given o g) :
    (∀ g ∈ x, Meets d lost given o g) ∧ (x = none → o.default? = none) := by
  cases hl : p.values.lookup o with
  | some v =>
    simp only [valueOr, hl] at h
    cases h
    refine ⟨fun g hg => ?_, fun e => nomatch e⟩
    cases hg
    obtain ⟨before, after, split, -⟩ := List.lookup_eq_some_iff.mp hl
    exact inOrder o v (by simp [split])
  | none =>
    cases hd : o.default? with
    | none =>
      simp only [valueOr, hl, hd] at h
      cases h
      exact ⟨fun g hg => (nomatch hg), fun _ => rfl⟩
    | some v =>
      simp only [valueOr, hl, hd] at h
      obtain ⟨g, w₁, converted, done⟩ := ok_of_bind h
      cases done
      refine ⟨fun g' hg => ?_, fun e => nomatch e⟩
      cases hg
      refine convert_meets converted pruned (fun e => ?_)
      exact absurd (e ▸ hd) (default?_ne_dash o)

end Reading

/-! ### The whole command line -/

def Arguments.value? (a : Arguments) : Opt → Option Given
  | .config => some a.config
  | .input => some a.input
  | .output => some a.output
  | .macros => a.macros
  | .mapping => a.mapping
  | _ => none

section Whole

variable {d : Disk} {argv : List String} (clear : firstAmbiguous? (classifyAll argv) = none)
include clear

theorem lost_of_given (v : String) (h : Deed.value .output v ∈ (plan (classifyAll argv)).1)
    (q : Place) (covers : Covers d (Path.tidy v) q) : Lost d argv q :=
  ⟨v, mem_outputs clear h, covers⟩

theorem lost_of_default {p : Progress} {w : World}
    (h : Ongoing d (Lost d argv) (plan (classifyAll argv)).1 (plan (classifyAll argv)).2 [] p w)
    (o : Opt) (v : String) (output : o = .output) (none : p.values.lookup o = none)
    (hv : o.default? = some v) (q : Place) (covers : Covers d (Path.tidy v) q) : Lost d argv q := by
  subst output
  refine ⟨v, default_mem_outputs clear (fun u hu => ?_) h.whole.symm hv, covers⟩
  rcases h.output u hu with there | has
  · cases there
  · exact has none

end Whole

theorem ongoing_start (argv : List String) {d : Disk} {w : World}
    (pruned : Pruned d w.disk (Lost d argv)) :
    Ongoing d (Lost d argv) (plan (classifyAll argv)).1 (plan (classifyAll argv)).2
      (classifyAll argv) ⟨false, [], []⟩ w :=
  ⟨pruned, fun _ hd => hd, rfl, fun _ _ hg => (nomatch hg), fun _ hv => Or.inl hv⟩

theorem keeps_arguments (program : String) (argv : List String) (d : Disk) :
    Keeps (fun w => Pruned d w.disk (Lost d argv)) (arguments program argv) := by
  intro w pruned
  unfold arguments
  cases clear : firstAmbiguous? (classifyAll argv) with
  | some f => exact pruned
  | none =>
    dsimp only
    have read := @readWords_ongoing d _ _ program _ (lost_of_given clear) (classifyAll argv) _ 0 w
      (ongoing_start argv pruned)
    cases hp : readWords program ⟨false, [], []⟩ 0 (classifyAll argv) w with
    | error e w₁ =>
      rw [hp] at read
      rw [bind_error hp]
      exact read
    | ok p w₁ =>
      rw [hp] at read
      rw [bind_ok hp]
      have default := fun o => @keeps_valueOr d _ program p o (lost_of_default clear read o)
      refine (default .config).bind (fun _ => (default .input).bind (fun _ =>
        (default .output).bind (fun _ => (default .macros).bind (fun _ =>
          (default .mapping).bind (fun _ => ?_))))) w₁ read.pruned
      exact Keeps.ite (fun _ => Keeps.throw _) (fun _ => Keeps.pure _)

theorem meets_getD {d : Disk} {lost : Place → Prop} {given : List Deed} {o : Opt} {x : Option Given}
    (h : (∀ g ∈ x, Meets d lost given o g) ∧ (x = none → o.default? = none))
    (default : o.default? ≠ none) : Meets d lost given o (x.getD .blank) := by
  cases x with
  | none => exact absurd (h.2 rfl) default
  | some g => exact h.1 g rfl

theorem arguments_meets {program : String} {argv : List String} {a : Arguments} {w w' : World}
    (h : arguments program argv w = .ok a w') {o : Opt} {g : Given} (hg : a.value? o = some g) :
    Meets w.disk (Lost w.disk argv) (plan (classifyAll argv)).1 o g := by
  unfold arguments at h
  cases clear : firstAmbiguous? (classifyAll argv) with
  | some f =>
    rw [clear] at h
    cases h
  | none =>
    rw [clear] at h
    obtain ⟨p, w₁, hp, h⟩ := ok_of_bind h
    have read := @readWords_ongoing w.disk _ _ program _ (lost_of_given clear) (classifyAll argv) _ 0 w
      (ongoing_start argv (Pruned.refl _ _))
    rw [hp] at read
    have default := fun o => @keeps_valueOr w.disk _ program p o (lost_of_default clear read o)
    obtain ⟨config, w₂, h₁, h⟩ := ok_of_bind h
    have pruned₂ := (default .config).of_ok read.pruned h₁
    obtain ⟨input, w₃, h₂, h⟩ := ok_of_bind h
    have pruned₃ := (default .input).of_ok pruned₂ h₂
    obtain ⟨output, w₄, h₃, h⟩ := ok_of_bind h
    have pruned₄ := (default .output).of_ok pruned₃ h₃
    obtain ⟨macros, w₅, h₄, h⟩ := ok_of_bind h
    have pruned₅ := (default .macros).of_ok pruned₄ h₄
    obtain ⟨mapping, w₆, h₅, h⟩ := ok_of_bind h
    split_ifs at h
    · cases h
    · cases h
      cases o with
      | help => cases hg
      | verbose => cases hg
      | config =>
        cases hg
        exact meets_getD (valueOr_meets h₁ read.pruned read.inOrder) (by decide)
      | input =>
        cases hg
        exact meets_getD (valueOr_meets h₂ pruned₂ read.inOrder) (by decide)
      | output =>
        cases hg
        exact meets_getD (valueOr_meets h₃ pruned₃ read.inOrder) (by decide)
      | macros => exact (valueOr_meets h₄ pruned₄ read.inOrder).1 g hg
      | mapping => exact (valueOr_meets h₅ pruned₅ read.inOrder).1 g hg

/-- A command line that is not accepted changes nothing on the disk, except that entries which it
gives for the output, or what is below them, may be gone. -/
theorem rejection_takes_only_outputs (program : String) (argv : List String) {stop : Stop}
    {w w' : World} (h : arguments program argv w = .error stop w') :
    w'.disk.here = w.disk.here ∧
      ∀ q, w'.disk.tree.node? q = w.disk.tree.node? q ∨
        (w'.disk.tree.node? q = none ∧ Lost w.disk argv q) := by
  have pruned := (keeps_arguments program argv w.disk).of_error (Pruned.refl _ _) h
  exact ⟨pruned.here, pruned.rest⟩

def beside : Disk :=
  ⟨⟨[(["c.yaml"], .file [1]), (["in"], .directory), (["out"], .directory),
    (["out", "c.yaml"], .file [2])]⟩, []⟩

theorem rejection_takes_only_outputs_beside :
    ∃ stop w', arguments "m" ["--output", "out", "--config", "c.yaml", "--bogus"] (.ofDisk beside) =
        .error stop w' ∧
      w'.disk.tree.node? ["c.yaml"] = some (.file [1]) ∧
      w'.disk.tree.node? ["in"] = some .directory := by
  obtain ⟨stop, w', stopped, -⟩ := error_of_run'
    (x := arguments "m" ["--output", "out", "--config", "c.yaml", "--bogus"])
    (s := .ofDisk beside) (f := fun _ => ()) (b := ()) (by decide)
  have kept := (rejection_takes_only_outputs _ _ stopped).2
  refine ⟨stop, w', stopped, ?_, ?_⟩
  · exact (kept ["c.yaml"]).resolve_right (fun gone => absurd gone.2 (by decide))
  · exact (kept ["in"]).resolve_right (fun gone => absurd gone.2 (by decide))

/-- The output is gone although the command line is not accepted. -/
theorem rejection_takes_output :
    ∃ stop w', arguments "m" ["--output", "out", "--bogus"] (.ofDisk beside) = .error stop w' ∧
      w'.disk.tree.node? ["out", "c.yaml"] = none := by
  obtain ⟨stop, w', stopped, gone⟩ := error_of_run'
    (x := arguments "m" ["--output", "out", "--bogus"]) (s := .ofDisk beside)
    (f := fun w => w.disk.tree.node? ["out", "c.yaml"]) (b := none) (by decide)
  exact ⟨stop, w', stopped, gone⟩

/-- A path in the arguments is in order on the disk that is left, unless its way goes through an entry
that the command line gives for the output. A value that is no path was given as a double dash. -/
theorem accepted_paths_in_order (program : String) (argv : List String) {a : Arguments}
    {w w' : World} (h : arguments program argv w = .ok a w') (o : Opt) (g : Given)
    (hg : a.value? o = some g) :
    (∀ c, g = .path c → Spared w.disk argv c → InOrder w'.disk c o) ∧
      (g = .blank → .value o "--" ∈ (plan (classifyAll argv)).1) := by
  have meets := arguments_meets h hg
  have pruned := (keeps_arguments program argv w.disk).of_ok (Pruned.refl _ _) h
  constructor
  · rintro c rfl spared
    exact (inOrder_of_pruned pruned spared o).mpr (meets spared)
  · rintro rfl
    exact meets

theorem accepted_paths_in_order_beside :
    ∃ a w', arguments "m" ["--config", "c.yaml", "--input", "in", "--output", "out"]
        (.ofDisk beside) = .ok a w' ∧
      w'.disk.tree.node? ["out"] = none ∧ a.config = .path "c.yaml" ∧ a.input = .path "in" ∧
      w'.disk.isFile "c.yaml" = true ∧ w'.disk.isDirectory "in" = true := by
  obtain ⟨a, w', accepted, seen⟩ := ok_of_run'_value
    (x := arguments "m" ["--config", "c.yaml", "--input", "in", "--output", "out"])
    (s := .ofDisk beside) (f := fun a w => (w.disk.tree.node? ["out"], a.config, a.input))
    (b := (none, .path "c.yaml", .path "in")) (by decide)
  have gone : w'.disk.tree.node? ["out"] = none := congrArg Prod.fst seen
  have config : a.config = .path "c.yaml" := congrArg (fun x => x.2.1) seen
  have input : a.input = .path "in" := congrArg (fun x => x.2.2) seen
  refine ⟨a, w', accepted, gone, config, input, ?_, ?_⟩
  · exact (accepted_paths_in_order _ _ accepted .config _ rfl).1 _ config (by decide)
  · exact (accepted_paths_in_order _ _ accepted .input _ rfl).1 _ input (by decide)

/-- A configuration below the output is checked and then removed, and a double dash is no file. -/
theorem accepted_config_gone :
    (∃ a w', arguments "m" ["--config", "out/c.yaml", "--input", "in", "--output", "out"]
        (.ofDisk beside) = .ok a w' ∧
      a.config = .path "out/c.yaml" ∧ w'.disk.isFile "out/c.yaml" = false) ∧
    ∃ a w', arguments "m" ["--config=--", "--input", "in", "--output", "out"] (.ofDisk beside) =
        .ok a w' ∧ a.config = .blank := by
  constructor
  · obtain ⟨a, w', accepted, seen⟩ := ok_of_run'_value
      (x := arguments "m" ["--config", "out/c.yaml", "--input", "in", "--output", "out"])
      (s := .ofDisk beside) (f := fun a w => (a.config, w.disk.isFile "out/c.yaml"))
      (b := (.path "out/c.yaml", false)) (by decide)
    exact ⟨a, w', accepted, congrArg Prod.fst seen, congrArg Prod.snd seen⟩
  · obtain ⟨a, w', accepted, seen⟩ := ok_of_run'_value
      (x := arguments "m" ["--config=--", "--input", "in", "--output", "out"])
      (s := .ofDisk beside) (f := fun a _ => a.config) (b := .blank) (by decide)
    exact ⟨a, w', accepted, seen⟩

end CommandLine

end SqlMigration
