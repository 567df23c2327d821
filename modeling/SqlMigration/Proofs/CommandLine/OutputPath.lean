import SqlMigration.Proofs.CommandLine.Reading
import SqlMigration.Proofs.Files.Erasure

/-!
# The path for the output

A path that is claimed by force leads to nothing afterwards. What was there is
gone, and nothing else has changed; above all, what is behind a link stays, also
where the link itself is removed. Without force nothing changes at all, and a
path is refused if and only if something is there.
-/

set_option autoImplicit false

namespace SqlMigration

open Effect Files

namespace Path

theorem named_of_last {s n : String} {front : List Char} (whole : s.toList = front ++ n.toList)
    (nonempty : n ≠ "") (noSlash : '/' ∉ n.toList) : Named s where
  nonempty := by
    rintro rfl
    exact nonempty (String.toList_eq_nil_iff.mp (List.append_eq_nil_iff.mp whole.symm).2)
  noFinalSlash := by
    have chars : n.toList ≠ [] := mt String.toList_eq_nil_iff.mp nonempty
    rw [endsWithSlash, whole, List.getLast?_append_of_ne_nil _ chars, decide_eq_false_iff_not]
    exact fun slash => noSlash (List.mem_of_getLast? slash)

theorem named_tidy (p : String) : Named (tidy p) ∨ IsRoot (tidy p) := by
  have roots : root p = "" ∨ IsRoot (root p) := by
    unfold root
    split
    · exact Or.inl rfl
    · exact Or.inr (Or.inr rfl)
    · exact Or.inr (Or.inl rfl)
  unfold tidy
  rcases List.eq_nil_or_concat ((parts p).filter (· ≠ ".")) with none | ⟨ns, n, kept⟩
  · have bare : ofParts (root p) [] = root p := String.append_empty
    rw [none, bare]
    rcases roots with blank | isRoot
    · rw [blank]
      exact Or.inl (by decide)
    · rw [if_neg isRoot.ne_empty]
      exact Or.inr isRoot
  · rw [List.concat_eq_append] at kept
    have part : n ∈ parts p :=
      List.mem_of_mem_filter (kept ▸ List.mem_append_right ns List.mem_cons_self)
    have last : ∃ front, (ofParts (root p) (ns ++ [n])).toList = front ++ n.toList := by
      change ∃ front, (root p ++ joined (ns ++ [n])).toList = _
      by_cases first : ns = []
      · rw [first, List.nil_append, joined, String.intercalate_singleton, String.toList_append]
        exact ⟨_, rfl⟩
      · rw [joined_concat first, ← String.append_assoc, String.toList_append]
        exact ⟨_, rfl⟩
    obtain ⟨front, whole⟩ := last
    have named := named_of_last whole (parts_nonempty part) (parts_noSlash part)
    rw [kept, if_neg named.nonempty]
    exact Or.inl named

end Path

theorem Files.IsRoot.entry_eq_nil {path : String} (h : IsRoot path) {d : Disk} {p : Place}
    (found : d.find false path = .ok (.node p .directory)) : p = [] := by
  have place := (h.leads d).found (find_directory found)
  cases place
  rfl

namespace PathCheck

open SqlMigration.Path

/-! ### What a path leads to -/

section Kinds

variable {d : Disk} {path : String}

theorem exists?_of_node {x : Node} (h : d.node true path = .ok x) : d.exists? path = true := by
  rw [Disk.exists?, h]

theorem not_exists?_of_node {r : Reason} (h : d.node true path = .error r) : d.exists? path = false := by
  rw [Disk.exists?, h]

theorem node_of_exists? (h : d.exists? path = true) : ∃ x, d.node true path = .ok x := by
  cases found : d.node true path with
  | ok x => exact ⟨x, rfl⟩
  | error r =>
    rw [not_exists?_of_node found] at h
    cases h

theorem exists?_of_isFile (h : d.isFile path = true) : d.exists? path = true := by
  unfold Disk.isFile at h
  cases found : d.node true path with
  | error r =>
    rw [found] at h
    cases h
  | ok x => exact exists?_of_node found

theorem isDirectory_of_entry {p : Place} (found : d.find false path = .ok (.node p .directory)) :
    d.isDirectory path = true := by
  unfold Disk.isDirectory Disk.node
  rw [find_directory found]

theorem not_isFile_of_isDirectory (h : d.isDirectory path = true) : d.isFile path = false := by
  unfold Disk.isDirectory at h
  unfold Disk.isFile
  cases found : d.node true path with
  | error r => rfl
  | ok x =>
    rw [found] at h
    cases x with
    | directory => rfl
    | file content => cases h
    | link target => cases h

theorem isFile_of_exists? (there : d.exists? path = true) (other : d.isDirectory path = false) :
    d.isFile path = true := by
  obtain ⟨p, x, found⟩ := exists?_iff.mp there
  unfold Disk.isDirectory Disk.node at other
  unfold Disk.isFile Disk.node
  rw [found] at other ⊢
  cases x with
  | directory => cases other
  | file content => rfl
  | link target => exact absurd found find_ne_link

end Kinds

/-! ### Clearing -/

def clearFile (path : String) : Run Unit := do
  if (← Run.disk).isFile path then Run.files (unlink path)

theorem clear_eq (path : String) (w : World) : clear path w =
    (if w.disk.isDirectory path then do Run.files (removeTree path); clearFile path
      else clearFile path : Run Unit) w := by
  rw [clear, bind_ok (Run.disk_apply w)]
  cases w.disk.isDirectory path <;> rfl

theorem clearFile_eq (path : String) (w : World) : clearFile path w =
    (if w.disk.isFile path then Run.files (unlink path) else pure () : Run Unit) w := rfl

theorem clearFile_nothing {path : String} {w : World} (h : w.disk.exists? path = false) :
    clearFile path w = .ok () w := by
  have none : w.disk.isFile path = false := by
    rw [Bool.eq_false_iff] at h ⊢
    exact mt exists?_of_isFile h
  rw [clearFile_eq, none]
  rfl

/-- What can be freed: a path that leads to nothing, if it can be looked up at all; a file, or a link
that leads to one; a directory under a name of its own, if the way to it does not lead through what it
holds. -/
inductive Freeable (d : Disk) (path : String) : Prop where
  | nothing {r : Reason} (leads : d.node true path = .error r) (short : r ≠ .nameTooLong)
  | file (leads : d.isFile path = true)
  | directory {p : Place} (found : d.find false path = .ok (.node p .directory))
      (ends : EndsInName path) (apart : ∀ q ∈ d.passed path, Tree.isBelow p q = false)

theorem clear_inv {path : String} {w v : World} (named : Named path ∨ IsRoot path)
    (there : w.disk.exists? path = true) (h : clear path w = .ok () v) :
    Freeable w.disk path ∧
      ∃ e, v = { w with disk := e } ∧ Erased w.disk e path ∧ e.exists? path = false := by
  rw [clear_eq] at h
  cases kind : w.disk.isDirectory path with
  | true =>
    rw [kind, if_pos rfl] at h
    obtain ⟨⟨⟩, w', removing, done⟩ := ok_of_bind h
    obtain ⟨e, removed, rfl⟩ := Run.ok_of_files removing
    obtain ⟨⟨dot, up⟩, p, found, hp, apart, _⟩ := removeTree_inv removed
    have named : Named path := named.resolve_right (fun isRoot => hp (isRoot.entry_eq_nil found))
    have gone := not_exists?_removeTree removed named
    rw [bare_named named] at dot up
    rw [clearFile_nothing (w := { w with disk := e }) gone] at done
    cases done
    exact ⟨.directory found ⟨named, dot, up⟩ apart, e, rfl, erased_removeTree removed, gone⟩
  | false =>
    have file := isFile_of_exists? there kind
    rw [kind, if_neg Bool.false_ne_true, clearFile_eq, file, if_pos rfl] at h
    obtain ⟨e, removed, rfl⟩ := Run.ok_of_files h
    exact ⟨.file file, e, rfl, erased_unlink removed, not_exists?_unlink removed⟩

theorem clear_file {path : String} {w : World} (leads : w.disk.isFile path = true) :
    ∃ v, clear path w = .ok () v := by
  obtain ⟨p, x, found⟩ := exists_entry (exists?_of_isFile leads)
  have other : w.disk.isDirectory path = false := by
    rw [Bool.eq_false_iff]
    intro directory
    rw [not_isFile_of_isDirectory directory] at leads
    cases leads
  have leaf : x ≠ .directory := by
    rintro rfl
    rw [isDirectory_of_entry found] at other
    cases other
  refine ⟨{ w with disk := { w.disk with tree := w.disk.tree.remove p } }, ?_⟩
  rw [clear_eq, other, if_neg Bool.false_ne_true, clearFile_eq, leads, if_pos rfl]
  exact Run.files_ok (unlink_found found leaf)

theorem clear_directory {path : String} {w : World} {p : Place}
    (found : w.disk.find false path = .ok (.node p .directory)) (ends : EndsInName path)
    (apart : ∀ q ∈ w.disk.passed path, Tree.isBelow p q = false) : ∃ v, clear path w = .ok () v := by
  have removed := removeTree_apart found ends apart
  refine ⟨{ w with disk := { w.disk with tree := without w.disk.tree p } }, ?_⟩
  rw [clear_eq, isDirectory_of_entry found, if_pos rfl, bind_ok (Run.files_ok removed)]
  exact clearFile_nothing (not_exists?_removeTree removed ends.named)

/-! ### Freeing -/

section Free

variable {given : String} {w : World} (force : Bool)

theorem free_nothing {r : Reason} (h : w.disk.node true (tidy given) = .error r)
    (short : r ≠ .nameTooLong) : free force given w = .ok (tidy given) w := by
  have looked : kind (tidy given) w = .ok none w := by
    rw [kind, bind_ok (Run.disk_apply w), h]
    cases r with
    | nameTooLong => exact absurd rfl short
    | _ => rfl
  rw [free, bind_ok looked]
  rfl

theorem free_long (h : w.disk.node true (tidy given) = .error .nameTooLong) :
    free force given w = .error (.failure (.file (.refused .nameTooLong (tidy given)))) w := by
  have looked : kind (tidy given) w =
      .error (.failure (.file (.refused .nameTooLong (tidy given)))) w := by
    rw [kind, bind_ok (Run.disk_apply w), h]
    rfl
  rw [free, bind_error looked]

theorem free_there {x : Node} (h : w.disk.node true (tidy given) = .ok x) :
    free force given w = (if force then do clear (tidy given); return tidy given
      else complain (.exists (tidy given)) : Run String) w := by
  have looked : kind (tidy given) w = .ok (some x) w := by
    rw [kind, bind_ok (Run.disk_apply w), h]
    rfl
  rw [free, bind_ok looked]

end Free

theorem free_inv {given path : String} {w v : World} (h : free true given w = .ok path v) :
    Freeable w.disk (tidy given) ∧ path = tidy given ∧ v.disk.exists? path = false ∧
      v = { w with disk := v.disk } ∧
      if w.disk.exists? path then Erased w.disk v.disk path else v.disk = w.disk := by
  cases kind : w.disk.node true (tidy given) with
  | error r =>
    have none := not_exists?_of_node kind
    by_cases long : r = .nameTooLong
    · rw [long] at kind
      rw [free_long true kind] at h
      cases h
    · rw [free_nothing true kind long] at h
      cases h
      exact ⟨.nothing kind long, rfl, none, rfl, by rw [none]; rfl⟩
  | ok x =>
    have there := exists?_of_node kind
    rw [free_there true kind, if_pos rfl] at h
    obtain ⟨⟨⟩, v', cleared, done⟩ := ok_of_bind h
    obtain ⟨freeable, e, rfl, erased, gone⟩ := clear_inv (named_tidy given) there cleared
    cases done
    exact ⟨freeable, rfl, gone, rfl, by rw [there]; exact erased⟩

theorem free_freeable {given : String} {w : World} (h : Freeable w.disk (tidy given)) :
    ∃ v, free true given w = .ok (tidy given) v := by
  have cleared : ∀ {v}, w.disk.exists? (tidy given) = true → clear (tidy given) w = .ok () v →
      free true given w = .ok (tidy given) v := by
    intro v there cleared
    obtain ⟨x, kind⟩ := node_of_exists? there
    rw [free_there true kind, if_pos rfl, bind_ok cleared]
    rfl
  cases h with
  | nothing leads short => exact ⟨w, free_nothing true leads short⟩
  | file leads =>
    obtain ⟨v, done⟩ := clear_file leads
    exact ⟨v, cleared (exists?_of_isFile leads) done⟩
  | directory found ends apart =>
    obtain ⟨v, done⟩ := clear_directory found ends apart
    exact ⟨v, cleared (exists?_iff.mpr ⟨_, _, find_directory found⟩) done⟩

theorem free_gently (given : String) (w : World) :
    final (free false given w) = w ∧
      ((∃ complaint v, free false given w = .error (.failure (.path complaint)) v) ↔
        w.disk.exists? (tidy given) = true) := by
  cases kind : w.disk.node true (tidy given) with
  | error r =>
    rw [not_exists?_of_node kind]
    by_cases long : r = .nameTooLong
    · rw [long] at kind
      rw [free_long false kind]
      exact ⟨rfl, by simp⟩
    · rw [free_nothing false kind long]
      exact ⟨rfl, by simp⟩
  | ok x =>
    rw [exists?_of_node kind, free_there false kind, if_neg Bool.false_ne_true]
    exact ⟨rfl, fun _ => rfl, fun _ => ⟨_, _, rfl⟩⟩

/-- A path that is freed by force leads to nothing afterwards. If something was there, the entry that
the path names is gone with all below it; everything else is as it was, and so is what links among the
removed entries lead to. Which paths can be freed is told by `Freeable`. Without force nothing ever
changes, and the complaint that the path exists is made if and only if it does. -/
theorem free_exact (given : String) (w : World) :
    (∀ path v, free true given w = .ok path v →
      path = tidy given ∧ v.disk.exists? path = false ∧ v = { w with disk := v.disk } ∧
        if w.disk.exists? path then Erased w.disk v.disk path else v.disk = w.disk) ∧
      ((∃ path v, free true given w = .ok path v) ↔ Freeable w.disk (tidy given)) ∧
      final (free false given w) = w ∧
      ((∃ complaint v, free false given w = .error (.failure (.path complaint)) v) ↔
        w.disk.exists? (tidy given) = true) := by
  refine ⟨fun path v h => (free_inv h).2, ⟨?_, fun h => ⟨tidy given, free_freeable h⟩⟩,
    free_gently given w⟩
  rintro ⟨path, v, h⟩
  exact (free_inv h).1

def linked : Disk where
  tree := ⟨[(["w"], .directory), (["w", "keep"], .directory), (["w", "keep", "a.sql"], .file [97]),
    (["w", "out"], .directory), (["w", "out", "dir"], .link "../keep"),
    (["w", "out", "sub"], .directory), (["w", "out", "sub", "file"], .link "/w/keep/a.sql"),
    (["w", "out", "sub", "up"], .link "../.."), (["w", "out", "void"], .link "nothing"),
    (["w", "new"], .link "keep/a.sql")]⟩
  here := ["w"]

theorem free_exact_linked :
    (∃ v, free true "./out/" (.ofDisk linked) = .ok "out" v ∧ v.disk.exists? "out" = false ∧
      (∀ q, ["w", "out"] <+: q → v.disk.tree.node? q = none) ∧
      ∀ q, ¬ ["w", "out"] <+: q → v.disk.tree.node? q = linked.tree.node? q) ∧
    (∃ v, free true "new" (.ofDisk linked) = .ok "new" v ∧ v.disk.exists? "new" = false ∧
      v.disk.tree.node? ["w", "keep", "a.sql"] = some (.file [97])) ∧
    ∃ complaint v, free false "new" (.ofDisk linked) = .error (.failure (.path complaint)) v := by
  have sound : linked.tree.Sound := Tree.sound_of_entries (by decide) (by decide)
  refine ⟨?_, ?_, (free_exact "new" (.ofDisk linked)).2.2.2.mpr (by decide)⟩
  · have out : linked.find false "out" = .ok (.node ["w", "out"] .directory) := by decide
    obtain ⟨erases, freeable, _⟩ := free_exact "./out/" (.ofDisk linked)
    obtain ⟨path, v, freed⟩ := freeable.mpr (.directory out (by decide) (by decide))
    obtain ⟨rfl, gone, _, erased⟩ := erases path v freed
    rw [if_pos (by decide)] at erased
    exact ⟨v, freed, gone, fun q below => erased.gone sound q ((covers_iff out).mpr below),
      fun q apart => erased.rest q (mt (covers_iff out).mp apart)⟩
  · obtain ⟨erases, freeable, _⟩ := free_exact "new" (.ofDisk linked)
    obtain ⟨path, v, freed⟩ := freeable.mpr (.file (by decide))
    obtain ⟨rfl, gone, _, erased⟩ := erases path v freed
    rw [if_pos (by decide)] at erased
    exact ⟨v, freed, gone, erased.rest ["w", "keep", "a.sql"] (by decide)⟩

end PathCheck

end SqlMigration
