import SqlMigration.Proofs.Job.Retrieval
import SqlMigration.Proofs.Job.RoundTrip

/-!
# Objects that stand for folders

A bucket may hold objects whose names end in a slash and that stand for folders.
A download takes such a name for that of a file without a name, and is refused
when it writes to the directory itself. What is listed before the first of them
is there in the end, and what is listed after it is not.
-/

set_option autoImplicit false

namespace SqlMigration

open SqlMigration.Path Files Effect

/-! ### Writing to a directory -/

namespace Files

theorem Leads.name_bare {d : Disk} {u : String} {q : Place} (h : Leads d u q) (hq : q ≠ [])
    (hu : u ≠ "") : name (Files.bare u) ≠ "" := by
  intro none
  obtain ⟨front, whole, _, last, _⟩ := split_spec (Files.bare u)
  obtain ⟨_, _, _, slashes | ⟨noSlash, some⟩⟩ := trimSlashes_spec u.toList
  · have root : Leads d (Files.bare u) [] := Leads.root (by simpa [Files.bare] using slashes.1) (bare_ne_empty hu)
    exact hq (h.bare.unique root)
  · rw [none, String.toList_empty, List.append_nil, Files.bare, String.toList_ofList] at whole
    rw [← whole] at last
    exact last.elim some noSlash

theorem Leads.write_slash {d : Disk} {u : String} {q : Place} (h : Leads d u q) (hq : q ≠ [])
    (hf : Fits u) (slash : endsWithSlash u = true) (hu : u ≠ "") (content : Bytes) :
    write u content d = .error (.refused .isDirectory u) d := by
  have last := h.name_bare hq hu
  obtain ⟨p, _, _, above, _⟩ := h.parent last
  rw [write, if_pos slash, bind_ok (containerPlace_eq (above.container last hf))]
  rfl

end Files

namespace Transfer

/-! ### Where a folder's object lands -/

/-- The name of an object that stands for a folder. -/
def IsMarker (stem name : String) : Prop := ∃ r, AllProper r ∧ name = extend stem r ++ "/"

theorem name_slash {s : String} (hs : Named s) : name (s ++ "/") = "" := by
  rw [name, split_slash hs]

theorem endsWithSlash_join_empty {path : String} (hp : path ≠ "") : endsWithSlash (join path "") = true := by
  rw [join, if_neg (by decide)]
  split_ifs with closed
  · simpa using closed.resolve_left hp
  · simp [endsWithSlash]

theorem directoryPart_marker {stem object : String} (hs : Named stem) (marker : IsMarker stem object) :
    directoryPart stem object = "" := by
  obtain ⟨r, hr, rfl⟩ := marker
  rw [directoryPart, if_pos (name_slash (hs.extend hr))]

theorem landing_marker {stem object : String} (hs : Named stem) (marker : IsMarker stem object)
    {path : String} (hp : path ≠ "") : landing path stem object = join path "" := by
  rw [landing, directoryPart_marker hs marker]
  obtain ⟨r, hr, rfl⟩ := marker
  rw [name_slash (hs.extend hr), join, if_neg (by decide),
    if_pos (Or.inr (endsWithSlash_join_empty hp)), String.append_empty]

theorem landing_extend {stem : String} (hs : Named stem) (path : String) {r : Place} (hr : AllProper r)
    (hne : r ≠ []) : landing path stem (extend stem r) = extend path r := by
  obtain ⟨ns, n, rfl⟩ := List.eq_nil_or_concat r |>.resolve_left hne
  rw [List.concat_eq_append] at hr ⊢
  rw [landing, name_extend hs.trimmed hr.left hr.last]
  exact join_directoryOf path hs hr.left hr.last

theorem downloadObject_marker {w : World} {path stem : String} {q : Place} {e : Disk} (bucket : String)
    (hs : Named stem) (made : makePath path w.disk = .ok () e) (leads : Leads e path q) (hq : q ≠ [])
    {o : String × Bytes} (marker : IsMarker stem o.1) (fits : Fits (landing path stem o.1)) :
    ∃ events, downloadObject (.path path) bucket stem o w =
      .error (.failure (.file (.refused .isDirectory (join path "")))) { w with disk := e, events := events } := by
  have hp := makePath_ne_empty made
  have same := bare_join_empty path
  have nonempty := join_empty_ne_empty hp
  rw [landing_marker hs marker hp] at fits
  have made' := Run.files_ok (makePath_bare same nonempty fits leads made)
  have refused := (leads.respelled same).write_slash hq fits (endsWithSlash_join_empty hp) nonempty o.2
  rw [downloadObject_eq, landing_marker hs marker hp, directoryPart_marker hs marker, bind_ok made',
    bind_ok (Run.note_apply _ _), bind_ok (Run.emit_apply _ _)]
  exact ⟨_, Run.files_error refused⟩

/-! ### The objects before the first folder -/

/-- The objects are files and folders, and no file is at or below another. -/
structure Assortment (stem : String) (os : List (String × Bytes)) : Prop where
  names : ∀ o ∈ os, (∃ r, AllProper r ∧ r ≠ [] ∧ o.1 = extend stem r) ∨ IsMarker stem o.1
  apart : ∀ r r' c c', AllProper r → AllProper r' → (extend stem r, c) ∈ os →
    (extend stem r', c') ∈ os → r ≠ r' → Apart r r'

def hasMarker (os : List (String × Bytes)) : Bool := os.any (fun o => endsWithSlash o.1)

/-- The objects before the first that stands for a folder. -/
def untilMarker (os : List (String × Bytes)) : List (String × Bytes) :=
  os.takeWhile (fun o => !endsWithSlash o.1)

theorem split_at_marker (os : List (String × Bytes)) :
    (hasMarker os = false ∧ untilMarker os = os) ∨
      ∃ m rest, hasMarker os = true ∧ endsWithSlash m.1 = true ∧ os = untilMarker os ++ m :: rest := by
  have whole : untilMarker os ++ os.dropWhile (fun o => !endsWithSlash o.1) = os :=
    List.takeWhile_append_dropWhile
  cases after : os.dropWhile (fun o => !endsWithSlash o.1) with
  | nil =>
    rw [after, List.append_nil] at whole
    refine Or.inl ⟨?_, whole⟩
    simpa [hasMarker] using List.dropWhile_eq_nil_iff.mp after
  | cons m rest =>
    have first := List.head?_dropWhile_not (fun o : String × Bytes => !endsWithSlash o.1) os
    rw [after] at first whole
    have slash : endsWithSlash m.1 = true := by simpa using first
    refine Or.inr ⟨m, rest, ?_, slash, whole.symm⟩
    rw [hasMarker, List.any_eq_true]
    exact ⟨m, by rw [← whole]; simp, slash⟩

theorem Assortment.file {stem : String} {os : List (String × Bytes)} (assortment : Assortment stem os)
    {o : String × Bytes} (ho : o ∈ untilMarker os) :
    ∃ r c, AllProper r ∧ r ≠ [] ∧ o = (extend stem r, c) := by
  have unclosed := List.mem_takeWhile_imp ho
  rcases assortment.names o ((List.takeWhile_sublist _).subset ho) with ⟨r, hr, hne, same⟩ | ⟨r, _, same⟩
  · exact ⟨r, o.2, hr, hne, Prod.ext same rfl⟩
  · simp [same, endsWithSlash] at unclosed

section Assortment

variable {stem : String} {os : List (String × Bytes)} (hs : Named stem) (assortment : Assortment stem os)
include hs assortment

theorem Assortment.marker {o : String × Bytes} (ho : o ∈ os) (slash : endsWithSlash o.1 = true) :
    IsMarker stem o.1 := by
  refine (assortment.names o ho).resolve_left ?_
  rintro ⟨r, hr, _, same⟩
  rw [same, (hs.extend hr).noFinalSlash] at slash
  cases slash

theorem Assortment.of_mem_files {f : Place × Bytes} (hf : f ∈ (untilMarker os).map (fileOf stem)) :
    AllProper f.1 ∧ f.1 ≠ [] ∧ (extend stem f.1, f.2) ∈ untilMarker os := by
  obtain ⟨o, ho, rfl⟩ := List.mem_map.mp hf
  obtain ⟨r, c, hr, hne, rfl⟩ := assortment.file ho
  rw [fileOf_extend hs hr]
  exact ⟨hr, hne, ho⟩

theorem Assortment.mem_files {r : Place} (hr : AllProper r) (c : Bytes) :
    (r, c) ∈ (untilMarker os).map (fileOf stem) ↔ (extend stem r, c) ∈ untilMarker os := by
  refine ⟨fun hf => (assortment.of_mem_files hs hf).2.2, fun ho => ?_⟩
  exact List.mem_map.mpr ⟨_, ho, fileOf_extend hs hr c⟩

theorem Assortment.compatible : Compatible ((untilMarker os).map (fileOf stem)) where
  proper := by
    intro f hf
    obtain ⟨hr, hne, _⟩ := assortment.of_mem_files hs hf
    exact ⟨hr, hne⟩
  apart := by
    intro f hf f' hf' differ
    obtain ⟨hr, _, ho⟩ := assortment.of_mem_files hs hf
    obtain ⟨hr', _, ho'⟩ := assortment.of_mem_files hs hf'
    have before : (untilMarker os).Sublist os := List.takeWhile_sublist _
    exact assortment.apart _ _ _ _ hr hr' (before.subset ho) (before.subset ho') differ

end Assortment

/-! ### What a download brings -/

/-- Below the place are the files of some objects, each under its path, and all that was on the disk
is there. -/
structure Brought (d : Disk) (path stem : String) (q : Place) (os : List (String × Bytes)) (e : Disk) :
    Prop where
  files : ∀ r c, AllProper r → (e.tree.node? (q ++ r) = some (.file c) ↔ (extend stem r, c) ∈ os)
  found : ∀ r c, AllProper r → (extend stem r, c) ∈ os →
    e.find true (extend path r) = .ok (.node (q ++ r) (.file c))
  keep : ∀ r x, d.tree.node? r = some x → e.tree.node? r = some x

theorem Unfilled.no_file {d : Disk} (hd : d.Sound) {path : String} {q : Place} (h : Unfilled d path q) :
    ∃ e, makePath path d = .ok () e ∧ Leads e path q ∧
      (∀ r x, d.tree.node? r = some x → e.tree.node? r = some x) ∧
      ∀ r c, e.tree.node? (q ++ r) ≠ some (.file c) := by
  obtain ⟨e, made, found, empty⟩ := h.made
  have grown := makePath_grown hd made
  have leads := leads_of_find found
  refine ⟨e, made, leads, grown.keep, fun r c there => ?_⟩
  cases r with
  | nil =>
    rw [List.append_nil, leads.directory grown.sound] at there
    cases there
  | cons n r =>
    have nothing : e.tree.node? (q ++ [n]) = none := empty n
    rw [List.append_cons] at there
    cases r with
    | nil =>
      rw [List.append_nil, nothing] at there
      cases there
    | cons m r =>
      rw [grown.sound.tree.none_below (by rw [nothing]; simp) (List.prefix_append _ _) (by simp)] at there
      cases there

section Download

variable {w : World} {path bucket stem : String} {q : Place}

theorem brought_of_laid {d e : Disk} (hd : d.Sound) (unfilled : Unfilled d path q) {t : Tree} (ht : t.Sound)
    (free : Free t q) (keep : ∀ r x, r ≠ q → d.tree.node? r = some x → t.node? r = some x)
    {done : List (Place × Bytes)} (laid : Laid t e.tree q done) (sound : e.Sound) (leads : Leads e path q)
    (proper : ∀ f ∈ done, f.1 ≠ [] ∧ Fits (extend path f.1)) {os : List (String × Bytes)}
    (same : ∀ r c, AllProper r → ((r, c) ∈ done ↔ (extend stem r, c) ∈ os)) :
    Brought d path stem q os e where
  files r c hr := (laid.file_iff ht free).trans (same r c hr)
  found := by
    intro r c hr ho
    have done := (same r c hr).mpr ho
    obtain ⟨hne, fits⟩ := proper _ done
    exact leads.find_present sound hne fits ((laid.file_iff ht free).mpr done) (by simp) true
  keep := by
    intro r x hx
    by_cases top : r = q
    · obtain ⟨f, made, leads', kept, _⟩ := unfilled.no_file hd
      have there := kept r x hx
      rw [top, leads'.directory (makePath_grown hd made).sound] at there
      rw [top, leads.directory sound, there]
    · exact laid.keep ht free (keep r x top hx)

theorem forM_brought (bucket : String) (hs : Named stem) (hd : w.disk.Sound) (unfilled : Unfilled w.disk path q)
    {os : List (String × Bytes)} (assortment : Assortment stem os) (distinct : (os.map (·.1)).Nodup)
    (fits : ∀ o ∈ os, Fits (landing path stem o.1)) (events : List Event) :
    ∃ u events' e, (untilMarker os).forM (downloadObject (.path path) bucket stem)
        (w.turned w.disk.tree events) = .ok () (w.turned u events') ∧
      Brought w.disk path stem q (untilMarker os) { w.disk with tree := u } ∧
      makePath path { w.disk with tree := u } = .ok () e ∧ Leads e path q ∧
      Brought w.disk path stem q (untilMarker os) e := by
  have before : (untilMarker os).Sublist os := List.takeWhile_sublist _
  have compatible := assortment.compatible hs
  have fits' : ∀ f ∈ (untilMarker os).map (fileOf stem), Fits (extend path f.1) := by
    intro f hf
    obtain ⟨hr, hne, ho⟩ := assortment.of_mem_files hs hf
    rw [← landing_extend hs path hr hne]
    exact fits (extend stem f.1, f.2) (before.subset ho)
  have listed : ∀ o ∈ untilMarker os, ∃ f ∈ (untilMarker os).map (fileOf stem),
      o = (extend stem f.1, f.2) := by
    intro o ho
    obtain ⟨r, c, hr, _, rfl⟩ := assortment.file ho
    exact ⟨(r, c), (assortment.mem_files hs hr c).mpr ho, rfl⟩
  obtain ⟨t, ht, free, receives, keep⟩ := unfilled.receives hd
  obtain ⟨u, events', run, received⟩ := forM_received bucket hs ht free (fun _ => receives) compatible
    fits' listed (distinct.sublist (before.map _)) events
  by_cases none : (untilMarker os).map (fileOf stem) = []
  · -- nothing has been made so far, and a folder would make no more than the path
    obtain ⟨e, made, leads, kept, noFile⟩ := unfilled.no_file hd
    have noFile' : ∀ r c, w.disk.tree.node? (q ++ r) ≠ some (.file c) := fun r c there =>
      noFile r c (kept _ _ there)
    have unchanged := received.nothing none
    rw [List.map_eq_nil_iff] at none
    subst unchanged
    refine ⟨_, events', e, run, ?_, made, leads, ?_⟩ <;> rw [none]
    · exact ⟨by simp [noFile'], by simp, fun _ _ hx => hx⟩
    · exact ⟨by simp [noFile], by simp, kept⟩
  · -- the path is there since the first file
    have leads := received.leads none
    have brought := brought_of_laid (e := { w.disk with tree := u }) hd unfilled ht free keep
      (received.laid none) (received.sound none) leads
      (fun f hf => ⟨(compatible.proper f hf).2, fits' f hf⟩) (fun _ c hr => assortment.mem_files hs hr c)
    obtain ⟨f, hf⟩ := List.exists_mem_of_ne_nil _ none
    obtain ⟨_, _, made, _⟩ := receives.reach
    exact ⟨u, events', _, run, brought, makePath_leads leads (makePath_ne_empty made)
      ((fits' f hf).of_extend (compatible.proper f hf).1), leads, brought⟩

/-- A download of files and folders fetches the files that are listed before the first folder, and then
fails if there is one. -/
theorem download_until_marker (hs : Named stem) (hd : w.disk.Sound) (unfilled : Unfilled w.disk path q)
    (present : bucket ∈ Table.keys w.storage.buckets)
    (distinct : (Table.keys (w.storage.objects bucket)).Nodup)
    (assortment : Assortment stem (w.storage.listing bucket stem))
    (fits : ∀ o ∈ w.storage.listing bucket stem, Fits (landing path stem o.1)) :
    ∃ w', download (.path path) bucket stem w =
        (if hasMarker (w.storage.listing bucket stem)
          then .error (.failure (.file (.refused .isDirectory (join path "")))) w' else .ok () w') ∧
      Brought w.disk path stem q (untilMarker (w.storage.listing bucket stem)) w'.disk := by
  obtain ⟨u, events, e, run, brought, made, leads, brought'⟩ := forM_brought bucket hs hd unfilled
    assortment (Storage.nodup_listing distinct stem) fits
    ((w.after (.listed bucket stem)).after (.note (.downloadStarted bucket stem))).events
  rw [download_eq present]
  rcases split_at_marker (w.storage.listing bucket stem) with ⟨none, all⟩ | ⟨m, rest, some, slash, whole⟩
  · rw [all] at run brought ⊢
    refine ⟨(w.turned u events).after (.note (.downloaded path)), ?_, brought⟩
    rw [if_neg (by simp [none])]
    exact bind_ok run
  · have listed : m ∈ w.storage.listing bucket stem := by
      rw [whole]
      simp
    obtain ⟨events', refused⟩ := downloadObject_marker (w := w.turned u events) bucket hs made leads
      unfilled.ne_root (assortment.marker hs listed slash) (fits m listed)
    refine ⟨{ w.turned u events with disk := e, events := events' }, ?_, brought'⟩
    rw [if_pos some]
    have loop := forM_error rest run refused
    rw [← whole] at loop
    exact bind_error loop

end Download

theorem assortment_of {stem : String} (hs : Named stem) {os : List (String × Bytes)}
    (files : List (Place × Bytes)) (folders : List Place) (compatible : Compatible files)
    (proper : ∀ r ∈ folders, AllProper r)
    (mem : ∀ o ∈ os, (∃ e ∈ files, o.1 = extend stem e.1) ∨ ∃ r ∈ folders, o.1 = extend stem r ++ "/") :
    Assortment stem os where
  names := by
    intro o ho
    rcases mem o ho with ⟨e, he, same⟩ | ⟨r, hr, same⟩
    · exact Or.inl ⟨e.1, (compatible.proper e he).1, (compatible.proper e he).2, same⟩
    · exact Or.inr ⟨r, proper r hr, same⟩
  apart := by
    have file : ∀ r c, AllProper r → (extend stem r, c) ∈ os → ∃ e ∈ files, e.1 = r := by
      intro r c hr ho
      rcases mem _ ho with ⟨e, he, same⟩ | ⟨_, _, same⟩
      · exact ⟨e, he, (extend_inj hr (compatible.proper e he).1 same).symm⟩
      · have closed := (hs.extend hr).noFinalSlash
        dsimp only at same
        simp [same, endsWithSlash] at closed
    intro r r' c c' hr hr' ho ho' differ
    obtain ⟨e, he, rfl⟩ := file r c hr ho
    obtain ⟨e', he', rfl⟩ := file r' c' hr' ho'
    exact compatible.apart e he e' he' differ

theorem unfilled_crate (objects : List (String × Bytes)) : Unfilled (crate objects).disk "loc" ["loc"] where
  made := by
    obtain ⟨_, e, made, left⟩ := ok_of_run' (x := makePath "loc") (s := (⟨.empty, []⟩ : Disk))
      (f := fun e => (e.find true "loc", e.tree.entries))
      (b := (.ok (.node ["loc"] .directory), [(["loc"], .directory)])) (by decide)
    have entries : e.tree.entries = [(["loc"], .directory)] := congrArg Prod.snd left
    refine ⟨e, made, congrArg Prod.fst left, fun n => ?_⟩
    rw [Tree.node?_concat, entries]
    simp [Table.get?]
  ne_root := by simp

def divided : List (String × Bytes) := [("out/A", [1]), ("out/a/", []), ("out/a/x", [2])]

theorem download_until_marker_divided :
    ∃ w, download (.path "loc") "b" "out" (crate divided) =
        .error (.failure (.file (.refused .isDirectory "loc/"))) w ∧
      w.disk.find true "loc/A" = .ok (.node ["loc", "A"] (.file [1])) ∧
      w.disk.tree.node? ["loc", "a", "x"] ≠ some (.file [2]) := by
  have listing : (crate divided).storage.listing "b" "out" = divided :=
    List.mergeSort_of_pairwise (by decide)
  have named : Named "out" := ⟨by decide, by decide⟩
  have assortment : Assortment "out" divided :=
    assortment_of named [(["A"], [1]), (["a", "x"], [2])] [["a"]] ⟨by decide, by decide⟩ (by decide) (by decide)
  have fits : ∀ o ∈ divided, Fits (landing "loc" "out" o.1) := by decide
  obtain ⟨w, run, brought⟩ := download_until_marker (w := crate divided) named
    ⟨Tree.sound_of_entries (by decide) (by decide), rfl⟩ (unfilled_crate divided)
    (show "b" ∈ Table.keys (crate divided).storage.buckets by decide) (by decide) (by rwa [listing])
    (by rwa [listing])
  rw [listing] at run brought
  refine ⟨w, run, brought.found ["A"] [1] (by decide) (by decide), fun there => ?_⟩
  exact absurd ((brought.files ["a", "x"] [2] (by decide)).mp there) (by decide)

def headed : List (String × Bytes) := [("out/", []), ("out/a", [1])]

/-- Nothing is written where the folder's own object is listed first. -/
theorem download_stopped_by_marker :
    Assortment "out" ((crate headed).storage.listing "b" "out") ∧
      Unfilled (crate headed).disk "loc" ["loc"] ∧
      ∃ stop w, download (.path "loc") "b" "out" (crate headed) = .error stop w ∧
        w.disk.tree.node? ["loc", "a"] = none := by
  have listing : (crate headed).storage.listing "b" "out" = headed :=
    List.mergeSort_of_pairwise (by decide)
  refine ⟨?_, unfilled_crate headed, ?_⟩
  · rw [listing]
    exact assortment_of ⟨by decide, by decide⟩ [(["a"], [1])] [[]] ⟨by decide, by decide⟩ (by decide) (by decide)
  · have started := @download_eq (crate headed) "b" (by decide) (.path "loc") "out"
    rw [listing] at started
    obtain ⟨stop, w, stopped, left⟩ := error_of_run' (x := do
        headed.forM (downloadObject (.path "loc") "b" "out")
        Run.note (.downloaded "loc"))
      (s := ((crate headed).after (.listed "b" "out")).after (.note (.downloadStarted "b" "out")))
      (f := fun w => w.disk.tree.node? ["loc", "a"]) (b := none) (by decide)
    exact ⟨stop, w, started.trans stopped, left⟩

end Transfer

end SqlMigration
