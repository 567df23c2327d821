import SqlMigration.Proofs.Job.Listing
import SqlMigration.Proofs.Job.Order

/-!
# What an upload adds to a bucket

An upload comes past the files below a directory in the order of a walk. Each that
can be read becomes an object of its own, over what the bucket has held, and the
first that cannot be read ends the upload. Nothing else in the storage changes.
-/

set_option autoImplicit false

namespace SqlMigration

open SqlMigration.Path Files Effect

/-! ### Reading -/

def Files.content? (d : Disk) (path : String) : Option Bytes :=
  match d.find true path with
  | .ok (.node _ (.file content)) => some content
  | _ => none

theorem Files.read_content {d : Disk} {path : String} {c : Bytes} (h : content? d path = some c) :
    read path d = .ok c d := by
  rw [content?] at h
  split at h
  · next found =>
    cases h
    exact read_eq found
  · cases h

theorem Files.read_refused {d : Disk} {path : String} (h : content? d path = none) :
    ∃ f, read path d = .error f d := by
  rw [content?] at h
  rw [read, bind_ok (get_apply d)]
  cases found : d.find true path with
  | error r => exact ⟨_, rfl⟩
  | ok r =>
    rw [found] at h
    cases r with
    | absent p => exact ⟨_, rfl⟩
    | node p x =>
      cases x with
      | file c => cases h
      | directory => exact ⟨_, rfl⟩
      | link target => exact ⟨_, rfl⟩

theorem Files.fits_entry {d : Disk} (hd : d.Sound) {top : String} (hf : Fits top) {p q : Place} {x : Node}
    (there : d.tree.node? (p ++ q) = some x) (short : byteLength (extend top q) < pathLimit) :
    Fits (extend top q) := by
  have proper : AllProper q := (hd.tree.proper _ _ there).right
  refine ⟨fun nul => hf.noNul ((nul_mem_extend proper).mp nul), short, fun n hn => ?_⟩
  rw [parts_extend proper] at hn
  rcases List.mem_append.mp hn with hn | hn
  · exact hf.shortNames n hn
  · exact hd.tree.short _ _ there n (List.mem_append_right p hn)

theorem Files.Leads.content?_file {d : Disk} (hd : d.Sound) {top : String} {p : Place} (hl : Leads d top p)
    (hf : Fits top) {q : Place} {c : Bytes} (there : d.tree.node? (p ++ q) = some (.file c)) :
    content? d (extend top q) =
      if byteLength (extend top q) < pathLimit then some c else none := by
  have hne : q ≠ [] := by
    rintro rfl
    rw [List.append_nil, hl.directory hd] at there
    cases there
  split
  · next short =>
    rw [content?, hl.find_present hd hne (fits_entry hd hf there short) there (by simp) true]
  · next long =>
    rw [content?]
    split
    · next found => exact absurd (Fits.of_find found).short long
    · rfl

/-! ### The absolute form of a path -/

theorem Files.Way.undotted {t : Tree} {k j : Nat} {p q : Place} {ns : List String}
    (h : Way t k p ns j q) : Way t k p (ns.filter (fun n => n ≠ ".")) j q := by
  induction ns generalizing k p with
  | nil => exact h
  | cons n ns ih =>
    have parts : Way t k p ([n] ++ ns) j q := h
    obtain ⟨i, r, first, rest⟩ := parts.split_append
    by_cases dot : n = "."
    · cases first with
      | dot more =>
        cases more
        simpa using ih rest
      | up _ => exact absurd dot (by decide)
      | enter notDot => exact absurd dot notDot
      | link notDot => exact absurd dot notDot
    · have kept : (n :: ns).filter (fun n => n ≠ ".") = [n] ++ ns.filter (fun n => n ≠ ".") := by simp [dot]
      rw [kept]
      exact first.append (ih rest)

/-- A path leads to a directory, and does not go up again where it has passed a link. -/
def Files.LeadsPlainly (d : Disk) (s : String) (p : Place) : Prop :=
  ∃ ms ns a j, parts s = ms ++ ns ∧ Way d.tree linkLimit (startFrom d.here s) ms linkLimit a ∧
    ".." ∉ ns ∧ Way d.tree linkLimit a ns j p

theorem Files.LeadsPlainly.absolute {d : Disk} (hd : d.Sound) {s : String} {p : Place}
    (h : LeadsPlainly d s p) (noNul : '\x00' ∉ s.toList) : Leads d (d.absolute s) p := by
  obtain ⟨ms, ns, a, j, whole, first, up, last⟩ := h
  have here : AllProper d.here := hd.tree.proper _ _ hd.here
  have names := allProper_formalPlace here noNul
  have place : formalPlace d.here s = a ++ ns.filter (fun n => n ≠ ".") := by
    rw [formalPlace, whole, formal_append, ← first.formal_eq rfl, formal_eq_append up]
  obtain ⟨r, hr, form⟩ := absolute_eq here noNul
  have top := first.directory hd.tree (directory_startFrom hd s)
  have root : Way d.tree linkLimit [] a linkLimit a := Way.names (p := []) hd.tree linkLimit top
  rw [form, Leads, startFrom, isAbsolute_extend names, if_pos hr.isAbsolute, parts_extend names, hr.parts,
    List.nil_append, place]
  exact ⟨j, root.append last.undotted⟩

theorem Files.LeadsPlainly.find_absolute {d : Disk} (hd : d.Sound) {s : String} {p : Place}
    (h : LeadsPlainly d s p) (hf : Fits s) (short : byteLength (d.absolute s) < pathLimit) :
    d.find true (d.absolute s) = .ok (.node p .directory) := by
  have here : AllProper d.here := hd.tree.proper _ _ hd.here
  have names := allProper_formalPlace here hf.noNul
  have leads := h.absolute hd hf.noNul
  obtain ⟨r, hr, form⟩ := absolute_eq here hf.noNul
  rw [form] at leads short ⊢
  have fits : Fits (extend r (formalPlace d.here s)) := by
    refine ⟨fun nul => hr.noNul ((nul_mem_extend names).mp nul), short, fun n hn => ?_⟩
    rw [parts_extend names, hr.parts, List.nil_append, formalPlace] at hn
    rcases mem_formal hn with old | ⟨new, _⟩
    · unfold startFrom at old
      split at old
      · cases old
      · exact hd.tree.short _ _ hd.here n old
    · exact hf.shortNames n new
  exact leads.find (extend_ne_empty hr.ne_empty names) fits

/-! ### The files below a directory -/

theorem Files.mem_list {d : Disk} (hd : d.Sound) {s : String} {p : Place}
    (found : d.find true s = .ok (.node p .directory)) {n : String}
    (fits : d.tree.node? (p ++ [n]) = some .directory → Fits (join s n)) :
    (n ∈ (d.list s).1 ↔ (∃ x, d.tree.node? (p ++ [n]) = some x) ∧ d.isDirectory (join s n) = true) ∧
      (n ∈ (d.list s).2 ↔ (∃ x, d.tree.node? (p ++ [n]) = some x) ∧ d.isDirectory (join s n) = false) := by
  have counts : (∃ x, d.tree.node? (p ++ [n]) = some x) →
      d.countsAsDirectory s p n = d.isDirectory (join s n) := by
    rintro ⟨x, hx⟩
    exact (leads_of_find found).countsAsDirectory_eq hd hx (fun e => fits (e ▸ hx))
  rw [Disk.list, found]
  dsimp only
  rw [List.partition_eq_filter_filter, List.mem_filter, List.mem_filter, Tree.mem_names]
  constructor
  · refine and_congr_right (fun there => ?_)
    rw [counts there]
  · refine and_congr_right (fun there => ?_)
    rw [Function.comp, counts there, Bool.not_eq_true']

namespace Run

/-- On a disk that stays as it is, a walk is a loop over the files that are listed. -/
theorem agree_listed {d : Disk} (s : String) {each : String → String → Run Unit}
    (stays : ∀ dir n, Keeps (fun w => w.disk = d) (each dir n)) (fuel : Nat) (ns : List String) :
    Agree (fun w => w.disk = d) (walk (fun dir names => names.forM (each dir)) fuel (extend s ns))
      ((listed d s fuel ns).forM (fun x => each (extend s x.1) x.2)) := by
  induction fuel generalizing ns with
  | zero => exact Agree.refl _
  | succ fuel ih =>
    have visits : ∀ (dir : String) (names : List String),
        Keeps (fun w : World => w.disk = d) (names.forM (each dir)) :=
      fun dir names => Keeps.forM names (fun n _ => stays dir n)
    intro w hw
    rw [walk_eq, hw, listed]
    have split : ∀ xs ys : List (List String × String), (xs ++ ys).forM (fun x => each (extend s x.1) x.2) =
        (xs.forM (fun x => each (extend s x.1) x.2) >>= fun _ => ys.forM (fun x => each (extend s x.1) x.2)) :=
      fun _ _ => List.forM_append
    have here : ((d.list (extend s ns)).2.map (fun n => (ns, n))).forM (fun x => each (extend s x.1) x.2) =
        (d.list (extend s ns)).2.forM (each (extend s ns)) := List.forM_map
    rw [split, here]
    refine Agree.bind (visits _ _) (Agree.refl _) (fun _ => ?_) w hw
    refine Agree.forM_flatMap _ (fun n _ => keeps_enter visits fuel _ n) (fun n _ => ?_)
    intro v hv
    rw [enter, bind_ok (Run.disk_apply v), hv, ← extend_concat]
    split
    · rfl
    · exact ih (ns ++ [n]) v hv

/-- The files below a directory in the order of a walk, for which directories are listed by sorted names,
each file by the names that lead to it. -/
def filesIn (d : Disk) (top : String) : List Place :=
  (listed d top pathLimit []).map (fun x => x.1 ++ [x.2])

theorem filesIn_nodup {d : Disk} (hd : d.Sound) (top : String) : (filesIn d top).Nodup := by
  refine (listed_nodup hd.tree.nodup).map (fun x y same => ?_)
  obtain ⟨front, last⟩ := List.append_inj' same rfl
  exact Prod.ext front (List.singleton_inj.mp last)

theorem filesIn_proper {d : Disk} (hd : d.Sound) {top : String} {q : Place} (h : q ∈ filesIn d top) :
    AllProper q := by
  obtain ⟨x, hx, rfl⟩ := List.mem_map.mp h
  exact listed_proper hd.tree.tidy (fun _ h => absurd h List.not_mem_nil) hx

section Listed

variable {d : Disk} (hd : d.Sound) {top : String} {p : Place}
  (found : d.find true top = .ok (.node p .directory))
  (short : ∀ q, d.tree.node? (p ++ q) = some .directory → byteLength (extend top q) < pathLimit)
include hd found short

theorem find_below {ns : List String} (hx : d.tree.node? (p ++ ns) = some .directory) :
    d.find true (extend top ns) = .ok (.node (p ++ ns) .directory) := by
  by_cases hne : ns = []
  · rw [hne, extend_nil, List.append_nil, found]
  · exact (leads_of_find found).find_present hd hne
      (fits_entry hd (Fits.of_find found) hx (short ns hx)) hx (by simp) true

theorem mem_list_below {ns : List String} (hx : d.tree.node? (p ++ ns) = some .directory) (n : String) :
    (n ∈ (d.list (extend top ns)).1 ↔ (∃ x, d.tree.node? (p ++ (ns ++ [n])) = some x) ∧
        d.isDirectory (extend top (ns ++ [n])) = true) ∧
      (n ∈ (d.list (extend top ns)).2 ↔ (∃ x, d.tree.node? (p ++ (ns ++ [n])) = some x) ∧
        d.isDirectory (extend top (ns ++ [n])) = false) := by
  rw [← List.append_assoc, extend_concat]
  refine mem_list hd (find_below hd found short hx) (fun there => ?_)
  rw [List.append_assoc] at there
  rw [← extend_concat]
  exact fits_entry hd (Fits.of_find found) there (short _ there)

omit found hd short in
theorem isLink_below {ns : List String} {n target : String} (leads : Leads d (extend top ns) (p ++ ns))
    (hn : Proper n) (fits : Fits (extend top (ns ++ [n])))
    (hx : d.tree.node? (p ++ (ns ++ [n])) = some (.link target)) :
    d.isLink (extend top (ns ++ [n])) = true := by
  rw [extend_concat] at fits ⊢
  obtain ⟨j, same⟩ := leads.find_extend hn.single (List.cons_ne_nil n []) fits
  have name := isName_of_proper hn (fits.shortNames n (by rw [parts_join hn]; simp))
  rw [← List.append_assoc] at hx
  have looked : d.find false (join (extend top ns) n) = .ok (.node (p ++ ns ++ [n]) (.link target)) := by
    refine (same false).trans ?_
    rw [name.follow_cons, hx]
    rfl
  rw [Disk.isLink, Disk.node, looked]

theorem enters_iff {ns : List String} {n : String} (hx : d.tree.node? (p ++ ns) = some .directory) :
    n ∈ (d.list (extend top ns)).1 ∧ d.isLink (extend top (ns ++ [n])) = false ↔
      d.tree.node? (p ++ (ns ++ [n])) = some .directory := by
  have leads := leads_of_find found
  rw [(mem_list_below hd found short hx n).1]
  constructor
  · rintro ⟨⟨⟨x, there⟩, isDir⟩, plain⟩
    obtain ⟨r, found'⟩ := found_of_isDirectory isDir
    have fits := Fits.of_find found'
    have proper : AllProper (ns ++ [n]) := (hd.tree.proper _ _ there).right
    cases x with
    | directory => exact there
    | file c =>
      rw [leads.find_present hd (by simp) fits there (by simp) true] at found'
      cases found'
    | link target =>
      have linked := isLink_below (leads.extended hd proper.left hx) proper.last fits there
      rw [linked] at plain
      cases plain
  · intro there
    have fits := fits_entry hd (Fits.of_find found) there (short _ there)
    refine ⟨⟨⟨_, there⟩, ?_⟩, ?_⟩
    · rw [Disk.isDirectory, leads.node_present hd (by simp) fits there (by simp)]
    · rw [Disk.isLink, leads.node_present hd (by simp) fits there (by simp)]

theorem mem_listed {fuel : Nat} {ns ms : List String} {n : String}
    (hx : d.tree.node? (p ++ ns) = some .directory) :
    (ms, n) ∈ listed d top fuel ns ↔ ∃ ks, ms = ns ++ ks ∧ ks.length < fuel ∧
      (∃ x, d.tree.node? (p ++ (ms ++ [n])) = some x) ∧ d.isDirectory (extend top (ms ++ [n])) = false := by
  induction fuel generalizing ns with
  | zero => simp [listed]
  | succ fuel ih =>
    have here := (mem_list_below hd found short hx n).2
    rw [listed, List.mem_append]
    constructor
    · rintro (file | below)
      · obtain ⟨m, hm, same⟩ := List.mem_map.mp file
        cases same
        exact ⟨[], (List.append_nil _).symm, Nat.succ_pos fuel, here.mp hm⟩
      · obtain ⟨m, hm, below⟩ := List.mem_flatMap.mp below
        obtain ⟨plain, below⟩ := List.mem_ite_nil_left.mp below
        have entered := (enters_iff hd found short hx).mp ⟨hm, Bool.eq_false_iff.mpr plain⟩
        obtain ⟨ks, rfl, deep, rest⟩ := (ih entered).mp below
        exact ⟨m :: ks, by simp, Nat.succ_lt_succ deep, rest⟩
    · rintro ⟨ks, rfl, deep, ⟨x, there⟩, plain⟩
      cases ks with
      | nil =>
        rw [List.append_nil] at there plain ⊢
        exact Or.inl (List.mem_map.mpr ⟨n, here.mpr ⟨⟨x, there⟩, plain⟩, rfl⟩)
      | cons k ks =>
        have way : p ++ (ns ++ k :: ks ++ [n]) = p ++ (ns ++ [k]) ++ (ks ++ [n]) := by simp
        have entered := hd.tree.directory_of_below (way ▸ there) (by simp)
        obtain ⟨hk, unlinked⟩ := (enters_iff hd found short hx).mpr entered
        refine Or.inr (List.mem_flatMap.mpr ⟨k, hk, ?_⟩)
        rw [unlinked, if_neg Bool.false_ne_true]
        exact (ih entered).mpr ⟨ks, by simp, Nat.lt_of_succ_lt_succ deep, ⟨x, there⟩, plain⟩

theorem mem_filesIn (q : Place) :
    q ∈ filesIn d top ↔
      (∃ x, d.tree.node? (p ++ q) = some x) ∧ d.isDirectory (extend top q) = false := by
  have root : d.tree.node? (p ++ []) = some .directory := by
    rw [List.append_nil]
    exact (leads_of_find found).directory hd
  rw [filesIn, List.mem_map]
  constructor
  · rintro ⟨⟨ms, n⟩, listed, rfl⟩
    obtain ⟨_, _, _, rest⟩ := (mem_listed hd found short root).mp listed
    exact rest
  · rintro ⟨⟨x, there⟩, plain⟩
    rcases List.eq_nil_or_concat q with rfl | ⟨ms, n, rfl⟩
    · rw [extend_nil, Disk.isDirectory, Disk.node, found] at plain
      cases plain
    · rw [List.concat_eq_append] at there plain ⊢
      refine ⟨(ms, n), (mem_listed hd found short root).mpr ⟨ms, rfl, ?_, ⟨x, there⟩, plain⟩, rfl⟩
      -- a directory whose path is not too long is not too deep
      rw [← List.append_assoc] at there
      have above := hd.tree.above _ _ _ there
      have deep := length_add_byteLength_le (s := top) (hd.tree.proper _ _ above).right
      have := short ms above
      omega

end Listed

end Run

/-! ### Objects over objects -/

namespace Storage

/-- The second storage is the first one with some objects in a bucket, which is made if need be. -/
structure Overlaid (s s' : Storage) (bucket : String) (pairs : List (String × Bytes)) : Prop where
  forbidden : s'.forbidden = s.forbidden
  buckets : Table.keys s'.buckets =
    if bucket ∈ Table.keys s.buckets then Table.keys s.buckets else Table.keys s.buckets ++ [bucket]
  others : ∀ b, b ≠ bucket → Table.get? s'.buckets b = Table.get? s.buckets b
  objects : ∀ name c, s'.object? bucket name = some c ↔
    (name, c) ∈ pairs ∨ (∀ c', (name, c') ∉ pairs) ∧ s.object? bucket name = some c

theorem overlaid_storeAll (s : Storage) (bucket : String) {pairs : List (String × Bytes)}
    (nodup : (Table.keys pairs).Nodup) :
    Overlaid s ((s.opened bucket).storeAll bucket pairs) bucket pairs where
  forbidden := by
    rw [forbidden_storeAll, opened]
    split <;> rfl
  buckets := by rw [keys_storeAll (mem_keys_opened s bucket), keys_opened]
  others b hb := by rw [get?_storeAll _ hb, get?_opened s hb]
  objects name c := by
    rw [object?, objects_storeAll, objects_opened, Table.get?_putAll nodup, Option.or_eq_some_iff,
      ← Table.mem_iff_get? nodup, object?, Table.get?_eq_none_iff]
    refine or_congr_right (and_congr_left fun _ => ⟨fun h c' hc => h (List.mem_map.mpr ⟨_, hc, rfl⟩), ?_⟩)
    intro h hm
    obtain ⟨e, he, rfl⟩ := List.mem_map.mp hm
    exact h e.2 he

end Storage

/-! ### Uploads -/

theorem World.after_stored (w : World) (s : Storage) (events : List Event) (e : Event) :
    (w.stored s events).after e = w.stored s (events ++ [e]) := rfl

theorem World.disk_stored (w : World) (s : Storage) (events : List Event) :
    (w.stored s events).disk = w.disk := rfl

namespace Transfer

/-- The objects that some files below a directory become, as far as they can be read. -/
def objectsFrom (d : Disk) (top target : String) (files : List Place) : List (String × Bytes) :=
  files.filterMap (fun q => (content? d (extend top q)).map (fun c => (extend target q, c)))

theorem mem_objectsFrom {d : Disk} {top target : String} {files : List Place} {name : String} {c : Bytes} :
    (name, c) ∈ objectsFrom d top target files ↔
      ∃ q ∈ files, name = extend target q ∧ content? d (extend top q) = some c := by
  rw [objectsFrom, List.mem_filterMap]
  refine exists_congr fun q => and_congr_right fun _ => ?_
  rw [Option.map_eq_some_iff]
  constructor
  · rintro ⟨_, read, same⟩
    cases same
    exact ⟨rfl, read⟩
  · rintro ⟨rfl, read⟩
    exact ⟨c, read, rfl⟩

theorem nodup_objectsFrom {d : Disk} {top target : String} {files : List Place} (nodup : files.Nodup)
    (proper : ∀ q ∈ files, AllProper q) : (Table.keys (objectsFrom d top target files)).Nodup := by
  rw [Table.keys, objectsFrom, List.map_filterMap, List.Nodup, List.pairwise_filterMap]
  refine nodup.imp_of_mem fun {q r} hq hr differ a ha b hb same => ?_
  simp only [Option.map_map, Option.map_eq_some_iff] at ha hb
  obtain ⟨_, _, rfl⟩ := ha
  obtain ⟨_, _, rfl⟩ := hb
  exact differ (extend_inj (proper q hq) (proper r hr) same)

theorem uploadFile_refused {w : World} {top : String} (bucket target : String) {ns : List String}
    {n : String} (refused : content? w.disk (extend top (ns ++ [n])) = none) :
    ∃ f, uploadFile bucket target top (extend top ns) n w =
      .error (.failure (.file f)) (w.after (.note (.uploading (extend top (ns ++ [n]))))) := by
  obtain ⟨f, failed⟩ := read_refused refused
  refine ⟨f, ?_⟩
  rw [uploadFile, ← extend_concat, bind_ok (Run.note_apply _ w)]
  exact bind_error (Run.files_error failed)

section Loop

variable (w : World) (top bucket target : String) {xs : List (List String × String)}
  (proper : ∀ x ∈ xs, AllProper (x.1 ++ [x.2]))
  (readable : ∀ x ∈ xs, content? w.disk (extend top (x.1 ++ [x.2])) ≠ none)
include proper readable

theorem forM_uploadFile_ok (s : Storage) (events : List Event) :
    ∃ events', xs.forM (fun x => uploadFile bucket target top (extend top x.1) x.2) (w.stored s events) =
      .ok () (w.stored (s.storeAll bucket
        (objectsFrom w.disk top target (xs.map (fun x => x.1 ++ [x.2])))) events') := by
  induction xs generalizing s events with
  | nil => exact ⟨events, rfl⟩
  | cons x xs ih =>
    obtain ⟨c, read⟩ := Option.ne_none_iff_exists'.mp (readable x List.mem_cons_self)
    have stored := uploadFile_read (w := w.stored s events) bucket target (proper x List.mem_cons_self)
      (read_content read)
    obtain ⟨events', rest⟩ := ih (fun y hy => proper y (List.mem_cons_of_mem _ hy))
      (fun y hy => readable y (List.mem_cons_of_mem _ hy)) _ _
    refine ⟨events', Eq.trans (bind_ok stored) (Eq.trans rest ?_)⟩
    rw [List.map_cons, objectsFrom, objectsFrom, List.filterMap_cons, read]
    rfl

theorem forM_uploadFile_error {x : List String × String}
    (refused : content? w.disk (extend top (x.1 ++ [x.2])) = none) (ys : List (List String × String))
    (s : Storage) (events : List Event) :
    ∃ f events', (xs ++ x :: ys).forM (fun x => uploadFile bucket target top (extend top x.1) x.2)
        (w.stored s events) = .error (.failure (.file f)) (w.stored (s.storeAll bucket
          (objectsFrom w.disk top target (xs.map (fun x => x.1 ++ [x.2])))) events') := by
  obtain ⟨events', done⟩ := forM_uploadFile_ok w top bucket target proper readable s events
  obtain ⟨f, stopped⟩ := uploadFile_refused (w := w.stored _ events') bucket target refused
  exact ⟨f, events' ++ [.note (.uploading (extend top (x.1 ++ [x.2])))], forM_error ys done stopped⟩

end Loop

theorem upload_listed {w : World} {directory bucket : String} (target : String) (hd : w.disk.Sound)
    (isDir : w.disk.isDirectory directory = true) (ready : bucket ∉ w.storage.forbidden) :
    ∃ events, upload directory bucket target w =
      ((Run.listed w.disk (w.disk.absolute directory) pathLimit []).forM (fun x =>
          uploadFile bucket target (w.disk.absolute directory)
            (extend (w.disk.absolute directory) x.1) x.2) >>= fun _ =>
        Run.note (.uploaded bucket target)) (w.stored (w.storage.opened bucket) events) := by
  obtain ⟨events, opened⟩ := openBucket_opened ready
  refine ⟨events, ?_⟩
  have lasting : Lasting (fun _ => True) (fun v : World => v.disk = w.disk) :=
    ⟨fun _ _ => Keeps.modify (fun _ h => h), fun _ => Keeps.modify (fun _ h => h)⟩
  have each : ∀ dir n, Keeps (fun v : World => v.disk = w.disk)
      (uploadFile bucket target (w.disk.absolute directory) dir n) :=
    fun dir n => keeps_uploadFile lasting (fun _ => trivial) trivial
  have walk := Run.agree_listed (w.disk.absolute directory) each pathLimit []
    (w.stored (w.storage.opened bucket) events) rfl
  rw [extend_nil] at walk
  rw [upload, bind_ok (Run.disk_apply w), isDir, if_neg (by simp)]
  dsimp only
  have noNul : '\x00' ∉ (w.disk.absolute directory).toList := by
    obtain ⟨_, found⟩ := found_of_isDirectory isDir
    exact noNul_absolute (hd.tree.proper _ _ hd.here) (Fits.of_find found).noNul
  rw [bind_ok opened, bind_ok (Run.disk_apply _), World.disk_stored, Run.walkAll, if_neg noNul]
  exact bind_same walk

theorem upload_readable {w : World} {directory bucket : String} (target : String) (hd : w.disk.Sound)
    (isDir : w.disk.isDirectory directory = true) (ready : bucket ∉ w.storage.forbidden)
    (readable : ∀ q ∈ Run.filesIn w.disk (w.disk.absolute directory),
      content? w.disk (extend (w.disk.absolute directory) q) ≠ none) :
    ∃ s events, upload directory bucket target w = .ok () (w.stored s events) ∧
      Storage.Overlaid w.storage s bucket (objectsFrom w.disk (w.disk.absolute directory) target
        (Run.filesIn w.disk (w.disk.absolute directory))) := by
  have proper : ∀ q ∈ Run.filesIn w.disk (w.disk.absolute directory), AllProper q := fun q hq =>
    Run.filesIn_proper hd hq
  obtain ⟨events, run⟩ := upload_listed target hd isDir ready
  obtain ⟨events', loop⟩ := forM_uploadFile_ok w (w.disk.absolute directory) bucket target
    (fun x hx => proper _ (List.mem_map.mpr ⟨x, hx, rfl⟩))
    (fun x hx => readable _ (List.mem_map.mpr ⟨x, hx, rfl⟩)) (w.storage.opened bucket) events
  rw [← Run.filesIn] at loop
  refine ⟨_, events' ++ [.note (.uploaded bucket target)], ?_,
    Storage.overlaid_storeAll _ bucket (nodup_objectsFrom (Run.filesIn_nodup hd _) proper)⟩
  rw [run, bind_ok loop, Run.note_apply, World.after_stored]

theorem upload_refused {w : World} {directory bucket : String} (target : String) (hd : w.disk.Sound)
    (isDir : w.disk.isDirectory directory = true) (ready : bucket ∉ w.storage.forbidden)
    {before after : List Place} {q : Place}
    (whole : Run.filesIn w.disk (w.disk.absolute directory) = before ++ q :: after)
    (readable : ∀ r ∈ before, content? w.disk (extend (w.disk.absolute directory) r) ≠ none)
    (refused : content? w.disk (extend (w.disk.absolute directory) q) = none) :
    ∃ f s events, upload directory bucket target w = .error (.failure (.file f)) (w.stored s events) ∧
      Storage.Overlaid w.storage s bucket
        (objectsFrom w.disk (w.disk.absolute directory) target before) := by
  have sublist : before.Sublist (Run.filesIn w.disk (w.disk.absolute directory)) :=
    whole ▸ List.sublist_append_left _ _
  have proper : ∀ r ∈ before, AllProper r := fun r hr => Run.filesIn_proper hd (sublist.subset hr)
  rw [Run.filesIn] at whole
  obtain ⟨xs, rest, listed, rfl, hrest⟩ := List.map_eq_append_iff.mp whole
  obtain ⟨x, ys, rfl, rfl, _⟩ := List.map_eq_cons_iff.mp hrest
  obtain ⟨events, run⟩ := upload_listed target hd isDir ready
  rw [listed] at run
  obtain ⟨f, events', loop⟩ := forM_uploadFile_error w (w.disk.absolute directory) bucket target
    (fun y hy => proper _ (List.mem_map.mpr ⟨y, hy, rfl⟩))
    (fun y hy => readable _ (List.mem_map.mpr ⟨y, hy, rfl⟩)) refused ys (w.storage.opened bucket) events
  refine ⟨f, _, events', run.trans (bind_error loop), ?_⟩
  exact Storage.overlaid_storeAll _ bucket
    (nodup_objectsFrom ((Run.filesIn_nodup hd _).sublist sublist) proper)

theorem upload_noInput {w : World} {directory : String} (bucket target : String)
    (missing : w.disk.isDirectory directory = false) :
    upload directory bucket target w = .error (.failure (.noInput directory)) w := by
  rw [upload, bind_ok (Run.disk_apply w), missing]
  rfl

theorem upload_forbidden {w : World} {directory bucket : String} (target : String)
    (isDir : w.disk.isDirectory directory = true) (closed : bucket ∈ w.storage.forbidden) :
    upload directory bucket target w =
      .error (.failure (.storage (.forbidden bucket))) (sought w bucket) := by
  have refused : openBucket bucket w = .error (.failure (.storage (.forbidden bucket))) (sought w bucket) := by
    rw [openBucket_eq, Storage.getBucket, if_pos closed]
  rw [upload, bind_ok (Run.disk_apply w), isDir, if_neg (by simp)]
  dsimp only
  rw [bind_error refused]

/-- An upload adds to a bucket the files of the directory that the absolute form of its path leads to, each
with its content and under a name of its own, and changes nothing else. It is the directory of the path
itself, unless that goes up again where it has passed a link. The first file that cannot be read ends the
upload, and then only the files before it have been added; a missing directory and a closed bucket end it
before anything is added. -/
theorem upload_overlays {w : World} (hd : w.disk.Sound) {directory top : String}
    (habs : w.disk.absolute directory = top) (bucket target : String) :
    (w.disk.isDirectory directory = false →
      upload directory bucket target w = .error (.failure (.noInput directory)) w) ∧
    (w.disk.isDirectory directory = true → bucket ∈ w.storage.forbidden →
      ∃ events, upload directory bucket target w =
        .error (.failure (.storage (.forbidden bucket))) (w.stored w.storage events)) ∧
    (w.disk.isDirectory directory = true → bucket ∉ w.storage.forbidden →
      ((Run.filesIn w.disk top).map (extend target)).Nodup ∧
      (∀ p, LeadsPlainly w.disk directory p → byteLength top < pathLimit →
        w.disk.find true top = .ok (.node p .directory)) ∧
      (∀ p, w.disk.find true top = .ok (.node p .directory) →
        (∀ q, w.disk.tree.node? (p ++ q) = some .directory → byteLength (extend top q) < pathLimit) →
        (∀ q, q ∈ Run.filesIn w.disk top ↔
          (∃ x, w.disk.tree.node? (p ++ q) = some x) ∧ w.disk.isDirectory (extend top q) = false) ∧
        ∀ q c, w.disk.tree.node? (p ++ q) = some (.file c) → byteLength (extend top q) < pathLimit →
          content? w.disk (extend top q) = some c) ∧
      ((∀ q ∈ Run.filesIn w.disk top, content? w.disk (extend top q) ≠ none) →
        ∃ s events, upload directory bucket target w = .ok () (w.stored s events) ∧
          Storage.Overlaid w.storage s bucket (objectsFrom w.disk top target (Run.filesIn w.disk top))) ∧
      ∀ before q after, Run.filesIn w.disk top = before ++ q :: after →
        (∀ r ∈ before, content? w.disk (extend top r) ≠ none) → content? w.disk (extend top q) = none →
        ∃ f s events, upload directory bucket target w = .error (.failure (.file f)) (w.stored s events) ∧
          Storage.Overlaid w.storage s bucket (objectsFrom w.disk top target before)) := by
  subst habs
  refine ⟨upload_noInput bucket target, fun isDir closed => ⟨_, upload_forbidden target isDir closed⟩,
    fun isDir ready => ⟨?_, fun p plain short => ?_, fun p found short => ⟨?_, fun q c there long => ?_⟩,
      upload_readable target hd isDir ready,
      fun before q after => upload_refused target hd isDir ready⟩⟩
  · refine (Run.filesIn_nodup hd _).map_on fun q hq r hr same => ?_
    exact extend_inj (Run.filesIn_proper hd hq) (Run.filesIn_proper hd hr) same
  · obtain ⟨r, found⟩ := found_of_isDirectory isDir
    exact plain.find_absolute hd (Fits.of_find found) short
  · exact Run.mem_filesIn hd found short
  · rw [(leads_of_find found).content?_file hd (Fits.of_find found) there, if_pos long]

def attic : World :=
  { World.ofDisk ⟨⟨[([".h"], .file [1]), (["e"], .directory), (["s"], .directory), (["s", "c"], .file [2]),
      (["s", "l"], .link "c")]⟩, []⟩ with
    storage := ⟨[("o", []), ("b", [("p/.h", [7]), ("p/z", [8])])], []⟩ }

theorem upload_overlays_attic :
    ∃ s events, upload "/" "b" "p" attic = .ok () (attic.stored s events) ∧
      s.object? "b" "p/.h" = some [1] ∧ s.object? "b" "p/s/c" = some [2] ∧
      s.object? "b" "p/s/l" = some [2] ∧ s.object? "b" "p/z" = some [8] ∧ s.object? "b" "p/e" = none ∧
      Table.keys s.buckets = ["o", "b"] := by
  have top : attic.disk.absolute "/" = "/" := by decide
  obtain ⟨_, _, open_⟩ := upload_overlays (w := attic)
    ⟨Tree.sound_of_entries (by decide) (by decide), rfl⟩ top "b" "p"
  obtain ⟨_, plain, files, done, _⟩ := open_ (by decide) (by decide)
  have found := plain [] ⟨[], [], [], _, rfl, .done _ _, List.not_mem_nil, .done _ _⟩ (by decide)
  have entries : ∀ q x, attic.disk.tree.node? q = some x → q = [] ∨ (q, x) ∈ attic.disk.tree.entries :=
    fun q x there => or_iff_not_imp_left.mpr fun hne => Tree.mem_entries hne there
  have short : ∀ e ∈ attic.disk.tree.entries, byteLength (extend "/" e.1) < pathLimit := by decide
  obtain ⟨listed, _⟩ := files [] found (by
    intro q there
    rcases entries q _ there with rfl | mem
    · decide
    · exact short (q, .directory) mem)
  have kinds : ∀ e ∈ attic.disk.tree.entries, attic.disk.isDirectory (extend "/" e.1) = true ∨
      e.1 ∈ [[".h"], ["s", "c"], ["s", "l"]] ∧ content? attic.disk (extend "/" e.1) ≠ none := by
    decide
  have three : ∀ q ∈ Run.filesIn attic.disk "/", q ∈ [[".h"], ["s", "c"], ["s", "l"]] ∧
      content? attic.disk (extend "/" q) ≠ none := by
    intro q hq
    obtain ⟨⟨x, there⟩, file⟩ := (listed q).mp hq
    rcases entries q x there with rfl | mem
    · exact absurd file (by decide)
    · exact (kinds (q, x) mem).resolve_left (by simp [file])
  obtain ⟨s, events, run, overlaid⟩ := done (fun q hq => (three q hq).2)
  have added : ∀ q c, attic.disk.isDirectory (extend "/" q) = false →
      content? attic.disk (extend "/" q) = some c → (∃ x, attic.disk.tree.node? q = some x) →
      s.object? "b" (extend "p" q) = some c := fun q c file hc there =>
    (overlaid.objects _ c).mpr (Or.inl (mem_objectsFrom.mpr ⟨q, (listed q).mpr ⟨there, file⟩, rfl, hc⟩))
  have kept : ∀ name c, (∀ q ∈ [[".h"], ["s", "c"], ["s", "l"]], name ≠ extend "p" q) →
      (s.object? "b" name = some c ↔ attic.storage.object? "b" name = some c) := by
    intro name c other
    have none : ∀ c', (name, c') ∉ objectsFrom attic.disk "/" "p" (Run.filesIn attic.disk "/") := by
      intro c' mem
      obtain ⟨q, hq, same, _⟩ := mem_objectsFrom.mp mem
      exact other q (three q hq).1 same
    exact (overlaid.objects name c).trans ⟨fun h => (h.resolve_left (none c)).2, fun h => Or.inr ⟨none, h⟩⟩
  refine ⟨s, events, run, added [".h"] _ (by decide) (by decide) ⟨_, rfl⟩,
    added ["s", "c"] _ (by decide) (by decide) ⟨_, rfl⟩,
    added ["s", "l"] _ (by decide) (by decide) ⟨_, rfl⟩,
    (kept "p/z" _ (by decide)).mpr rfl, Option.eq_none_iff_forall_ne_some.mpr fun c there => ?_,
    overlaid.buckets⟩
  cases (kept "p/e" c (by decide)).mp there

def straying : Disk where
  tree := ⟨[(["w"], .directory), (["w", "in"], .directory), (["w", "in", "a"], .file [1]),
    (["w", "l"], .link "o/s"), (["w", "o"], .directory), (["w", "o", "in"], .directory),
    (["w", "o", "in", "b"], .file [2]), (["w", "o", "s"], .directory)]⟩
  here := ["w"]

/-- The files that are stored are not those of the directory that the path leads to. -/
theorem upload_past_link :
    straying.find true "l/../in" = .ok (.node ["w", "o", "in"] .directory) ∧
      straying.tree.node? ["w", "o", "in", "b"] = some (.file [2]) ∧
      ∃ w, upload "l/../in" "b" "p" (.ofDisk straying) = .ok () w ∧
        w.storage.objects "b" = [("p/a", [1])] := by
  obtain ⟨_, w, run, objects⟩ := ok_of_run' (x := upload "l/../in" "b" "p") (s := .ofDisk straying)
    (f := fun w => w.storage.objects "b") (b := [("p/a", [1])]) (by decide +kernel)
  exact ⟨by decide +kernel, rfl, w, run, objects⟩

end Transfer

end SqlMigration
