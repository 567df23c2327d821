import SqlMigration.Job.Transfer
import SqlMigration.Proofs.Cloud.Service
import SqlMigration.Proofs.Files.Making
import SqlMigration.Proofs.Job.Processing

/-!
# What transfers leave

An upload stores each file below a directory under its names joined to the
target path. A download lays each object below a path as a file under the same
names.
-/

set_option autoImplicit false

namespace SqlMigration

open SqlMigration.Path Files Effect

def World.stored (w : World) (s : Storage) (events : List Event) : World :=
  { w with storage := s, events := events }

/-- The events by which a job is handed over: its bucket is opened, its files are uploaded, and it is
asked for. -/
def Event.isSent : Event → Bool
  | .gotBucket _ | .madeBucket _ | .uploaded _ _ | .requested (.create _) => true
  | _ => false

namespace Transfer

/-! ### Uploads -/

def sought (w : World) (bucket : String) : World :=
  (w.after (.note (.bucketSought bucket))).after (.gotBucket bucket)

theorem openBucket_eq (w : World) (bucket : String) :
    openBucket bucket w =
      match w.storage.getBucket bucket with
      | .ok () => .ok () (sought w bucket)
      | .error (.noBucket b) =>
        .ok () (w.stored (w.storage.createBucket b)
          (((sought w bucket).after (.note (.bucketMissing b))).after (.madeBucket b)).events)
      | .error f => .error (.failure (.storage f)) (sought w bucket) := by
  rw [openBucket, bind_ok (Run.note_apply _ w), bind_ok (Run.emit_apply _ _), bind_ok (get_apply _)]
  change (match w.storage.getBucket bucket with
    | .ok () => pure ()
    | .error (.noBucket b) => do
      Run.note (.bucketMissing b)
      Run.emit (.madeBucket b)
      changeStorage (·.createBucket b)
    | .error f => Run.fail (.storage f) : Run Unit) (sought w bucket) = _
  cases w.storage.getBucket bucket with
  | ok u => rfl
  | error f => cases f <;> rfl

theorem openBucket_opened {w : World} {bucket : String} (ready : bucket ∉ w.storage.forbidden) :
    ∃ events, openBucket bucket w = .ok () (w.stored (w.storage.opened bucket) events) := by
  rw [openBucket_eq, Storage.getBucket, if_neg ready, Storage.opened]
  by_cases there : bucket ∈ Table.keys w.storage.buckets
  · rw [(Storage.present_iff w.storage bucket).mpr there, if_pos there]
    exact ⟨(sought w bucket).events, rfl⟩
  · rw [(Table.get?_eq_none_iff w.storage.buckets bucket).mpr there, if_neg there]
    exact ⟨_, rfl⟩

theorem openBucket_ok {w : World} {bucket : String} (ready : bucket ∉ w.storage.forbidden)
    (hn : (Table.keys w.storage.buckets).Nodup) :
    ∃ s events, openBucket bucket w = .ok () (w.stored s events) ∧
      bucket ∈ Table.keys s.buckets ∧ (Table.keys s.buckets).Nodup ∧
      s.objects bucket = w.storage.objects bucket := by
  obtain ⟨events, run⟩ := openBucket_opened ready
  exact ⟨_, events, run, Storage.mem_keys_opened _ bucket, Storage.nodup_opened hn bucket,
    Storage.objects_opened _ bucket⟩

theorem below_extend {top : String} {ns : List String}
    (hns : AllProper ns) : below (extend top ns) top = joined ns := by
  have whole : top.toList.length = top.length := String.length_toList
  by_cases none : ns = []
  · subst none
    have rest : dropChars top top.length = "" := by
      rw [dropChars, ← whole, List.drop_length]
    rw [extend_nil, below, rest]
    rfl
  have relative := not_isAbsolute_joined hns
  have chars : (extend top ns).toList = top.toList ++ (gap top ++ (joined ns).toList) := by
    rw [← join_joined hns none, toList_join relative, List.append_assoc]
  have rest : dropChars (extend top ns) top.length = String.ofList (gap top ++ (joined ns).toList) := by
    rw [dropChars, chars, ← whole, List.drop_left]
  rw [below, rest]
  rcases gap_eq_nil_or top with ⟨hg, -⟩ | ⟨hg, -⟩
  · rw [hg, List.nil_append, String.ofList_toList, relative]
    rfl
  · have slash : isAbsolute (String.ofList (gap top ++ (joined ns).toList)) = true := by
      rw [isAbsolute, hg, String.toList_ofList]
      rfl
    rw [if_pos slash, hg, dropChars, String.toList_ofList]
    exact String.ofList_toList

def objectsOf (stem : String) (files : List (Place × Bytes)) : List (String × Bytes) :=
  files.map (fun e => (extend stem e.1, e.2))

theorem objectsOf_concat (stem : String) (files : List (Place × Bytes)) (e : Place × Bytes) :
    objectsOf stem (files ++ [e]) = objectsOf stem files ++ [(extend stem e.1, e.2)] := by
  simp [objectsOf]

theorem shelf_stored {os : Table String Bytes} {stem : String} {files : List (Place × Bytes)}
    (proper : ∀ e ∈ files, AllProper e.1) (distinct : (files.map (·.1)).Nodup)
    (empty : ∀ name, Storage.startsWith stem name = true → Table.get? os name = none) :
    Storage.Shelf (Table.putAll os (objectsOf stem files)) stem files := by
  have keys : (Table.keys (objectsOf stem files)).Nodup := by
    have split : Table.keys (objectsOf stem files) = (files.map (·.1)).map (extend stem) := by
      simp [Table.keys, objectsOf]
    rw [split]
    refine distinct.map_on ?_
    intro a ha b hb same
    obtain ⟨e, he, rfl⟩ := List.mem_map.mp ha
    obtain ⟨f, hf, rfl⟩ := List.mem_map.mp hb
    exact extend_inj (proper e he) (proper f hf) same
  intro name c below
  rw [Table.get?_putAll keys, empty name below, Option.or_none, ← Table.mem_iff_get? keys, objectsOf,
    List.mem_map]
  constructor
  · rintro ⟨e, he, same⟩
    cases same
    exact ⟨e.1, he, rfl⟩
  · rintro ⟨q, hq, rfl⟩
    exact ⟨(q, c), hq, rfl⟩

section Upload

variable {w : World} {top : String} {p : Place} (bucket target : String)

theorem uploadFile_read {ns : List String} {n : String} (proper : AllProper (ns ++ [n])) {content : Bytes}
    (read : Files.read (extend top (ns ++ [n])) w.disk = .ok content w.disk) :
    uploadFile bucket target top (extend top ns) n w =
      .ok () (w.stored (w.storage.store bucket (extend target (ns ++ [n])) content)
        (w.events ++ [.note (.uploading (extend top (ns ++ [n])))] ++
          [.uploaded bucket (extend target (ns ++ [n]))])) := by
  have object : join (join target (below (extend top ns) top)) n = extend target (ns ++ [n]) := by
    rw [below_extend proper.left, join_joined_name proper.left proper.last]
  have noted := Run.note_apply (.uploading (extend top (ns ++ [n]))) w
  have content' := Run.files_ok (w := w.after (.note (.uploading (extend top (ns ++ [n]))))) read
  rw [uploadFile]
  simp only [object, ← extend_concat]
  rw [bind_ok noted, bind_ok content', bind_ok (Run.emit_apply _ _)]
  rfl

theorem uploadFile_ok (hd : w.disk.Sound) (hl : Leads w.disk top p)
    {ns : List String} {n : String} {content : Bytes}
    (there : w.disk.tree.node? (p ++ (ns ++ [n])) = some (.file content))
    (fits : Fits (extend top (ns ++ [n]))) :
    uploadFile bucket target top (extend top ns) n w =
      .ok () (w.stored (w.storage.store bucket (extend target (ns ++ [n])) content)
        (w.events ++ [.note (.uploading (extend top (ns ++ [n])))] ++
          [.uploaded bucket (extend target (ns ++ [n]))])) :=
  uploadFile_read bucket target (hd.tree.proper _ _ there).right
    (read_eq (hl.find_present hd (by simp) fits there (by simp) true))

theorem uploadWalk_ok (hd : w.disk.Sound) (walkable : Run.Walkable w.disk.tree top p)
    (hl : Leads w.disk top p) (s : Storage) (events : List Event) :
    ∃ events', Run.walkAll (fun here names => names.forM (uploadFile bucket target top here)) top
        (w.stored s events) = .ok () (w.stored
          (s.storeAll bucket (objectsOf target (Run.filesBelow w.disk.tree p))) events') ∧
      events'.filter Event.isSent = events.filter Event.isSent ++
        (objectsOf target (Run.filesBelow w.disk.tree p)).map (fun o => .uploaded bucket o.1) := by
  have key := Run.walkAll_ok walkable (uploadFile bucket target top)
    (fun done w' => ∃ events', w' = w.stored
      (s.storeAll bucket (objectsOf target (done.filterMap (Run.fileAt w.disk.tree p)))) events' ∧
      events'.filter Event.isSent = events.filter Event.isSent ++
        (objectsOf target (done.filterMap (Run.fileAt w.disk.tree p))).map (fun o => .uploaded bucket o.1))
    (by
      rintro done w' ⟨events', rfl, _⟩
      exact ⟨hd, hl, fun _ => rfl⟩)
    (by
      rintro before ⟨ns, n⟩ after w' whole ⟨events', rfl, sent⟩
      have hm : (ns, n) ∈ Run.visited w.disk.tree p pathLimit [] := by rw [whole]; simp
      obtain ⟨c, hc⟩ := (Run.mem_visited_all walkable).mp hm
      rw [List.append_assoc] at hc
      have new : Run.fileAt w.disk.tree p (ns, n) = some (ns ++ [n], c) :=
        Run.fileAt_eq_some.mpr ⟨rfl, hc⟩
      have stored : (before ++ [(ns, n)]).filterMap (Run.fileAt w.disk.tree p) =
          before.filterMap (Run.fileAt w.disk.tree p) ++ [(ns ++ [n], c)] := by
        rw [List.filterMap_append, List.filterMap_cons, new, List.filterMap_nil]
      refine ⟨_, uploadFile_ok (w := w.stored _ events') bucket target hd hl hc (walkable.fits _ _ hc),
        events' ++ [.note (.uploading (extend top (ns ++ [n])))] ++
          [.uploaded bucket (extend target (ns ++ [n]))], ?_, ?_⟩
      · rw [stored, objectsOf_concat, Storage.storeAll_concat]
        rfl
      · rw [stored, objectsOf_concat, List.filter_append, List.filter_append, sent]
        simp [Event.isSent])
    (hl.directory hd) ⟨events, rfl, by simp [objectsOf]⟩
  obtain ⟨w', run, events', rfl, sent⟩ := key
  exact ⟨events', run, sent⟩

variable {directory : String} (hd : w.disk.Sound) (isDir : w.disk.isDirectory directory = true)
  (habs : w.disk.absolute directory = top) (walkable : Run.Walkable w.disk.tree top p)
  (hl : Leads w.disk top p)
include hd isDir habs walkable hl

theorem upload_opened {s : Storage} {events : List Event}
    (opened : openBucket bucket w = .ok () (w.stored s events)) :
    ∃ events', upload directory bucket target w = .ok () (w.stored
        (s.storeAll bucket (objectsOf target (Run.filesBelow w.disk.tree p))) events') ∧
      events'.filter Event.isSent = events.filter Event.isSent ++
        (objectsOf target (Run.filesBelow w.disk.tree p)).map (fun o => .uploaded bucket o.1) := by
  obtain ⟨events', run, sent⟩ := uploadWalk_ok bucket target hd walkable hl s events
  refine ⟨((w.stored s events').after (.note (.uploaded bucket target))).events, ?_, ?_⟩
  · have habs' : (w.stored s events).disk.absolute directory = top := habs
    rw [upload, bind_ok (Run.disk_apply w), isDir, if_neg (by simp)]
    dsimp only
    rw [bind_ok opened, bind_ok (Run.disk_apply _)]
    simp only [habs']
    rw [bind_ok run]
    rfl
  · rw [World.after, World.stored, List.filter_append, sent]
    simp [Event.isSent]

theorem upload_ok (ready : bucket ∉ w.storage.forbidden) (hn : (Table.keys w.storage.buckets).Nodup) :
    ∃ (s : Storage) (events : List Event), upload directory bucket target w = .ok () (w.stored
        (s.storeAll bucket (objectsOf target (Run.filesBelow w.disk.tree p))) events) ∧
      bucket ∈ Table.keys s.buckets ∧ (Table.keys s.buckets).Nodup ∧
      s.objects bucket = w.storage.objects bucket := by
  obtain ⟨s, events, opened, facts⟩ := openBucket_ok ready hn
  obtain ⟨events', run, _⟩ := upload_opened bucket target hd isDir habs walkable hl opened
  exact ⟨s, events', run, facts⟩

end Upload

/-! ### Downloads -/

theorem directoryPart_extend {stem : String} (hs : Named stem) {ns : List String} {n : String}
    (hns : AllProper ns) (hn : Proper n) :
    directoryPart stem (extend stem (ns ++ [n])) = if ns = [] then "" else joined ns ++ "/" := by
  have last := name_extend hs.trimmed hns hn
  have whole : (extend stem (ns ++ [n])).toList = (extend stem ns ++ "/").toList ++ n.toList := by
    rw [extend_concat, toList_join hn.not_isAbsolute, (hs.extend hns).gap_eq, toList_slash]
  have keep : (extend stem (ns ++ [n])).toList.length - n.length = (extend stem ns ++ "/").toList.length := by
    rw [whole, List.length_append, ← String.length_toList, Nat.add_sub_cancel]
  have front : directoryPart stem (extend stem (ns ++ [n])) =
      dropChars (extend stem ns ++ "/") (stem.length + 1) := by
    simp only [directoryPart, last, if_neg hn.nonempty, keep, dropChars]
    rw [whole, List.take_left]
  have size : stem.length + 1 = (stem ++ "/").toList.length := by
    rw [toList_slash, List.length_append, String.length_toList]
    rfl
  rw [front]
  by_cases hne : ns = []
  · rw [if_pos hne, hne, extend_nil, dropChars, size, List.drop_length]
  · have chars : (stem ++ "/" ++ joined ns ++ "/").toList =
        (stem ++ "/").toList ++ (joined ns ++ "/").toList := by
      rw [String.append_assoc, String.toList_append]
    rw [if_neg hne, hs.extend_eq hns hne, dropChars, size, chars, List.drop_left, String.ofList_toList]

def directoryOf (path stem : String) (ns : List String) (n : String) : String :=
  join path (directoryPart stem (extend stem (ns ++ [n])))

theorem bare_join_empty (path : String) : bare (join path "") = bare path := by
  rw [join, if_neg (by decide)]
  split_ifs with closed
  · simp
  · rw [not_or, Bool.not_eq_true] at closed
    have named : Named path := ⟨closed.1, closed.2⟩
    rw [String.append_empty, bare_slash named, bare_named named]

theorem join_empty_ne_empty {path : String} (hp : path ≠ "") : join path "" ≠ "" := by
  rw [join, if_neg (by decide)]
  split_ifs
  · simpa using hp
  · simp

section DirectoryOf

variable (path : String) {stem n : String} {ns : List String} (hs : Named stem) (hns : AllProper ns)
  (hn : Proper n)
include hs hns hn

theorem directoryOf_below (hne : ns ≠ []) : directoryOf path stem ns n = extend path ns ++ "/" := by
  have relative := not_isAbsolute_joined hns
  have chars : (joined ns).toList ≠ [] := by
    intro e
    have := parts_joined hns
    rw [String.toList_eq_nil_iff.mp e] at this
    exact hne this.symm
  have relative' : isAbsolute (joined ns ++ "/") = false := by
    rw [isAbsolute, toList_slash, List.head?_append_of_ne_nil _ chars]
    exact relative
  rw [directoryOf, directoryPart_extend hs hns hn, if_neg hne, ← join_joined hns hne]
  apply String.toList_inj.mp
  rw [toList_join relative', toList_slash, toList_slash, toList_join relative]
  simp only [List.append_assoc]

theorem directoryOf_top (none : ns = []) : directoryOf path stem ns n = join path "" := by
  rw [directoryOf, directoryPart_extend hs hns hn, if_pos none]

theorem directoryOf_named {path : String} (hp : Named path) : directoryOf path stem ns n = extend path ns ++ "/" := by
  by_cases hne : ns = []
  · rw [directoryOf_top path hs hns hn hne, hp.join_eq (by decide), hne]
    simp
  · exact directoryOf_below path hs hns hn hne

theorem join_directoryOf : join (directoryOf path stem ns n) n = extend path (ns ++ [n]) := by
  by_cases hne : ns = []
  · rw [directoryOf_top path hs hns hn hne, hne]
    exact @join_joined_name path n [] (fun _ h => absurd h List.not_mem_nil) hn
  · rw [directoryOf_below path hs hns hn hne, extend_concat]
    have named := named_extend (s := path) hns hne
    have slash : endsWithSlash (extend path ns ++ "/") = true := by simp [endsWithSlash]
    rw [named.join_eq hn.not_isAbsolute, join, hn.not_isAbsolute, if_neg (by simp),
      if_pos (Or.inr slash)]

theorem directoryOf_spells :
    (ns = [] ∧ bare (directoryOf path stem ns n) = bare path) ∨
      (ns ≠ [] ∧ Spells (directoryOf path stem ns n) (extend path ns)) := by
  by_cases hne : ns = []
  · refine Or.inl ⟨hne, ?_⟩
    rw [directoryOf_top path hs hns hn hne, bare_join_empty]
  · exact Or.inr ⟨hne, Or.inr (directoryOf_below path hs hns hn hne)⟩

theorem fits_directoryOf (hf : Fits (extend path (ns ++ [n]))) : Fits (directoryOf path stem ns n) := by
  have one : AllProper [n] := hn.single
  rw [← join_directoryOf path hs hns hn] at hf
  exact Fits.of_extend one hf

end DirectoryOf

theorem download_eq {w : World} {bucket : String} (present : bucket ∈ Table.keys w.storage.buckets)
    (directory : Given) (stem : String) :
    download directory bucket stem w = (do
      (w.storage.listing bucket stem).forM (downloadObject directory bucket stem)
      Run.note (.downloaded directory.text) : Run Unit)
        ((w.after (.listed bucket stem)).after (.note (.downloadStarted bucket stem))) := by
  have there : (w.after (.listed bucket stem)).storage.list bucket stem =
      .ok (w.storage.listing bucket stem) := by
    change w.storage.list bucket stem = _
    rw [Storage.list, (Storage.present_iff w.storage bucket).mpr present]
    rfl
  rw [download, bind_ok (Run.emit_apply _ w), bind_ok (get_apply _), there]
  dsimp only
  rw [bind_ok (Run.note_apply _ _)]

theorem download_absent {w : World} {bucket : String} (absent : bucket ∉ Table.keys w.storage.buckets)
    (directory : Given) (stem : String) :
    download directory bucket stem w =
      .error (.failure (.storage (.noBucket bucket))) (w.after (.listed bucket stem)) := by
  have there : (w.after (.listed bucket stem)).storage.list bucket stem = .error (.noBucket bucket) := by
    change w.storage.list bucket stem = _
    rw [Storage.list, (Table.get?_eq_none_iff _ _).mpr absent]
    rfl
  rw [download, bind_ok (Run.emit_apply _ w), bind_ok (get_apply _), there]
  rfl

section Download

variable {w : World} {path stem : String} {q : Place} (bucket : String)

theorem downloadObject_ok (hs : Named stem) {t : Tree} (ht : t.Sound) (free : Free t q)
    {done : List (Place × Bytes)} (receives : Receives w.disk path t q done) {ns : List String}
    {n : String} (hns : AllProper ns) (hn : Proper n) (apart : ∀ e ∈ done, Apart e.1 (ns ++ [n]))
    (fits : Fits (extend path (ns ++ [n]))) (content : Bytes) :
    ∃ u events, downloadObject (.path path) bucket stem (extend stem (ns ++ [n]), content) w =
        .ok () (w.turned u events) ∧ Disk.Sound { w.disk with tree := u } ∧
      Leads { w.disk with tree := u } path q ∧ Laid t u q (done ++ [(ns ++ [n], content)]) := by
  have file := join_directoryOf path hs hns hn
  have nonempty : directoryOf path stem ns n ≠ "" := by
    obtain ⟨_, _, run, _⟩ := receives.reach
    have hp := makePath_ne_empty run
    by_cases hne : ns = []
    · rw [directoryOf_top path hs hns hn hne]
      exact join_empty_ne_empty hp
    · rw [directoryOf_below path hs hns hn hne]
      simp
  obtain ⟨v, made, here, absent, laid⟩ := receives.next ht free hns hn apart
    (directoryOf_spells path hs hns hn) nonempty (fits_directoryOf path hs hns hn fits) fits
  have last := name_extend hs.trimmed hns hn
  have slash : endsWithSlash (extend path (ns ++ [n])) = false := by
    rw [extend_concat]
    exact (named_join hn).noFinalSlash
  have dir : join path (directoryPart stem (extend stem (ns ++ [n]))) = directoryOf path stem ns n := rfl
  obtain ⟨v, hv⟩ := v
  dsimp only at here
  subst here
  refine ⟨v.put (q ++ ns ++ [n]) (.file content),
    ((w.after (.note (.downloading (extend path (ns ++ [n]))))).after
      (.downloaded bucket (extend stem (ns ++ [n])) (extend path (ns ++ [n])))).events, ?_, laid content⟩
  rw [downloadObject, Given.needed, bind_ok (pure_apply _ _)]
  simp only [last, dir, file]
  rw [bind_ok (Run.files_ok made), bind_ok (Run.note_apply _ _), bind_ok (Run.emit_apply _ _)]
  exact Run.files_ok (write_absent content slash absent)

def fileOf (stem : String) (o : String × Bytes) : Place × Bytes :=
  (parts (dropChars o.1 (stem.length + 1)), o.2)

theorem fileOf_extend (hs : Named stem) {ns : Place} (hns : AllProper ns) (c : Bytes) :
    fileOf stem (extend stem ns, c) = (ns, c) := by
  rw [fileOf, hs.drop_extend hns, parts_joined hns]

/-- Files can be laid together: their names are proper, and none is at or below another. -/
structure Compatible (files : List (Place × Bytes)) : Prop where
  proper : ∀ e ∈ files, AllProper e.1 ∧ e.1 ≠ []
  apart : ∀ e ∈ files, ∀ f ∈ files, e.1 ≠ f.1 → Apart e.1 f.1

theorem compatible_filesBelow {t : Tree} {top : Place} (ht : t.Sound)
    (hx : t.node? top = some .directory) : Compatible (Run.filesBelow t top) where
  proper := by
    intro e he
    obtain ⟨x, _, hf⟩ := List.mem_filterMap.mp he
    have there := (Run.fileAt_eq_some.mp hf).2
    refine ⟨(ht.proper _ _ there).right, fun none => ?_⟩
    rw [none, List.append_nil, hx] at there
    cases there
  apart := by
    intro e he f hf hne
    obtain ⟨x, _, hx⟩ := List.mem_filterMap.mp he
    obtain ⟨y, _, hy⟩ := List.mem_filterMap.mp hf
    have one := (Run.fileAt_eq_some.mp hx).2
    have two := (Run.fileAt_eq_some.mp hy).2
    have differ : top ++ e.1 ≠ top ++ f.1 := fun same => hne (List.append_cancel_left same)
    have left := ht.not_prefix_of_files one two differ
    have right := ht.not_prefix_of_files two one differ.symm
    rw [List.prefix_append_right_inj] at left right
    exact ⟨left, right⟩

theorem mem_listing_iff {os : Storage} {files : List (Place × Bytes)} (compatible : Compatible files)
    (shelf : Storage.Shelf (os.objects bucket) stem files)
    (hn : (Table.keys (os.objects bucket)).Nodup) (o : String × Bytes) :
    o ∈ os.listing bucket stem ↔ ∃ e ∈ files, o = (extend stem e.1, e.2) := by
  obtain ⟨a, c⟩ := o
  rw [Storage.mem_listing, Table.mem_iff_get? hn]
  constructor
  · rintro ⟨hg, below⟩
    obtain ⟨q, hq, rfl⟩ := (shelf a c below).mp hg
    exact ⟨_, hq, rfl⟩
  · rintro ⟨⟨q, c⟩, he, e⟩
    cases e
    have below := Storage.startsWith_extend stem (compatible.proper _ he).1
    exact ⟨(shelf _ c below).mpr ⟨q, he, rfl⟩, below⟩

/-- The disk after some objects have been downloaded: as it was if there were none, and else with
their files laid below the place that the path leads to. -/
structure Received (w : World) (path : String) (t : Tree) (q : Place) (done : List (Place × Bytes))
    (u : Tree) : Prop where
  nothing : done = [] → u = w.disk.tree
  sound : done ≠ [] → Disk.Sound { w.disk with tree := u }
  leads : done ≠ [] → Leads { w.disk with tree := u } path q
  laid : done ≠ [] → Laid t u q done

theorem Received.receives {t u : Tree} {done : List (Place × Bytes)} (h : Received w path t q done u)
    (receives : Receives w.disk path t q []) (hf : Fits path) : Receives { w.disk with tree := u } path t q done := by
  obtain ⟨_, _, run, _⟩ := receives.reach
  by_cases none : done = []
  · rw [h.nothing none, none]
    exact receives
  · exact Receives.of_leads (h.sound none) (h.leads none) (makePath_ne_empty run) hf (h.laid none)

theorem forM_received (hs : Named stem) {t : Tree} (ht : t.Sound) (free : Free t q)
    {files : List (Place × Bytes)} (receives : files ≠ [] → Receives w.disk path t q [])
    (compatible : Compatible files) (fits : ∀ e ∈ files, Fits (extend path e.1))
    {os : List (String × Bytes)} (listed : ∀ o ∈ os, ∃ e ∈ files, o = (extend stem e.1, e.2))
    (distinct : (os.map (·.1)).Nodup) (events : List Event) :
    ∃ u events', os.forM (downloadObject (.path path) bucket stem) (w.turned w.disk.tree events) =
        .ok () (w.turned u events') ∧ Received w path t q (os.map (fileOf stem)) u := by
  obtain ⟨w', run, u, events', rfl, received⟩ := forM_ok (f := downloadObject (.path path) bucket stem) os
    (fun done w' => ∃ u events', w' = w.turned u events' ∧
      Received w path t q (done.map (fileOf stem)) u)
    (by
      rintro before o after w' whole ⟨u, events', rfl, received⟩
      obtain ⟨e, he, rfl⟩ := listed o (by rw [whole]; simp)
      obtain ⟨hq, hne⟩ := compatible.proper e he
      have others : ∀ f ∈ before.map (fileOf stem), Apart f.1 e.1 := by
        intro f hf
        obtain ⟨o', ho', rfl⟩ := List.mem_map.mp hf
        obtain ⟨g, hg, rfl⟩ := listed o' (by rw [whole]; simp [ho'])
        rw [fileOf_extend hs (compatible.proper g hg).1]
        refine compatible.apart g hg e he (fun same => ?_)
        have again : extend stem e.1 ∈ before.map (·.1) := List.mem_map.mpr ⟨_, ho', by rw [same]⟩
        rw [whole, List.map_append, List.nodup_append] at distinct
        exact distinct.2.2 _ again _ List.mem_cons_self rfl
      obtain ⟨ns, n, place⟩ := List.eq_nil_or_concat e.1 |>.resolve_left hne
      rw [List.concat_eq_append] at place
      have fits' := fits e he
      have top := fits'.of_extend hq
      rw [place] at hq others fits' ⊢
      obtain ⟨v, events'', run, sound, leads, laid⟩ := downloadObject_ok (w := w.turned u events') bucket
        hs ht free (received.receives (receives (List.ne_nil_of_mem he)) top) hq.left hq.last others fits' e.2
      refine ⟨_, run, v, events'', rfl, ?_⟩
      rw [List.map_append, List.map_cons, List.map_nil, fileOf_extend hs hq]
      exact ⟨by simp, fun _ => sound, fun _ => leads, fun _ => laid⟩)
    (s := w.turned w.disk.tree events) ⟨w.disk.tree, events, rfl, fun _ => rfl, by simp, by simp, by simp⟩
  exact ⟨u, events', run, received⟩

theorem download_received (hs : Named stem) {t : Tree} (ht : t.Sound) (free : Free t q)
    {files : List (Place × Bytes)} (receives : files ≠ [] → Receives w.disk path t q [])
    (compatible : Compatible files) (shelf : Storage.Shelf (w.storage.objects bucket) stem files)
    (hn : (Table.keys (w.storage.objects bucket)).Nodup)
    (present : bucket ∈ Table.keys w.storage.buckets)
    (fits : ∀ e ∈ files, Fits (extend path e.1)) :
    ∃ u events done, download (.path path) bucket stem w = .ok () (w.turned u events) ∧
      Received w path t q done u ∧ ∀ e, e ∈ done ↔ e ∈ files := by
  have listed := mem_listing_iff bucket compatible shelf hn
  have file : ∀ e ∈ files, fileOf stem (extend stem e.1, e.2) = e := fun e he =>
    fileOf_extend hs (compatible.proper e he).1 e.2
  obtain ⟨u, events, run, received⟩ := forM_received bucket hs ht free receives compatible fits
    (fun o => (listed o).mp) (Storage.nodup_listing hn stem)
    ((w.after (.listed bucket stem)).after (.note (.downloadStarted bucket stem))).events
  refine ⟨u, ((w.turned u events).after (.note (.downloaded path))).events, _, ?_, received, ?_⟩
  · rw [download_eq present]
    exact bind_ok run
  · intro e
    rw [List.mem_map]
    constructor
    · rintro ⟨o, ho, rfl⟩
      obtain ⟨g, hg, rfl⟩ := (listed o).mp ho
      rwa [file g hg]
    · intro he
      exact ⟨_, (listed _).mpr ⟨e, he, rfl⟩, file e he⟩

theorem download_ok (hs : Named stem) (hd : w.disk.Sound) (target : Points w.disk path q)
    (free : Free w.disk.tree q) {files : List (Place × Bytes)} (compatible : Compatible files)
    (shelf : Storage.Shelf (w.storage.objects bucket) stem files)
    (hn : (Table.keys (w.storage.objects bucket)).Nodup)
    (present : bucket ∈ Table.keys w.storage.buckets)
    (fits : ∀ e ∈ files, Fits (extend path e.1)) :
    ∃ u events done, download (.path path) bucket stem w = .ok () (w.turned u events) ∧
      Laid w.disk.tree u q done ∧ ∀ e, e ∈ done ↔ e ∈ files := by
  have receives : files ≠ [] → Receives w.disk path w.disk.tree q [] := by
    intro hne
    obtain ⟨e, he⟩ := List.exists_mem_of_ne_nil _ hne
    have fits' := (fits e he).of_extend (compatible.proper e he).1
    obtain ⟨t, made, opened⟩ := target.makePath hd (Or.inl rfl) fits' free.clear
    have leads := (opened.points free.clear target).leads (opened.disk hd free.clear)
      (opened.opened q (List.prefix_refl q))
    exact ⟨hd, _, _, made, leads, opened, Laid.nil hd.tree q⟩
  obtain ⟨u, events, done, run, received, same⟩ := download_received bucket hs hd.tree free receives
    compatible shelf hn present fits
  refine ⟨u, events, done, run, ?_, same⟩
  by_cases none : done = []
  · rw [received.nothing none, none]
    exact Laid.nil hd.tree q
  · exact received.laid none

end Download

end Transfer

end SqlMigration
