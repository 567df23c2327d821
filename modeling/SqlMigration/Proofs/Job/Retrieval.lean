import SqlMigration.Proofs.Job.Transfer

/-!
# Which objects a download fetches

A download fetches the objects whose names start with a path, in the order of
their names, and looks at nothing else in the storage. The path may end in the
middle of a name, so these need not be the objects below it.
-/

set_option autoImplicit false

namespace SqlMigration

open SqlMigration.Path Files Effect

/-! ### Listings -/

namespace Storage

theorem nameLE_iff (a b : String × Bytes) : nameLE a b = true ↔ a.1 ≤ b.1 := by
  rw [nameLE, Bool.not_eq_true', decide_eq_false_iff_not, String.not_lt]

theorem listing_pairwise (s : Storage) (bucket stem : String) :
    (s.listing bucket stem).Pairwise (fun a b => a.1 ≤ b.1) :=
  Tree.pairwise_mergeSort_of_key Prod.fst nameLE_iff _

theorem mem_listing_iff_object? {s : Storage} {bucket : String}
    (nodup : (Table.keys (s.objects bucket)).Nodup) (stem : String) (o : String × Bytes) :
    o ∈ s.listing bucket stem ↔ s.object? bucket o.1 = some o.2 ∧ startsWith stem o.1 = true := by
  rw [mem_listing, object?, ← Table.mem_iff_get? nodup]

theorem mem_names_listing {s : Storage} {bucket : String}
    (nodup : (Table.keys (s.objects bucket)).Nodup) (stem name : String) :
    name ∈ (s.listing bucket stem).map (·.1) ↔
      startsWith stem name = true ∧ s.object? bucket name ≠ none := by
  rw [List.mem_map, Option.ne_none_iff_exists']
  constructor
  · rintro ⟨o, ho, rfl⟩
    obtain ⟨held, below⟩ := (mem_listing_iff_object? nodup stem o).mp ho
    exact ⟨below, _, held⟩
  · rintro ⟨below, c, held⟩
    exact ⟨(name, c), (mem_listing_iff_object? nodup stem (name, c)).mpr ⟨held, below⟩, rfl⟩

theorem names_listing {s : Storage} {bucket : String} (nodup : (Table.keys (s.objects bucket)).Nodup)
    (stem : String) : ((s.listing bucket stem).map (·.1)).Pairwise (fun a b => a < b) := by
  have ordered := (List.pairwise_map (f := fun o : String × Bytes => o.1)).mpr
    (listing_pairwise s bucket stem)
  refine (ordered.and (nodup_listing nodup stem)).imp fun {a b} ⟨le, differ⟩ => ?_
  exact String.not_le.mp fun ge => differ (String.le_antisymm le ge)

theorem listing_congr {s s' : Storage} {bucket stem : String}
    (nodup : (Table.keys (s.objects bucket)).Nodup) (nodup' : (Table.keys (s'.objects bucket)).Nodup)
    (same : ∀ name, startsWith stem name = true → s.object? bucket name = s'.object? bucket name) :
    s.listing bucket stem = s'.listing bucket stem := by
  have mem : ∀ o, o ∈ s.listing bucket stem ↔ o ∈ s'.listing bucket stem := by
    intro o
    rw [mem_listing_iff_object? nodup, mem_listing_iff_object? nodup']
    exact and_congr_left fun below => by rw [same o.1 below]
  have perm := (List.perm_ext_iff_of_nodup (List.Nodup.of_map _ (nodup_listing nodup stem))
    (List.Nodup.of_map _ (nodup_listing nodup' stem))).mpr mem
  refine perm.eq_of_pairwise (fun a b ha hb hab hba => ?_) (listing_pairwise s bucket stem)
    (listing_pairwise s' bucket stem)
  -- objects of one name in one bucket are the same
  have name : a.1 = b.1 := String.le_antisymm hab hba
  have one := ((mem_listing_iff_object? nodup' stem a).mp ((mem a).mp ha)).1
  have two := ((mem_listing_iff_object? nodup' stem b).mp hb).1
  rw [name, two] at one
  exact Prod.ext name (Option.some.inj one).symm

end Storage

namespace Transfer

def landing (path stem object : String) : String :=
  join (join path (directoryPart stem object)) (name object)

theorem downloadObject_eq (path bucket stem : String) (o : String × Bytes) :
    downloadObject (.path path) bucket stem o = (do
      Run.files (makePath (join path (directoryPart stem o.1)))
      Run.note (.downloading (landing path stem o.1))
      Run.emit (.downloaded bucket o.1 (landing path stem o.1))
      Run.files (write (landing path stem o.1) o.2)) := by
  rw [downloadObject, Given.needed, pure_bind, landing]

/-! ### Two storages -/

def Exchanged (s s' : Storage) (w v : World) : Prop :=
  w.storage = s ∧ v = { w with storage := s' }

section Exchanged

variable {s s' : Storage}

theorem Exchanged.emit (e : Event) : Parallel (Exchanged s s') (Run.emit e) (Run.emit e) := by
  refine Parallel.modify ?_
  rintro w _ ⟨stored, rfl⟩
  exact ⟨stored, rfl⟩

theorem Exchanged.files {α : Type} (action : Action α) :
    Parallel (Exchanged s s') (Run.files action) (Run.files action) := by
  rintro w _ ⟨stored, rfl⟩
  unfold Run.files
  cases action w.disk with
  | ok a d => exact .ok a ⟨stored, rfl⟩
  | error f d => exact .error _ ⟨stored, rfl⟩

theorem Exchanged.downloadObject (path bucket stem : String) (o : String × Bytes) :
    Parallel (Exchanged s s') (downloadObject (.path path) bucket stem o)
      (downloadObject (.path path) bucket stem o) := by
  rw [downloadObject_eq]
  exact Parallel.bind (files _) (fun _ => Parallel.bind (emit _) (fun _ =>
    Parallel.bind (emit _) (fun _ => files _)))

end Exchanged

/-! ### The log of a download -/

def fetching (path bucket stem : String) (names : List String) : List Event :=
  names.flatMap (fun object =>
    [.note (.downloading (landing path stem object)), .downloaded bucket object (landing path stem object)])

theorem downloadObject_logged {path bucket stem : String} {o : String × Bytes} {w w' : World}
    (run : downloadObject (.path path) bucket stem o w = .ok () w') :
    w'.storage = w.storage ∧ w'.events = w.events ++ fetching path bucket stem [o.1] := by
  have quiet : ∀ (v : World) (action : Action Unit),
      Keeps (fun u => u.storage = v.storage ∧ u.events = v.events) (Run.files action) :=
    fun v action => Run.keeps_files (fun _ h => h)
  rw [downloadObject_eq] at run
  obtain ⟨_, w₁, made, run⟩ := ok_of_bind run
  rw [bind_ok (Run.note_apply _ _), bind_ok (Run.emit_apply _ _)] at run
  obtain ⟨storage, events⟩ := (quiet w _).of_ok ⟨rfl, rfl⟩ made
  obtain ⟨storage', events'⟩ := (quiet _ _).of_ok ⟨rfl, rfl⟩ run
  refine ⟨storage'.trans storage, events'.trans ?_⟩
  change w₁.events ++ [_] ++ [_] = _
  rw [events, List.append_assoc]
  rfl

theorem forM_downloadObject_logged {path bucket stem : String} {os : List (String × Bytes)} {w w' : World}
    (run : os.forM (downloadObject (.path path) bucket stem) w = .ok () w') :
    w'.events = w.events ++ fetching path bucket stem (os.map (·.1)) := by
  induction os generalizing w with
  | nil =>
    cases run
    exact (List.append_nil _).symm
  | cons o os ih =>
    obtain ⟨_, v, first, rest⟩ := ok_of_bind run
    rw [ih rest, (downloadObject_logged first).2, List.append_assoc]
    rfl

theorem download_fetched {directory : Given} {bucket stem : String} {w w' : World}
    (run : download directory bucket stem w = .ok () w') :
    ∃ v, (w.storage.listing bucket stem).forM (downloadObject directory bucket stem)
        ((w.after (.listed bucket stem)).after (.note (.downloadStarted bucket stem))) = .ok () v ∧
      w' = v.after (.note (.downloaded directory.text)) := by
  by_cases there : bucket ∈ Table.keys w.storage.buckets
  · rw [download_eq there] at run
    obtain ⟨_, v, loop, last⟩ := ok_of_bind run
    cases last
    exact ⟨v, loop, rfl⟩
  · rw [download_absent there] at run
    cases run

theorem download_logged {path bucket stem : String} {w w' : World}
    (run : download (.path path) bucket stem w = .ok () w') :
    w'.events = w.events ++ [.listed bucket stem, .note (.downloadStarted bucket stem)] ++
      fetching path bucket stem ((w.storage.listing bucket stem).map (·.1)) ++
        [.note (.downloaded path)] := by
  obtain ⟨v, loop, rfl⟩ := download_fetched run
  change v.events ++ [_] = _
  rw [forM_downloadObject_logged loop]
  change w.events ++ [_] ++ [_] ++ _ ++ _ = _
  rw [List.append_assoc w.events]
  rfl

/-- A download fetches the objects whose names start with the path, each once and in the order of their
names, and does the same whatever else the storage holds. -/
theorem download_sees {w : World} {s' : Storage} (path : String) {bucket stem : String}
    (nodup : (Table.keys (w.storage.objects bucket)).Nodup) (nodup' : (Table.keys (s'.objects bucket)).Nodup)
    (present : bucket ∈ Table.keys w.storage.buckets ↔ bucket ∈ Table.keys s'.buckets)
    (same : ∀ name, Storage.startsWith stem name = true →
      w.storage.object? bucket name = s'.object? bucket name) :
    Alike (Exchanged w.storage s') (download (.path path) bucket stem w)
        (download (.path path) bucket stem { w with storage := s' }) ∧
      ∀ w', download (.path path) bucket stem w = .ok () w' →
        ∃ seen : List String, seen.Pairwise (fun a b => a < b) ∧
          (∀ name, name ∈ seen ↔
            Storage.startsWith stem name = true ∧ w.storage.object? bucket name ≠ none) ∧
          w'.events = w.events ++ [.listed bucket stem, .note (.downloadStarted bucket stem)] ++
            fetching path bucket stem seen ++ [.note (.downloaded path)] := by
  constructor
  · by_cases there : bucket ∈ Table.keys w.storage.buckets
    · rw [download_eq there, download_eq (present.mp there), ← Storage.listing_congr nodup nodup' same]
      refine Parallel.bind (Parallel.forM _ (fun o _ => Exchanged.downloadObject path bucket stem o))
        (fun _ => Exchanged.emit _) _ _ ⟨rfl, rfl⟩
    · rw [download_absent there, download_absent (fun there' => there (present.mpr there'))]
      exact .error _ ⟨rfl, rfl⟩
  · intro w' run
    exact ⟨_, Storage.names_listing nodup stem, Storage.mem_names_listing nodup stem, download_logged run⟩

def crate (objects : List (String × Bytes)) : World :=
  { World.ofDisk ⟨.empty, []⟩ with storage := ⟨[("b", objects)], []⟩ }

theorem download_sees_crate :
    ∃ w v, download (.path "loc") "b" "out" (crate [("out/a/b", [1]), ("z", [9])]) = .ok () w ∧
      download (.path "loc") "b" "out" { crate [] with
        storage := ⟨[("c", []), ("b", [("y", [8]), ("out/a/b", [1])])], ["c"]⟩ } = .ok () v ∧
      w.disk.tree.node? ["loc", "a", "b"] = some (.file [1]) ∧ v.disk = w.disk ∧
      .downloaded "b" "out/a/b" "loc/a/b" ∈ w.events := by
  obtain ⟨_, w, run, file⟩ := ok_of_run' (x := download (.path "loc") "b" "out")
    (s := crate [("out/a/b", [1]), ("z", [9])]) (f := fun w => w.disk.tree.node? ["loc", "a", "b"])
    (b := some (.file [1])) (by decide +kernel)
  have same : ∀ name, Storage.startsWith "out" name = true →
      Storage.object? ⟨[("b", [("out/a/b", [1]), ("z", [9])])], []⟩ "b" name =
        Storage.object? ⟨[("c", []), ("b", [("y", [8]), ("out/a/b", [1])])], ["c"]⟩ "b" name := by
    intro name below
    have y : "y" ≠ name := by rintro rfl; exact absurd below (by decide)
    have z : "z" ≠ name := by rintro rfl; exact absurd below (by decide)
    simp [Storage.object?, Storage.objects, Table.get?, y, z]
  obtain ⟨alike, log⟩ := download_sees (w := crate [("out/a/b", [1]), ("z", [9])]) "loc" (by decide)
    (by decide) (by decide) same
  obtain ⟨seen, _, mem, events⟩ := log w run
  have fetched := (mem "out/a/b").mpr (by decide)
  rw [run] at alike
  generalize other : download _ _ _ { crate _ with storage := _ } = r at alike
  cases alike with
  | ok _ exchanged =>
    refine ⟨w, _, run, other, file, by rw [exchanged.2], ?_⟩
    rw [events]
    refine List.mem_append_left _ (List.mem_append_right _ (List.mem_flatMap.mpr ⟨_, fetched, ?_⟩))
    rw [show landing "loc" "out" "out/a/b" = "loc/a/b" by decide +kernel]
    simp

/-- An object beside the path is written over one below it. -/
theorem download_mixes :
    (∀ name, Storage.startsWith "out/" name = true →
      (crate [("out/a/b", [1])]).storage.object? "b" name =
        (crate [("out/a/b", [1]), ("out1a/b", [2])]).storage.object? "b" name) ∧
    ∃ w v, download (.path "loc") "b" "out" (crate [("out/a/b", [1])]) = .ok () w ∧
      download (.path "loc") "b" "out" (crate [("out/a/b", [1]), ("out1a/b", [2])]) = .ok () v ∧
      w.disk.tree.node? ["loc", "a", "b"] = some (.file [1]) ∧
      v.disk.tree.node? ["loc", "a", "b"] = some (.file [2]) := by
  constructor
  · intro name below
    have other : "out1a/b" ≠ name := by rintro rfl; exact absurd below (by decide)
    simp [crate, Storage.object?, Storage.objects, Table.get?, other]
  · obtain ⟨_, w, run, file⟩ := ok_of_run' (x := download (.path "loc") "b" "out")
      (s := crate [("out/a/b", [1])]) (f := fun w => w.disk.tree.node? ["loc", "a", "b"])
      (b := some (.file [1])) (by decide +kernel)
    have listing : (crate [("out/a/b", [1]), ("out1a/b", [2])]).storage.listing "b" "out" =
        [("out/a/b", [1]), ("out1a/b", [2])] := List.mergeSort_of_pairwise (by decide +kernel)
    have started := @download_eq (crate [("out/a/b", [1]), ("out1a/b", [2])]) "b" (by decide) (.path "loc")
      "out"
    rw [listing] at started
    obtain ⟨_, v, run', file'⟩ := ok_of_run' (x := do
        [("out/a/b", [1]), ("out1a/b", [2])].forM (downloadObject (.path "loc") "b" "out")
        Run.note (.downloaded "loc"))
      (s := ((crate [("out/a/b", [1]), ("out1a/b", [2])]).after (.listed "b" "out")).after
        (.note (.downloadStarted "b" "out")))
      (f := fun w => w.disk.tree.node? ["loc", "a", "b"]) (b := some (.file [2])) (by decide +kernel)
    exact ⟨w, v, run, started.trans run', file, file'⟩

end Transfer

end SqlMigration
