import SqlMigration.Proofs.Files.Inward
import SqlMigration.Proofs.Job.Keeping
import SqlMigration.Proofs.Job.Retrieval

/-!
# Where a download writes

A download joins a part of each object's name to the path of a directory. As
long as that part is no path from the root and goes up nowhere out of the
directory but to what is on the way to it, all that is made or written is in the
directory, apart from what is missing on the way.
-/

set_option autoImplicit false

namespace SqlMigration

open SqlMigration.Path Files Effect

namespace Transfer

/-- The part of an object's name for its directory is no path from the root, and goes on inward from the
place of a path. -/
def Inbound (top : Place) (ns : List String) (stem object : String) : Prop :=
  isAbsolute (directoryPart stem object) = false ∧ Inward top ns (parts (directoryPart stem object))

instance (top : Place) (ns : List String) (stem object : String) : Decidable (Inbound top ns stem object) :=
  inferInstanceAs (Decidable (_ ∧ _))

/-- The path of an object leads to a file at a place, with the content of one of some objects the paths of
which lead there. -/
def Delivered (path stem : String) (os : List (String × Bytes)) (object : String) (q : Place)
    (e : Disk) : Prop :=
  ∃ o ∈ os, e.find true (landing path stem object) = .ok (.node q (.file o.2)) ∧
    ∃ c, e.find true (landing path stem o.1) = .ok (.node q (.file c))

theorem Delivered.set {path stem : String} {os : List (String × Bytes)} {object : String} {q : Place}
    {e : Disk} (h : Delivered path stem os object q e) (he : e.Genuine) {r : Place} {x : Node}
    (spot : Spot e.tree r x) (new : ∀ c, x = .file c →
      ∃ o ∈ os, o.2 = c ∧ (e.set r x).find true (landing path stem o.1) = .ok (.node r (.file c))) :
    Delivered path stem os object q (e.set r x) := by
  obtain ⟨o, ho, found, c, there⟩ := h
  -- either another place is set, or the file gets the content of the object that is written now
  rcases spot.find_file he found with ⟨apart, now⟩ | ⟨c', rfl, kind, now⟩
  · rcases spot.find_file he there with ⟨_, still⟩ | ⟨_, same, _⟩
    · exact ⟨o, ho, now, c, still⟩
    · exact absurd same apart
  · obtain ⟨o', ho', rfl, last⟩ := new c' kind
    exact ⟨o', ho', now, _, last⟩

section Confined

variable {d e : Disk} {path : String} {top : Place} {ns : List String} (aims : Aims d path top ns)
  {stem object : String} (inbound : Inbound top ns stem object)

include aims inbound in
theorem landing_inside (he : Settled d e top ns) {f : Found}
    (found : e.find true (landing path stem object) = .ok f) (file : f.node? ≠ some .directory) :
    formal top ns <+: f.place := by
  obtain ⟨relative, inward⟩ := inbound
  rw [landing] at found
  -- a name that ends in a step up may lead out, but only to a directory, where no file is written
  by_cases up : name object = ".."
  · rw [up] at found
    obtain ⟨q, rfl⟩ := find_up found
    exact absurd rfl file
  · have more : Inward top ns (parts (directoryPart stem object) ++ parts (name object)) := by
      rw [parts_name]
      split
      · rwa [List.append_nil]
      · exact inward.concat up
    refine he.inside aims ?_ more ?_ found
    · rw [isAbsolute_join_relative (not_isAbsolute_name object), isAbsolute_join_relative relative]
    · rw [parts_join_relative (not_isAbsolute_name object), parts_join_relative relative, List.append_assoc]

include aims inbound in
theorem landed (he : Settled d e top ns) {r : Place} {content : Bytes}
    (sets : Sets e (landing path stem object) r (.file content)) :
    Settled d (e.set r (.file content)) top ns := by
  refine he.set (sets.spot he.genuine) (Or.inl ?_)
  cases sets with
  | file _ found =>
    rcases found with found | ⟨old, found⟩
    · exact landing_inside aims inbound he found (by simp [Found.node?])
    · exact landing_inside aims inbound he found (by simp [Found.node?])

include inbound in
theorem keeps_makePath_inbound {J : Disk → Prop}
    (made : ∀ u e p, Continues path top ns u → J e → Fresh e u p → J (made e u p)) :
    Keeps J (makePath (join path (directoryPart stem object))) := by
  have text := parts_join_relative (a := path) inbound.1
  exact keeps_makePath (fun _ hu => hu.above) made
    ⟨isAbsolute_join_relative inbound.1, _, inbound.2, text ▸ List.prefix_refl _⟩

include inbound in
theorem keeps_fetch {J : Disk → Prop} (bucket : String) {content : Bytes}
    (made : ∀ u e p, Continues path top ns u → J e → Fresh e u p → J (made e u p))
    (written : ∀ e r, J e → Sets e (landing path stem object) r (.file content) →
      J (e.set r (.file content))) :
    Keeps (fun w : World => J w.disk) (downloadObject (.path path) bucket stem (object, content)) := by
  rw [downloadObject_eq]
  exact Keeps.bind (Run.keeps_files_of (keeps_makePath_inbound inbound made)) (fun _ =>
    Keeps.bind (Run.keeps_emit (fun _ h => h)) (fun _ =>
      Keeps.bind (Run.keeps_emit (fun _ h => h)) (fun _ => Run.keeps_files_of (keeps_write written))))

end Confined

section Loop

variable {w : World} {path : String} {top : Place} {ns : List String}
  (aims : Aims w.disk path top ns) (bucket : String) {stem : String} {os : List (String × Bytes)}
  (inbound : ∀ o ∈ os, Inbound top ns stem o.1)
include aims inbound

theorem keeps_fetch_settled {o : String × Bytes} (ho : o ∈ os) :
    Keeps (fun v : World => Settled w.disk v.disk top ns) (downloadObject (.path path) bucket stem o) :=
  keeps_fetch (inbound o ho) bucket (fun _ _ _ hu he fresh => he.made aims hu fresh)
    (fun _ _ he sets => landed aims (inbound o ho) he sets)

theorem keeps_fetch_delivered {object : String} {q : Place} {o : String × Bytes} (ho : o ∈ os) :
    Keeps (fun v : World => Settled w.disk v.disk top ns ∧ Delivered path stem os object q v.disk)
      (downloadObject (.path path) bucket stem o) := by
  refine keeps_fetch (inbound o ho) bucket (J := fun e => Settled w.disk e top ns ∧
    Delivered path stem os object q e) (fun u e p hu he fresh => ⟨he.1.made aims hu fresh, ?_⟩)
    (fun e r he sets => ⟨landed aims (inbound o ho) he.1 sets, ?_⟩)
  · exact he.2.set he.1.genuine ((Sets.directory fresh).spot he.1.genuine) (fun _ kind => nomatch kind)
  · refine he.2.set he.1.genuine (sets.spot he.1.genuine) (fun c kind => ⟨o, ho, Node.file.inj kind, ?_⟩)
    rw [← Node.file.inj kind]
    exact sets.found he.1.genuine

theorem fetch_delivers {o : String × Bytes} (ho : o ∈ os) {v v' : World}
    (hv : Settled w.disk v.disk top ns)
    (run : downloadObject (.path path) bucket stem o v = .ok () v') :
    ∃ q, formal top ns <+: q ∧ Settled w.disk v'.disk top ns ∧ Delivered path stem os o.1 q v'.disk := by
  have settled := (keeps_fetch_settled aims bucket inbound ho).of_ok hv run
  have made : Keeps (fun e => Settled w.disk e top ns) (makePath (join path (directoryPart stem o.1))) :=
    keeps_makePath_inbound (inbound o ho) (fun _ _ _ hu he fresh => he.made aims hu fresh)
  rw [downloadObject_eq] at run
  obtain ⟨_, v₁, first, run⟩ := ok_of_bind run
  have hv₁ := (Run.keeps_files_of made).of_ok hv first
  rw [bind_ok (Run.note_apply _ _), bind_ok (Run.emit_apply _ _)] at run
  obtain ⟨v₂, hv₂, run⟩ : ∃ v₂ : World, Settled w.disk v₂.disk top ns ∧
    Run.files (write (landing path stem o.1) o.2) v₂ = .ok () v' := ⟨_, by exact hv₁, run⟩
  rcases write_cases (landing path stem o.1) o.2 v₂.disk with ⟨f, failed⟩ | ⟨r, sets, wrote⟩
  · rw [Run.files_error failed] at run
    cases run
  · rw [Run.files_ok wrote] at run
    have same : v'.disk = v₂.disk.set r (.file o.2) := by
      cases run
      rfl
    have found := sets.found hv₂.genuine
    rw [← same] at found
    exact ⟨r, landing_inside aims (inbound o ho) settled found (by simp [Found.node?]), settled, o, ho, found,
      _, found⟩

end Loop

/-- Whether it ends well or not, a download changes nothing outside the directory, if its objects have names
that go on inward from there. Only directories that are missing on the way to it are made elsewhere. If it ends
well, each object is a file in the directory, unless another one has been written over it. -/
theorem download_confined {w : World} (hd : w.disk.Genuine) {path : String} {top : Place}
    {ns : List String} (aims : Aims w.disk path top ns) (bucket stem : String)
    (inbound : ∀ o ∈ w.storage.listing bucket stem, Inbound top ns stem o.1) :
    Kept w.disk (final (download (.path path) bucket stem w)).disk ∧
      (∀ r, (final (download (.path path) bucket stem w)).disk.tree.node? r ≠ w.disk.tree.node? r →
        formal top ns <+: r ∨
          (∃ ks, ks <+: ns ∧ r = formal top ks) ∧ w.disk.tree.node? r = none ∧
            (final (download (.path path) bucket stem w)).disk.tree.node? r = some .directory) ∧
      ∀ v, download (.path path) bucket stem w = .ok () v → ∀ o ∈ w.storage.listing bucket stem,
        ∃ q, formal top ns <+: q ∧ Delivered path stem (w.storage.listing bucket stem) o.1 q v.disk := by
  have start := aims.settled hd
  have fetched : ∀ o ∈ w.storage.listing bucket stem, Keeps (fun v : World => Settled w.disk v.disk top ns)
      (downloadObject (.path path) bucket stem o) :=
    fun o ho => keeps_fetch_settled aims bucket inbound ho
  have settled : Settled w.disk (final (download (.path path) bucket stem w)).disk top ns := by
    by_cases there : bucket ∈ Table.keys w.storage.buckets
    · rw [download_eq there]
      exact Keeps.bind (Keeps.forM _ fetched) (fun _ => Run.keeps_emit (fun _ h => h)) _ start
    · rw [download_absent there]
      exact start
  refine ⟨settled.kept, settled.changed, fun v run o ho => ?_⟩
  obtain ⟨v', fetches, rfl⟩ := download_fetched run
  obtain ⟨q, hq, _, delivered⟩ := Keeps.forM_reaches ho
    (J := fun v : World => ∃ q, formal top ns <+: q ∧ Settled w.disk v.disk top ns ∧
      Delivered path stem (w.storage.listing bucket stem) o.1 q v.disk) fetched
    (fun o ho v ⟨q, hq, hv⟩ => ⟨q, hq, keeps_fetch_delivered aims bucket inbound ho v hv⟩)
    (fun _ _ hv run => fetch_delivers aims bucket inbound ho hv run) (by exact start) fetches
  exact ⟨q, hq, delivered⟩

def spread : World :=
  { World.ofDisk ⟨⟨[(["w"], .directory), (["w", "l"], .link "v"), (["w", "v"], .directory)]⟩, ["w"]⟩ with
    storage := ⟨[("b", [("out/../loc/c", [1])])], []⟩ }

theorem aims_spread : Aims spread.disk "l/n/loc" ["w", "v"] ["n", "loc"] where
  way := by
    have leads : Leads spread.disk "l" ["w", "v"] := leads_of_find (by decide)
    obtain ⟨j, way⟩ := leads
    exact ⟨["l"], j, by decide, way⟩
  plain := by
    intro r near target there
    obtain ⟨rfl, _⟩ : r = ["w", "l"] ∧ target = "v" := by
      simpa [spread, World.ofDisk] using Tree.mem_entries_of_link there
    exact absurd near (by decide)

theorem download_confined_spread :
    ∃ v, download (.path "l/n/loc") "b" "out" spread = .ok () v ∧
      v.disk.tree.node? ["w", "v", "n", "loc", "c"] = some (.file [1]) ∧
      ∀ r, ¬ ["w", "v", "n"] <+: r → v.disk.tree.node? r = spread.disk.tree.node? r := by
  obtain ⟨_, v, run, file⟩ := ok_of_run' (x := download (.path "l/n/loc") "b" "out") (s := spread)
    (f := fun w => w.disk.tree.node? ["w", "v", "n", "loc", "c"]) (b := some (.file [1]))
    (by decide +kernel)
  have genuine : spread.disk.Genuine :=
    Disk.genuine_of_entries (by decide) (by decide +kernel) rfl (by simp [spread, World.ofDisk])
  obtain ⟨_, changed, _⟩ := download_confined genuine aims_spread "b" "out" (by decide +kernel)
  rw [run] at changed
  refine ⟨v, run, file, fun r outside => ?_⟩
  by_contra differ
  rcases changed r differ with below | ⟨⟨ks, hk, rfl⟩, absent, _⟩
  · exact outside (List.IsPrefix.trans (by decide) below)
  · have missing : ∀ ks ∈ ["n", "loc"].inits, spread.disk.tree.node? (formal ["w", "v"] ks) = none →
        ["w", "v", "n"] <+: formal ["w", "v"] ks := by decide
    exact outside (missing ks ((List.mem_inits _ _).mpr hk) absent)

def loose (objects : List (String × Bytes)) : World :=
  { World.ofDisk ⟨⟨[(["w"], .directory)]⟩, ["w"]⟩ with storage := ⟨[("b", objects)], []⟩ }

/-- A name that goes up and on to another place, and one of which a path from the root is left, lead out of
the directory. -/
theorem download_escapes :
    (∃ v, download (.path "loc") "b" "out" (loose [("out/../x", [1])]) = .ok () v ∧
      v.disk.tree.node? ["w", "x"] = some (.file [1])) ∧
    (∃ v, download (.path "loc") "b" "out" (loose [("outs/x", [1])]) = .ok () v ∧
      v.disk.tree.node? ["x"] = some (.file [1])) ∧
    ∀ objects, Aims (loose objects).disk "loc" ["w"] ["loc"] ∧ ¬ formal ["w"] ["loc"] <+: ["w", "x"] ∧
      ¬ formal ["w"] ["loc"] <+: ["x"] := by
  obtain ⟨_, v, run, file⟩ := ok_of_run' (x := download (.path "loc") "b" "out")
    (s := loose [("out/../x", [1])]) (f := fun w => w.disk.tree.node? ["w", "x"])
    (b := some (.file [1])) (by decide +kernel)
  obtain ⟨_, v', run', file'⟩ := ok_of_run' (x := download (.path "loc") "b" "out")
    (s := loose [("outs/x", [1])]) (f := fun w => w.disk.tree.node? ["x"])
    (b := some (.file [1])) (by decide +kernel)
  refine ⟨⟨v, run, file⟩, ⟨v', run', file'⟩, fun objects => ⟨⟨⟨[], _, by decide, .done _ _⟩, ?_⟩, by decide,
    by decide⟩⟩
  intro r _ target there
  simpa [loose, World.ofDisk] using Tree.mem_entries_of_link there

end Transfer

end SqlMigration
