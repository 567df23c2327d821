import Mathlib.Data.List.Infix
import SqlMigration.Proofs.Job.Keeping
import SqlMigration.Proofs.Job.Transfer

/-!
# There and back

A directory is uploaded and then downloaded to a path where a directory can be
made that is new and empty. Its files come back under the same names with the
same contents, each from an object of its own, and nothing else is touched.
-/

set_option autoImplicit false

namespace SqlMigration.Tree

theorem Sound.remove {t : Tree} (h : t.Sound) {q : Place} (hq : q ≠ [])
    (empty : ∀ n, t.node? (q ++ [n]) = none) : (t.remove q).Sound := by
  have less : ∀ {p : Place} {x : Node}, (t.remove q).node? p = some x → t.node? p = some x := by
    intro p x hx
    by_cases root : p = []
    · rw [root] at hx ⊢
      exact hx
    · rw [node?_remove t root] at hx
      split at hx
      · cases hx
      · exact hx
  refine ⟨Table.nodup_filter h.nodup _, fun p x hx => h.proper p x (less hx),
    fun p x hx => h.short p x (less hx), fun p n x hx => ?_⟩
  have above := h.above p n x (less hx)
  by_cases root : p = []
  · rw [root]
    rfl
  · rw [node?_remove t root, if_neg, above]
    rintro rfl
    have := less hx
    rw [empty n] at this
    cases this

end SqlMigration.Tree

namespace SqlMigration.Transfer

open SqlMigration.Path Files Effect

/-- A directory of files and directories that a path names, as it is and in its absolute form, and
in which all paths keep to the limits. -/
structure Sendable (d : Disk) (directory : String) (p : Place) : Prop where
  sound : d.Sound
  named : d.find true directory = .ok (.node p .directory)
  absolute : d.find true (d.absolute directory) = .ok (.node p .directory)
  unlinked : Unlinked d.tree p
  fits : ∀ r x, d.tree.node? (p ++ r) = some x → Fits (extend (d.absolute directory) r)

/-- Making the path gives a directory that is new and empty. -/
structure Vacant (d : Disk) (path : String) (q : Place) : Prop where
  made : ∃ e, makePath path d = .ok () e ∧ e.find true path = .ok (.node q .directory) ∧
    ∀ n, e.tree.node? (q ++ [n]) = none
  new : d.tree.node? q = none

/-- Making the path gives a directory, not the root, with nothing in it. -/
structure Unfilled (d : Disk) (path : String) (q : Place) : Prop where
  made : ∃ e, makePath path d = .ok () e ∧ e.find true path = .ok (.node q .directory) ∧
    ∀ n, e.tree.node? (q ++ [n]) = none
  ne_root : q ≠ []

/-- A bucket that is not closed, with no object that starts with the stem. -/
structure Unused (s : Storage) (bucket stem : String) : Prop where
  accessible : bucket ∉ s.forbidden
  buckets : (Table.keys s.buckets).Nodup
  objects : (Table.keys (s.objects bucket)).Nodup
  unused : ∀ o ∈ s.objects bucket, Storage.startsWith stem o.1 = false

/-- What is below the one place are the files that are below the other, and the directories
that lead to them. -/
structure Copied (t : Tree) (p : Place) (u : Tree) (q : Place) : Prop where
  files : ∀ r c, u.node? (q ++ r) = some (.file c) ↔ t.node? (p ++ r) = some (.file c)
  directories : ∀ r, u.node? (q ++ r) = some .directory ↔
    ∃ below c, below ≠ [] ∧ t.node? (p ++ (r ++ below)) = some (.file c)
  unlinked : Unlinked u q

theorem Vacant.unfilled {d : Disk} {path : String} {q : Place} (h : Vacant d path q) :
    Unfilled d path q where
  made := h.made
  ne_root := by
    rintro rfl
    cases h.new

theorem vacant_below {d : Disk} (hd : d.Sound) {base u : String} {p : Place} (leads : Leads d base p)
    (hb : base ≠ "") {ns : List String} (hns : AllProper ns) (hne : ns ≠ [])
    (hu : Spells u (extend base ns)) (hf : Fits u) (clear : Clear d.tree p ns)
    (absent : d.tree.node? (p ++ ns) = none) : Vacant d u (p ++ ns) where
  made := by
    have top : Fits base := (hu.fits hf).of_extend hns
    obtain ⟨t, run, opened⟩ :=
      makePath_extend hd (makePath_leads leads hb top) leads hb hns hne hu hf clear
    have sound := opened.disk hd clear
    have leads' := (opened.leads clear leads).extended sound hns (opened.opened ns (List.prefix_refl ns))
    have named := named_extend (s := base) hns hne
    refine ⟨_, run, (hu.leads named leads').find (hu.ne_empty named) hf, fun n => ?_⟩
    have other : ∀ ms, ms <+: ns → p ++ ns ++ [n] ≠ p ++ ms := by
      intro ms hm e
      rw [List.append_assoc] at e
      have long := congrArg List.length (List.append_cancel_left e)
      have short := hm.length_le
      rw [List.length_append, List.length_singleton] at long
      omega
    rw [opened.rest _ other]
    have nothing : d.tree.node? (p ++ ns) ≠ some .directory := by simp [absent]
    exact hd.tree.none_below nothing (List.prefix_append _ [n]) (by simp)
  new := absent

theorem Vacant.free {d : Disk} (hd : d.Sound) {path : String} {q : Place} (h : Vacant d path q) :
    Free d.tree q := by
  obtain ⟨e, run, found, _⟩ := h.made
  have grown := makePath_grown hd run
  refine ⟨fun r hr => ?_, h.new⟩
  cases hx : d.tree.node? ([] ++ r) with
  | none => exact Or.inl rfl
  | some x =>
    -- what was on the way is there still, so it is a directory
    rw [← grown.sound.tree.directory_of_prefix ((leads_of_find found).directory grown.sound) hr]
    · exact Or.inr (grown.keep _ x hx ▸ rfl)
    · rintro rfl
      rw [List.nil_append, h.new] at hx
      cases hx

theorem Unfilled.receives {d : Disk} (hd : d.Sound) {path : String} {q : Place} (h : Unfilled d path q) :
    ∃ t : Tree, t.Sound ∧ Free t q ∧ Receives d path t q [] ∧
      ∀ r x, r ≠ q → d.tree.node? r = some x → t.node? r = some x := by
  obtain ⟨e, run, found, empty⟩ := h.made
  have grown := makePath_grown hd run
  have leads := leads_of_find found
  have there := leads.directory grown.sound
  have sound := grown.sound.tree.remove h.ne_root empty
  have other : ∀ r, r ≠ q → (e.tree.remove q).node? r = e.tree.node? r := by
    intro r hr
    by_cases root : r = []
    · rw [root]
      rfl
    · rw [Tree.node?_remove _ root, if_neg hr]
  have absent : (e.tree.remove q).node? q = none := by
    rw [Tree.node?_remove _ h.ne_root, if_pos rfl]
  have above : ∀ r, r <+: q → e.tree.node? r = some .directory := by
    intro r hr
    by_cases same : r = q
    · rw [same, there]
    · exact grown.sound.tree.directory_of_prefix there hr same
  refine ⟨e.tree.remove q, sound, ⟨fun r hr => ?_, absent⟩,
    ⟨hd, e, e.tree.remove q, run, leads, ⟨grown.sound.tree, above, ?_⟩, Laid.nil sound q⟩, ?_⟩
  · rw [List.nil_append]
    by_cases same : r = q
    · exact Or.inl (same ▸ absent)
    · rw [other r same]
      exact Or.inr (above r hr)
  · intro r hr
    exact (other r (fun same => hr q (List.prefix_refl q) same)).symm
  · intro r x hr hx
    rw [other r hr, grown.keep r x hx]

theorem Vacant.receives {d : Disk} (hd : d.Sound) {path : String} {q : Place} (h : Vacant d path q) :
    ∃ t : Tree, t.Sound ∧ Free t q ∧ Receives d path t q [] ∧
      ∀ r x, d.tree.node? r = some x → t.node? r = some x := by
  obtain ⟨t, sound, free, receives, keep⟩ := h.unfilled.receives hd
  refine ⟨t, sound, free, receives, fun r x hx => keep r x ?_ hx⟩
  rintro rfl
  rw [h.new] at hx
  cases hx

theorem Sendable.walkable {d : Disk} {directory : String} {p : Place} (h : Sendable d directory p) :
    Run.Walkable d.tree (d.absolute directory) p where
  sound := h.sound.tree
  nonempty := by
    intro e
    have found := h.absolute
    rw [e, Disk.find, if_neg (by decide), if_pos rfl] at found
    cases found
  unlinked := h.unlinked
  fits := h.fits

theorem Sendable.isDirectory {d : Disk} {directory : String} {p : Place} (h : Sendable d directory p) :
    d.isDirectory directory = true := by
  rw [Disk.isDirectory, Disk.node, h.named]

section RoundTrip

variable {w : World} {directory bucket stem path : String} {p q : Place}

theorem upload_shelf (sendable : Sendable w.disk directory p) (unused : Unused w.storage bucket stem) :
    ∃ s events, upload directory bucket stem w = .ok () (w.stored s events) ∧
      bucket ∈ Table.keys s.buckets ∧ (Table.keys (s.objects bucket)).Nodup ∧
      Storage.Shelf (s.objects bucket) stem (Run.filesBelow w.disk.tree p) := by
  have leads := leads_of_find sendable.absolute
  have there := leads.directory sendable.sound
  obtain ⟨s, events, run, present, keys, objects⟩ := upload_ok bucket stem sendable.sound
    sendable.isDirectory rfl sendable.walkable leads unused.accessible unused.buckets
  have empty : ∀ name, Storage.startsWith stem name = true →
      Table.get? (s.objects bucket) name = none := by
    intro name hname
    rw [objects, Table.get?_eq_none_iff]
    intro there
    obtain ⟨o, ho, rfl⟩ := List.mem_map.mp there
    have := unused.unused o ho
    rw [hname] at this
    cases this
  refine ⟨_, events, run, ?_, ?_, ?_⟩
  · rwa [Storage.keys_storeAll present]
  · rw [Storage.objects_storeAll, objects]
    exact Table.nodup_putAll unused.objects _
  · rw [Storage.objects_storeAll]
    refine shelf_stored (fun e he => ?_) (Run.filesBelow_nodup sendable.sound.tree p) empty
    exact ((compatible_filesBelow sendable.sound.tree there).proper e he).1

theorem copied_of_laid {t t₀ u : Tree} (ht : t₀.Sound) (free : Free t₀ q)
    {done : List (Place × Bytes)} (laid : Laid t₀ u q done)
    (same : ∀ r c, (r, c) ∈ done ↔ t.node? (p ++ r) = some (.file c)) : Copied t p u q where
  files r c := (laid.file_iff ht free).trans (same r c)
  directories r := by
    rw [laid.directory_iff ht free]
    constructor
    · rintro ⟨⟨_, c⟩, he, ⟨below, rfl⟩, hne⟩
      refine ⟨below, c, ?_, (same _ _).mp he⟩
      rintro rfl
      exact hne (List.append_nil r).symm
    · rintro ⟨below, c, hb, hc⟩
      refine ⟨(r ++ below, c), (same _ _).mpr hc, List.prefix_append r below, ?_⟩
      intro e
      exact hb (List.self_eq_append_right.mp e)
  unlinked := laid.unlinked ht free

/-- A directory that has been uploaded where no object was, and downloaded to a new directory,
has the same files there, each from an object of its own. -/
theorem download_upload (hs : Named stem) (sendable : Sendable w.disk directory p)
    (unused : Unused w.storage bucket stem) (vacant : Vacant w.disk path q)
    (fits : ∀ r c, w.disk.tree.node? (p ++ r) = some (.file c) → Fits (extend path r)) :
    ∃ w₁ w₂, upload directory bucket stem w = .ok () w₁ ∧
      download (.path path) bucket stem w₁ = .ok () w₂ ∧
      Copied w.disk.tree p w₂.disk.tree q ∧
      ((∃ r c, w.disk.tree.node? (p ++ r) = some (.file c)) →
        w₂.disk.find true path = .ok (.node q .directory)) ∧
      (∀ name c, Storage.startsWith stem name = true →
        (Table.get? (w₁.storage.objects bucket) name = some c ↔
          ∃ r, w.disk.tree.node? (p ++ r) = some (.file c) ∧ name = extend stem r)) ∧
      (∀ r r' c c', w.disk.tree.node? (p ++ r) = some (.file c) →
        w.disk.tree.node? (p ++ r') = some (.file c') → extend stem r = extend stem r' → r = r') ∧
      ∀ r x, w.disk.tree.node? r = some x → w₂.disk.tree.node? r = some x := by
  have there := (leads_of_find sendable.absolute).directory sendable.sound
  have mem : ∀ r c, (r, c) ∈ Run.filesBelow w.disk.tree p ↔ w.disk.tree.node? (p ++ r) = some (.file c) :=
    fun r c => Run.mem_filesBelow sendable.walkable there
  have compatible := compatible_filesBelow sendable.sound.tree there
  obtain ⟨s, events, uploaded, present, distinct, shelf⟩ := upload_shelf sendable unused
  obtain ⟨t, sound, free, receives, keep⟩ := vacant.receives sendable.sound
  obtain ⟨u, events', done, downloaded, received, same⟩ := download_received (w := w.stored s events)
    bucket hs sound free (fun _ => receives) compatible shelf distinct present
    (fun e he => fits e.1 e.2 ((mem _ _).mp he))
  have same' : ∀ r c, (r, c) ∈ done ↔ w.disk.tree.node? (p ++ r) = some (.file c) :=
    fun r c => (same (r, c)).trans (mem r c)
  have proper : ∀ {r c}, w.disk.tree.node? (p ++ r) = some (.file c) → AllProper r :=
    fun h => (compatible.proper _ ((mem _ _).mpr h)).1
  refine ⟨_, _, uploaded, downloaded, ?_, ?_, ?_, ?_, ?_⟩
  · by_cases none : done = []
    · have before : Laid w.disk.tree u q done := by
        rw [received.nothing none, none]
        exact Laid.nil sendable.sound.tree q
      exact copied_of_laid sendable.sound.tree (vacant.free sendable.sound) before same'
    · exact copied_of_laid sound free (received.laid none) same'
  · rintro ⟨r, c, hc⟩
    obtain ⟨_, _, run, _⟩ := receives.reach
    have some := List.ne_nil_of_mem ((same' r c).mpr hc)
    exact (received.leads some).find (makePath_ne_empty run) ((fits r c hc).of_extend (proper hc))
  · intro name c below
    refine (shelf name c below).trans (exists_congr fun r => and_congr_left' (mem r c))
  · intro r r' c c' hc hc' e
    exact extend_inj (proper hc) (proper hc') e
  · intro r x hx
    by_cases none : done = []
    · have same : ((w.stored s events).turned u events').disk.tree = w.disk.tree :=
        received.nothing none
      rw [same, hx]
    · exact (received.laid none).keep sound free (keep r x hx)

end RoundTrip

def belongings : Disk where
  tree := ⟨[(["w"], .directory), (["w", "d"], .directory), (["w", "d", ".c"], .file [1]),
    (["w", "d", "e"], .directory), (["w", "d", "s"], .directory), (["w", "d", "s", ".c"], .file [2]),
    (["w", "d", "s", ".t"], .directory), (["w", "d", "s", ".t", ".c"], .file [3])]⟩
  here := ["w"]

theorem sendable_belongings : Sendable belongings "d" ["w", "d"] where
  sound := ⟨Tree.sound_of_entries (by decide) (by decide), rfl⟩
  named := by decide
  absolute := by decide
  unlinked := by
    intro q target there
    simpa [belongings] using Tree.mem_entries_of_link there
  fits := Tree.forall_below (by simp) (by decide)

theorem vacant_belongings : Vacant belongings "./n/x/" ["w", "n", "x"] := by
  have leads : Leads belongings "." ["w"] := leads_of_find (by decide)
  have clear : Clear belongings.tree ["w"] ["n", "x"] := by
    intro ms hm
    have all : ∀ ms ∈ ["n", "x"].inits, belongings.tree.node? (["w"] ++ ms) = none ∨
        belongings.tree.node? (["w"] ++ ms) = some .directory := by decide
    exact all ms ((List.mem_inits _ _).mpr hm)
  exact vacant_below sendable_belongings.sound leads (by decide) (by decide) (by simp)
    (Or.inr (by decide)) (by decide) clear rfl

theorem download_upload_belongings :
    ∃ w₁ w₂, upload "d" "b" "p" (.ofDisk belongings) = .ok () w₁ ∧
      download (.path "./n/x/") "b" "p" w₁ = .ok () w₂ ∧
      w₂.disk.tree.node? ["w", "n", "x", ".c"] = some (.file [1]) ∧
      w₂.disk.tree.node? ["w", "n", "x", "s", ".t", ".c"] = some (.file [3]) ∧
      w₂.disk.tree.node? ["w", "n", "x", "e"] ≠ some .directory := by
  have named : Named "p" := ⟨by decide, by decide⟩
  have unused : Unused (World.ofDisk belongings).storage "b" "p" :=
    ⟨by decide, by decide, by decide, by decide⟩
  have fits : ∀ r c, belongings.tree.node? (["w", "d"] ++ r) = some (.file c) →
      Fits (extend "./n/x/" r) := fun r c there =>
    Tree.forall_below (P := fun r _ => Fits (extend "./n/x/" r)) (by simp) (by decide) r _ there
  obtain ⟨w₁, w₂, uploaded, downloaded, copied, _⟩ :=
    download_upload named sendable_belongings unused vacant_belongings fits
  refine ⟨w₁, w₂, uploaded, downloaded, (copied.files [".c"] _).mpr rfl,
    (copied.files ["s", ".t", ".c"] _).mpr rfl, fun there => ?_⟩
  obtain ⟨below, c, hb, hc⟩ := (copied.directories ["e"]).mp there
  have empty : ∀ r x, belongings.tree.node? (["w", "d", "e"] ++ r) = some x → r = [] :=
    Tree.forall_below (by simp) (by decide)
  exact hb (empty below _ hc)

def blocked : Disk where
  tree := ⟨[(["d"], .directory), (["d", "a"], .file [1]), (["f"], .file [2])]⟩
  here := []

/-- That nothing is at a path is not enough: it may be one that cannot be made. -/
theorem download_blocked :
    blocked.exists? "f/x" = false ∧ Sendable blocked "d" ["d"] ∧
      ∃ stop w, (do upload "d" "b" "p"; download (.path "f/x") "b" "p") (.ofDisk blocked) =
          .error stop w ∧
        w.storage.objects "b" = [("p/a", [1])] ∧ w.disk.tree.node? ["f", "x"] = none := by
  refine ⟨by decide +kernel, ⟨⟨Tree.sound_of_entries (by decide) (by decide +kernel), rfl⟩,
    by decide +kernel, by decide +kernel, ?_, Tree.forall_below (by simp) (by decide +kernel)⟩, ?_⟩
  · intro q target there
    simpa [blocked] using Tree.mem_entries_of_link there
  · obtain ⟨stop, w, stopped, left⟩ := error_of_run'
      (x := do upload "d" "b" "p"; download (.path "f/x") "b" "p") (s := .ofDisk blocked)
      (f := fun w => (w.storage.objects "b", w.disk.tree.node? ["f", "x"]))
      (b := ([("p/a", [1])], none))
      (by decide +kernel)
    exact ⟨stop, w, stopped, congrArg Prod.fst left, congrArg Prod.snd left⟩

end SqlMigration.Transfer
