import SqlMigration.Proofs.Files.Making
import SqlMigration.Proofs.Job.Names

/-!
# The image of a directory

Processing a directory makes an image of it where nothing was: one file for each
visible file, under the same names, and the directories that lead to them. The
directory itself and everything else stay as they are. It is the absolute forms
of the paths that say where all this happens.
-/

set_option autoImplicit false

namespace SqlMigration

open SqlMigration.Path Files Effect

theorem Files.Laid.frame {t u : Tree} {q : Place} {done : List (Place × Bytes)} (free : Free t q)
    (laid : Laid t u q done) {a : Place} (outside : ¬ q <+: a) :
    u.node? a = t.node? a ∨ a <+: q ∧ t.node? a = none ∧ u.node? a = some .directory := by
  rcases laid.cases a with ⟨e, _, rfl, _⟩ | ⟨e, _, below, _, made⟩ | ⟨_, same⟩
  · exact absurd (List.prefix_append q e.1) outside
  · have above : a <+: q :=
      (List.prefix_or_prefix_of_prefix below (List.prefix_append q e.1)).resolve_right outside
    rcases free.clear_of_prefix above with none | directory
    · exact Or.inr ⟨above, none, made⟩
    · exact Or.inl (made.trans directory.symm)
  · exact Or.inl same

namespace Processing

/-- A directory that the absolute form of a path leads to by its name, with no links in it. -/
structure Source (d : Disk) (input : String) (p : Place) : Prop where
  named : Named (d.absolute input)
  found : d.find true (d.absolute input) = .ok (.node p .directory)
  unlinked : Unlinked d.tree p

/-- A path that leads to a directory and goes on by names of which the first is missing there. -/
def Missing (d : Disk) (path : String) (q : Place) : Prop :=
  ∃ s top n ns, Trimmed s ∧ Leads d s top ∧ AllProper (n :: ns) ∧ path = extend s (n :: ns) ∧
    d.tree.node? (top ++ [n]) = none ∧ q = top ++ n :: ns

theorem Missing.points {d : Disk} {path : String} {q : Place} (h : Missing d path q) : Points d path q := by
  obtain ⟨s, top, n, ns, trimmed, leads, proper, text, _, place⟩ := h
  exact ⟨s, top, n :: ns, trimmed, leads, proper, by simp, text, place⟩

theorem Missing.free {d : Disk} {path : String} {q : Place} (h : Missing d path q) (hd : d.Sound) :
    Free d.tree q := by
  obtain ⟨s, top, n, ns, _, leads, _, _, absent, rfl⟩ := h
  exact free_of_missing hd.tree ns (leads.directory hd) absent

/-- The files to be changed are texts, what is put into them can be written, and all paths keep to the
limits for paths. -/
structure Legible (m : Macros) (dir : Direction) (d : Disk) (input output : String) (p : Place) :
    Prop where
  texts : ∀ r c, d.tree.node? (p ++ r) = some (.file c) → isHidden (lastName r) = false →
    isCopied (lastName r) = false → ∃ s, Utf8.decode c = .ok s
  values : ∀ r c, d.tree.node? (p ++ r) = some (.file c) → isHidden (lastName r) = false →
    isCopied (lastName r) = false → (applied m dir).Whole (joined r)
  sources : ∀ r x, d.tree.node? (p ++ r) = some x → Fits (extend (d.absolute input) r)
  targets : ∀ r c, d.tree.node? (p ++ r) = some (.file c) → isHidden (lastName r) = false →
    Fits (extend (d.absolute output) r)

/-- What is below the one place are the files that become of the visible files below the other, and the
directories that lead to them. -/
structure Image (m : Macros) (dir : Direction) (t : Tree) (p : Place) (u : Tree) (q : Place) : Prop where
  complete : ∀ r c, t.node? (p ++ r) = some (.file c) → isHidden (lastName r) = false →
    ∃ c', result m dir (joined r) (lastName r) c = some c' ∧ u.node? (q ++ r) = some (.file c')
  exact : ∀ r c', u.node? (q ++ r) = some (.file c') → ∃ c, t.node? (p ++ r) = some (.file c) ∧
    isHidden (lastName r) = false ∧ result m dir (joined r) (lastName r) c = some c'
  directories : ∀ r, u.node? (q ++ r) = some .directory ↔ ∃ below c, below ≠ [] ∧
    t.node? (p ++ (r ++ below)) = some (.file c) ∧ isHidden (lastName (r ++ below)) = false
  unlinked : Unlinked u q

section Image

variable {m : Macros} {dir : Direction} {d : Disk} {input output : String} {p q : Place}

theorem Source.leads (h : Source d input p) : Leads d (d.absolute input) p := leads_of_find h.found

theorem Legible.walkable (h : Legible m dir d input output p) (source : Source d input p) (hd : d.Sound) :
    Run.Walkable d.tree (d.absolute input) p where
  sound := hd.tree
  nonempty := source.named.nonempty
  unlinked := source.unlinked
  fits := h.sources

theorem Legible.result_isSome (h : Legible m dir d input output p) {r : Place} {c : Bytes}
    (there : d.tree.node? (p ++ r) = some (.file c)) (visible : isHidden (lastName r) = false) :
    (result m dir (joined r) (lastName r) c).isSome = true :=
  Processing.result_isSome (h.texts r c there visible) (h.values r c there visible)

theorem image_of_laid {t u : Tree} {done : List (Place × Bytes)} (ht : t.Sound) (free : Free t q)
    (laid : Laid t u q done)
    (mem : ∀ r c', (r, c') ∈ done ↔ ∃ c, t.node? (p ++ r) = some (.file c) ∧
      isHidden (lastName r) = false ∧ result m dir (joined r) (lastName r) c = some c')
    (readable : ∀ r c, t.node? (p ++ r) = some (.file c) → isHidden (lastName r) = false →
      ∃ c', result m dir (joined r) (lastName r) c = some c') : Image m dir t p u q where
  complete r c there visible := by
    obtain ⟨c', hr⟩ := readable r c there visible
    exact ⟨c', hr, laid.files (r, c') ((mem r c').mpr ⟨c, there, visible, hr⟩)⟩
  exact r c' there := (mem r c').mp ((laid.file_iff ht free).mp there)
  directories r := by
    rw [laid.directory_iff ht free]
    constructor
    · rintro ⟨⟨_, c'⟩, he, ⟨below, rfl⟩, distinct⟩
      obtain ⟨c, there, visible, _⟩ := (mem _ _).mp he
      refine ⟨below, c, ?_, there, visible⟩
      rintro rfl
      exact distinct (List.append_nil r).symm
    · rintro ⟨below, c, some, there, visible⟩
      obtain ⟨c', hr⟩ := readable _ c there visible
      refine ⟨(r ++ below, c'), (mem _ _).mpr ⟨c, there, visible, hr⟩, List.prefix_append r below, ?_⟩
      intro e
      exact some (List.self_eq_append_right.mp e)
  unlinked := laid.unlinked ht free

end Image

/-- Processing a directory of files and directories to a path where nothing is, not inside it, leaves an
image of it there. -/
theorem processDirectory_image (m : Macros) (dir : Direction) {w : World} {input output : String}
    {p q : Place} (sound : w.disk.Sound) (source : Source w.disk input p)
    (target : Missing w.disk (w.disk.absolute output) q) (outside : ¬ p <+: q)
    (legible : Legible m dir w.disk input output p) :
    ∃ u events, processDirectory m dir input output w = .ok () (w.turned u events) ∧
      Image m dir w.disk.tree p u q ∧
      (∀ r, u.node? (p ++ r) = w.disk.tree.node? (p ++ r)) ∧
      ∀ a, ¬ q <+: a → u.node? a = w.disk.tree.node? a ∨
        a <+: q ∧ w.disk.tree.node? a = none ∧ u.node? a = some .directory := by
  have walkable := legible.walkable source sound
  have there := source.leads.directory sound
  have free := target.free sound
  have apart : Apart p q := by
    refine ⟨outside, fun inside => ?_⟩
    rw [free.none_below sound.tree inside] at there
    cases there
  have ready : ∀ ns n c, w.disk.tree.node? (p ++ (ns ++ [n])) = some (.file c) → isHidden n = false →
      (result m dir (joined (ns ++ [n])) n c).isSome ∧
        Fits (extend (w.disk.absolute output) (ns ++ [n])) := by
    intro ns n c file visible
    rw [← lastName_concat ns n] at visible
    have some := legible.result_isSome file visible
    rw [lastName_concat] at some
    exact ⟨some, legible.targets _ c file visible⟩
  obtain ⟨u, events, run, laid⟩ :=
    processTree_ok sound source.named walkable source.leads target.points free ready apart
  refine ⟨u, events, ?_, ?_, fun r => laid.outside (apart.append r), fun a => laid.frame free⟩
  · rw [processDirectory, bind_ok (Run.disk_apply w)]
    exact run
  · exact image_of_laid sound.tree free laid (fun r c' => mem_outcomes walkable there)
      (fun r c file visible => Option.isSome_iff_exists.mp (legible.result_isSome file visible))

def household : Disk where
  tree := ⟨[(["w"], .directory), (["w", "in"], .directory), (["w", "in", ".h"], .directory),
    (["w", "in", ".h", "b.sql"], .file (Utf8.encode "from $T;\r\n".toList)),
    (["w", "in", ".t"], .file [1]), (["w", "in", "a.ZIP"], .file [0x50, 0xff]), (["w", "o"], .directory),
    (["w", "l"], .link "o")]⟩
  here := ["w"]

theorem household_ready : household.Sound ∧ Source household "in/." ["w", "in"] ∧
    Legible [("*.sql", [("$T", "orders")])] .expand household "in/." "l/x/../y" ["w", "in"] := by
  have source : Source household "in/." ["w", "in"] :=
    { named := by decide
      found := by decide
      unlinked := by
        intro q target there
        have place : ["w", "in"] ++ q = ["w", "l"] := by
          have := Tree.mem_entries_of_link there
          simp [household] at this
        simp at place }
  have texts : ∀ r c, household.tree.node? (["w", "in"] ++ r) = some (.file c) →
      isHidden (lastName r) = false → isCopied (lastName r) = false → ∃ text, Utf8.decode c = .ok text := by
    intro r c there visible copied
    have inner : ["w", "in"] ≠ ([] : Place) := by simp
    have known := Tree.forall_below inner
      (P := fun r x => x = .directory ∨ (isHidden (lastName r) || isCopied (lastName r)) = true ∨
        x = .file (Utf8.encode "from $T;\r\n".toList)) (by decide) r _ there
    rcases known with h | h | h
    · cases h
    · rw [visible, copied] at h
      cases h
    · cases h
      exact ⟨_, Utf8.decode_encode _⟩
  have legible : Legible [("*.sql", [("$T", "orders")])] .expand household "in/." "l/x/../y" ["w", "in"] :=
    { texts := texts
      values := fun r _ _ _ _ => Macros.whole_of_values (by decide) (joined r)
      sources := Tree.forall_below (by simp) (by decide)
      targets := fun r _ there _ => Tree.forall_below (by simp)
        (P := fun r _ => Fits (extend (household.absolute "l/x/../y") r)) (by decide) r _ there }
  exact ⟨⟨Tree.sound_of_entries (by decide) (by decide), rfl⟩, source, legible⟩

theorem processDirectory_image_household :
    ∃ u events, processDirectory [("*.sql", [("$T", "orders")])] .expand "in/." "l/x/../y"
          (.ofDisk household) = .ok () ((World.ofDisk household).turned u events) ∧
      u.node? ["w", "o", "y", ".h", "b.sql"] = some (.file (Utf8.encode "from orders;\n".toList)) ∧
      u.node? ["w", "o", "y", "a.ZIP"] = some (.file [0x50, 0xff]) ∧
      (∀ c, u.node? ["w", "o", "y", ".t"] ≠ some (.file c)) ∧
      u.node? ["w", "in", ".t"] = some (.file [1]) := by
  have leads : Leads household "/w/l" ["w", "o"] := leads_of_find (by decide)
  have target : Missing household (household.absolute "l/x/../y") ["w", "o", "y"] :=
    ⟨"/w/l", ["w", "o"], "y", [], Or.inr (by decide), leads, by decide, by decide, rfl, rfl⟩
  obtain ⟨sound, source, legible⟩ := household_ready
  obtain ⟨u, events, run, image, kept, _⟩ := processDirectory_image [("*.sql", [("$T", "orders")])]
    .expand (w := .ofDisk household) sound source target (by decide) legible
  refine ⟨u, events, run, ?_, ?_, fun c there => ?_, (kept [".t"]).trans rfl⟩
  · obtain ⟨c', changed, there⟩ := image.complete [".h", "b.sql"] _ rfl (by decide)
    have known : result [("*.sql", [("$T", "orders")])] .expand ".h/b.sql" "b.sql"
        (Utf8.encode "from $T;\r\n".toList) = some (Utf8.encode "from orders;\n".toList) := by
      decide
    cases known.symm.trans changed
    exact there
  · obtain ⟨c', same, there⟩ := image.complete ["a.ZIP"] _ rfl (by decide)
    cases same
    exact there
  · obtain ⟨_, _, visible, _⟩ := image.exact [".t"] c there
    exact absurd visible (by decide)

def forked : Disk where
  tree := ⟨[(["w"], .directory), (["w", "in"], .directory), (["w", "in", "a.sql"], .file [0x41]),
    (["w", "o"], .directory), (["w", "o", "s"], .directory), (["w", "l"], .link "o/s")]⟩
  here := ["w"]

/-- A path at which a directory could be made may have an absolute form that names another place, and that
is where the files go. -/
theorem processDirectory_elsewhere :
    forked.exists? "l/../out" = false ∧
      (∃ e, makePath "l/../out" forked = .ok () e ∧ e.tree.node? ["w", "o", "out"] = some .directory) ∧
      ∃ v, processDirectory [] .expand "in" "l/../out" (.ofDisk forked) = .ok () v ∧
        v.disk.tree.node? ["w", "o", "out"] = none ∧
        v.disk.tree.node? ["w", "out", "a.sql"] = some (.file [0x41]) := by
  obtain ⟨_, e, made, there⟩ := ok_of_run' (x := makePath "l/../out") (s := forked)
    (f := fun e => e.tree.node? ["w", "o", "out"]) (b := some .directory) (by decide +kernel)
  obtain ⟨_, v, run, left⟩ := ok_of_run' (x := processDirectory [] .expand "in" "l/../out")
    (s := .ofDisk forked)
    (f := fun v => (v.disk.tree.node? ["w", "o", "out"], v.disk.tree.node? ["w", "out", "a.sql"]))
    (b := (none, some (.file [0x41]))) (by decide +kernel)
  exact ⟨by decide +kernel, ⟨e, made, there⟩, v, run, congrArg Prod.fst left, congrArg Prod.snd left⟩

end Processing

end SqlMigration
