import SqlMigration.Job.World
import SqlMigration.Proofs.Files.Laid
import SqlMigration.Proofs.Job.Keeping

/-!
# Walks over a directory

A walk over a directory without links comes past each file below it exactly
once. It keeps an invariant that every round keeps, as long as the rounds leave
the directory as it is. Whether or not there are links, a walk that succeeds has
come past everything that is no directory.
-/

set_option autoImplicit false

namespace SqlMigration.Run

open SqlMigration.Path Files Effect

def fileNames (t : Tree) (p : Place) : List String :=
  (t.names p).filter (fun n => !isDirectoryAt t (p ++ [n]))

def directoryNames (t : Tree) (p : Place) : List String :=
  (t.names p).filter (fun n => isDirectoryAt t (p ++ [n]))

/-- The files that a walk comes past, each with the names that lead to its directory. -/
def visited (t : Tree) (top : Place) : Nat → List String → List (List String × String)
  | 0, _ => []
  | fuel + 1, ns =>
    (fileNames t (top ++ ns)).map (fun n => (ns, n))
      ++ (directoryNames t (top ++ ns)).flatMap (fun n => visited t top fuel (ns ++ [n]))

theorem mem_fileNames {t : Tree} {p : Place} {n : String} :
    n ∈ fileNames t p ↔ ∃ x, t.node? (p ++ [n]) = some x ∧ x ≠ .directory := by
  rw [fileNames, List.mem_filter, Tree.mem_names]
  constructor
  · rintro ⟨⟨x, hx⟩, hd⟩
    refine ⟨x, hx, ?_⟩
    rintro rfl
    simp [isDirectoryAt, hx] at hd
  · rintro ⟨x, hx, hd⟩
    exact ⟨⟨x, hx⟩, by simp [isDirectoryAt, hx, hd]⟩

theorem mem_directoryNames {t : Tree} {p : Place} {n : String} :
    n ∈ directoryNames t p ↔ t.node? (p ++ [n]) = some .directory := by
  rw [directoryNames, List.mem_filter, Tree.mem_names]
  constructor
  · rintro ⟨-, hd⟩
    simpa [isDirectoryAt] using hd
  · intro hx
    exact ⟨⟨_, hx⟩, by simp [isDirectoryAt, hx]⟩

theorem mem_visited {t : Tree} (ht : t.Sound) {top : Place} {fuel : Nat} {ms ns : List String}
    {n : String} :
    (ns, n) ∈ visited t top fuel ms ↔
      ∃ ks x, ns = ms ++ ks ∧ ks.length < fuel ∧ t.node? (top ++ ns ++ [n]) = some x ∧
        x ≠ .directory := by
  induction fuel generalizing ms with
  | zero => simp [visited]
  | succ fuel ih =>
    rw [visited, List.mem_append]
    constructor
    · rintro (h | h)
      · obtain ⟨m, hm, e⟩ := List.mem_map.mp h
        cases e
        obtain ⟨x, hx, hd⟩ := mem_fileNames.mp hm
        exact ⟨[], x, by simp, by simp, hx, hd⟩
      · obtain ⟨m, _, h⟩ := List.mem_flatMap.mp h
        obtain ⟨ks, x, rfl, hk, hx⟩ := ih.mp h
        exact ⟨m :: ks, x, by simp, by simpa using hk, hx⟩
    · rintro ⟨ks, x, rfl, hk, hx, hd⟩
      cases ks with
      | nil =>
        rw [List.append_nil] at hx ⊢
        exact Or.inl (List.mem_map.mpr ⟨n, mem_fileNames.mpr ⟨x, hx, hd⟩, rfl⟩)
      | cons k ks =>
        refine Or.inr (List.mem_flatMap.mpr ⟨k, mem_directoryNames.mpr ?_, ?_⟩)
        · have split : top ++ (ms ++ k :: ks) ++ [n] = top ++ ms ++ [k] ++ (ks ++ [n]) := by simp
          rw [split] at hx
          exact ht.directory_of_below hx (by simp)
        · exact ih.mpr ⟨ks, x, by simp, by simpa using hk, hx, hd⟩

theorem visited_below {t : Tree} {top : Place} {fuel : Nat} {ms : List String}
    {e : List String × String} (h : e ∈ visited t top fuel ms) : ms <+: e.1 := by
  induction fuel generalizing ms with
  | zero => cases h
  | succ fuel ih =>
    rw [visited, List.mem_append] at h
    rcases h with h | h
    · obtain ⟨m, _, rfl⟩ := List.mem_map.mp h
      exact List.prefix_refl _
    · obtain ⟨m, _, h⟩ := List.mem_flatMap.mp h
      exact (List.prefix_append ms [m]).trans (ih h)

theorem visited_nodup {t : Tree} (ht : t.Sound) (top : Place) (fuel : Nat) (ms : List String) :
    (visited t top fuel ms).Nodup := by
  induction fuel generalizing ms with
  | zero => exact List.nodup_nil
  | succ fuel ih =>
    have names := Tree.names_nodup ht.nodup (top ++ ms)
    rw [visited, List.nodup_append]
    refine ⟨?_, ?_, ?_⟩
    · exact (names.filter _).map (fun a b e => (Prod.mk.inj e).2)
    · rw [List.nodup_flatMap]
      refine ⟨fun n _ => ih _, (names.filter _).imp ?_⟩
      intro a b hab e ha hb
      have one := List.prefix_of_prefix_length_le (visited_below ha) (visited_below hb) (by simp)
      exact hab (by simpa using one.eq_of_length (by simp))
    · intro a ha b hb e
      obtain ⟨m, _, rfl⟩ := List.mem_map.mp ha
      obtain ⟨k, _, hb⟩ := List.mem_flatMap.mp hb
      have := (visited_below hb).length_le
      rw [← e, List.length_append] at this
      simp only [List.length_singleton] at this
      omega

def contentAt (t : Tree) (p : Place) : Option Bytes :=
  match t.node? p with
  | some (.file content) => some content
  | _ => none

theorem contentAt_eq_some {t : Tree} {p : Place} {c : Bytes} :
    contentAt t p = some c ↔ t.node? p = some (.file c) := by
  unfold contentAt
  split
  · next h => rw [h]; simp
  · next h =>
    constructor
    · intro e
      cases e
    · exact fun e => absurd e (h c)

def fileAt (t : Tree) (top : Place) (x : List String × String) : Option (Place × Bytes) :=
  (contentAt t (top ++ (x.1 ++ [x.2]))).map (fun c => (x.1 ++ [x.2], c))

theorem fileAt_eq_some {t : Tree} {top : Place} {x : List String × String} {e : Place × Bytes} :
    fileAt t top x = some e ↔ e.1 = x.1 ++ [x.2] ∧ t.node? (top ++ e.1) = some (.file e.2) := by
  obtain ⟨q, c⟩ := e
  rw [fileAt, Option.map_eq_some_iff]
  constructor
  · rintro ⟨c', h, e⟩
    cases e
    exact ⟨rfl, contentAt_eq_some.mp h⟩
  · rintro ⟨rfl, h⟩
    exact ⟨c, contentAt_eq_some.mpr h, rfl⟩

def filesBelow (t : Tree) (top : Place) : List (Place × Bytes) :=
  (visited t top pathLimit []).filterMap (fileAt t top)

theorem filesBelow_nodup {t : Tree} (ht : t.Sound) (top : Place) :
    ((filesBelow t top).map (·.1)).Nodup := by
  rw [filesBelow, List.map_filterMap]
  refine (visited_nodup ht top pathLimit []).filterMap ?_
  have whole : ∀ (x : List String × String) (q : Place),
      q ∈ (fileAt t top x).map (·.1) → q = x.1 ++ [x.2] := by
    intro x q hq
    obtain ⟨e, he, rfl⟩ := Option.map_eq_some_iff.mp hq
    exact (fileAt_eq_some.mp he).1
  intro x y q hx hy
  obtain ⟨front, last⟩ := List.append_inj' ((whole x q hx).symm.trans (whole y q hy)) rfl
  exact Prod.ext front (List.cons.inj last).1

/-! ### The walk as a loop -/

/-- A world in which a path leads to a directory that is as in the given tree. -/
structure Sees (w : World) (s : String) (top : Place) (t : Tree) : Prop where
  sound : w.disk.Sound
  leads : Leads w.disk s top
  same : ∀ q, w.disk.tree.node? (top ++ q) = t.node? (top ++ q)

/-- A directory that can be walked over: there are no links in it, and all its paths fit. -/
structure Walkable (t : Tree) (s : String) (top : Place) : Prop where
  sound : t.Sound
  nonempty : s ≠ ""
  unlinked : Unlinked t top
  fits : ∀ q x, t.node? (top ++ q) = some x → Fits (extend s q)

section Walk

variable {t : Tree} {s : String} {top : Place} (walkable : Walkable t s top)
include walkable

theorem Sees.list_eq {w : World} (h : Sees w s top t) {ns : List String}
    (hx : t.node? (top ++ ns) = some .directory) :
    w.disk.list (extend s ns) = (directoryNames t (top ++ ns), fileNames t (top ++ ns)) := by
  have proper : AllProper ns := (walkable.sound.proper _ _ hx).right
  have same : ∀ n, w.disk.tree.node? (top ++ ns ++ [n]) = t.node? (top ++ ns ++ [n]) := by
    intro n
    rw [List.append_assoc]
    exact h.same (ns ++ [n])
  have names : w.disk.tree.names (top ++ ns) = t.names (top ++ ns) :=
    Tree.names_congr h.sound.tree.nodup walkable.sound.nodup same
  have leads := h.leads.extended h.sound proper ((h.same ns).trans hx)
  rw [Files.list_eq leads (extend_ne_empty walkable.nonempty proper) (walkable.fits ns _ hx), names,
    List.partition_eq_filter_filter]
  · simp only [isDirectoryAt, same]
    rfl
  · intro q target
    rw [List.append_assoc, h.same]
    exact walkable.unlinked (ns ++ q) target

theorem Sees.isLink_eq {w : World} (h : Sees w s top t) {ns : List String} {n : String}
    (hx : t.node? (top ++ ns ++ [n]) = some .directory) :
    w.disk.isLink (join (extend s ns) n) = false := by
  rw [List.append_assoc] at hx
  have found := h.leads.node_present h.sound (by simp) (walkable.fits (ns ++ [n]) _ hx)
    ((h.same _).trans hx) (by simp) false
  rw [← extend_concat, Disk.isLink, found]

/-- If each file is dealt with in a way that keeps the invariant for the files so far, the walk
ends with the invariant for all files. -/
theorem walk_ok {each : String → String → Run Unit} {whole : List (List String × String)}
    (I : List (List String × String) → World → Prop)
    (view : ∀ done w, I done w → Sees w s top t)
    (step : ∀ before x after w, whole = before ++ x :: after → I before w →
      ∃ w', each (extend s x.1) x.2 w = .ok () w' ∧ I (before ++ [x]) w')
    (fuel : Nat) {ns : List String} {before after : List (List String × String)} {w : World}
    (parts : whole = before ++ visited t top fuel ns ++ after)
    (hx : t.node? (top ++ ns) = some .directory) (h : I before w) :
    ∃ w', walk (fun dir names => names.forM (each dir)) fuel (extend s ns) w = .ok () w' ∧
      I (before ++ visited t top fuel ns) w' := by
  induction fuel generalizing ns before after w with
  | zero => exact ⟨w, rfl, by rwa [visited, List.append_nil]⟩
  | succ fuel ih =>
    rw [visited] at parts ⊢
    -- first the files of the directory, then the directories in it
    have first := forM_ok (f := each (extend s ns)) (fileNames t (top ++ ns))
      (fun done w => I (before ++ done.map (fun n => (ns, n))) w)
      (by
        intro done n rest w e hw
        rw [e] at parts
        obtain ⟨w', hw', hi⟩ := step (before ++ done.map (fun n => (ns, n))) (ns, n) _ w
          (by rw [parts]; simp; rfl) hw
        exact ⟨w', hw', by simpa using hi⟩)
      (show I (before ++ [].map (fun n => (ns, n))) w by simpa using h)
    obtain ⟨w₁, run₁, h₁⟩ := first
    have second := forM_ok
      (f := fun n => do
        let path := join (extend s ns) n
        if (← disk).isLink path then pure ()
        else walk (fun dir names => names.forM (each dir)) fuel path)
      (directoryNames t (top ++ ns))
      (fun done w => I (before ++ (fileNames t (top ++ ns)).map (fun n => (ns, n))
        ++ done.flatMap (fun n => visited t top fuel (ns ++ [n]))) w)
      (by
        intro done n rest w e hw
        have hn : t.node? (top ++ ns ++ [n]) = some .directory :=
          mem_directoryNames.mp (by rw [e]; simp)
        rw [e] at parts
        obtain ⟨w', hw', hi⟩ := @ih (ns ++ [n]) _
          (rest.flatMap (fun n => visited t top fuel (ns ++ [n])) ++ after) w
          (by rw [parts]; simp) (by rwa [← List.append_assoc]) hw
        refine ⟨w', ?_, by simpa using hi⟩
        have skip : disk w = .ok w.disk w := rfl
        dsimp only
        rw [bind_ok skip, (view _ w hw).isLink_eq walkable hn, if_neg (by simp), ← extend_concat]
        exact hw')
      (show I (before ++ (fileNames t (top ++ ns)).map (fun n => (ns, n)) ++ [].flatMap _) w₁ by
        simpa using h₁)
    obtain ⟨w₂, run₂, h₂⟩ := second
    refine ⟨w₂, ?_, by rwa [← List.append_assoc]⟩
    have look : disk w = .ok w.disk w := rfl
    rw [walk, bind_ok look, (view _ w h).list_eq walkable hx]
    dsimp only
    rw [bind_ok run₁]
    exact run₂

theorem mem_visited_all {ns : List String} {n : String} :
    (ns, n) ∈ visited t top pathLimit [] ↔ ∃ c, t.node? (top ++ ns ++ [n]) = some (.file c) := by
  rw [mem_visited walkable.sound]
  constructor
  · rintro ⟨ks, x, _, _, hx, hd⟩
    cases x with
    | file c => exact ⟨c, hx⟩
    | directory => exact absurd rfl hd
    | link target =>
      rw [List.append_assoc] at hx
      exact absurd hx (walkable.unlinked _ target)
  · rintro ⟨c, hx⟩
    refine ⟨ns, _, rfl, ?_, hx, by simp⟩
    rw [List.append_assoc] at hx
    have proper : AllProper (ns ++ [n]) := (walkable.sound.proper _ _ hx).right
    have long := length_add_byteLength_le (s := s) proper
    have short := (walkable.fits _ _ hx).short
    rw [List.length_append] at long
    omega

theorem mem_filesBelow {q : Place} {c : Bytes} (hx : t.node? top = some .directory) :
    (q, c) ∈ filesBelow t top ↔ t.node? (top ++ q) = some (.file c) := by
  rw [filesBelow, List.mem_filterMap]
  constructor
  · rintro ⟨x, _, h⟩
    exact (fileAt_eq_some.mp h).2
  · intro h
    rcases List.eq_nil_or_concat q with rfl | ⟨ns, n, rfl⟩
    · rw [List.append_nil, hx] at h
      cases h
    · rw [List.concat_eq_append] at *
      refine ⟨(ns, n), (mem_visited_all walkable).mpr ⟨c, by rwa [List.append_assoc]⟩, ?_⟩
      exact fileAt_eq_some.mpr ⟨rfl, h⟩

theorem walkAll_ok (each : String → String → Run Unit)
    (I : List (List String × String) → World → Prop)
    (view : ∀ done w, I done w → Sees w s top t)
    (step : ∀ before x after w, visited t top pathLimit [] = before ++ x :: after → I before w →
      ∃ w', each (extend s x.1) x.2 w = .ok () w' ∧ I (before ++ [x]) w')
    {w : World} (hx : t.node? top = some .directory) (h : I [] w) :
    ∃ w', walkAll (fun dir names => names.forM (each dir)) s w = .ok () w' ∧
      I (visited t top pathLimit []) w' := by
  have whole : visited t top pathLimit [] = [] ++ visited t top pathLimit [] ++ [] := by simp
  have key := walk_ok walkable I view step pathLimit whole (by rwa [List.append_nil]) h
  have fits : Fits s := walkable.fits [] .directory (by rwa [List.append_nil])
  rw [walkAll, if_neg fits.noNul]
  rwa [extend_nil, List.nil_append] at key

end Walk

theorem walkable_of_laid {t u : Tree} {s : String} {top : Place} {done : List (Place × Bytes)}
    (ht : t.Sound) (free : Free t top) (laid : Laid t u top done) (named : Named s)
    (fits : ∀ e ∈ done, Fits (extend s e.1)) : Walkable u s top where
  sound := laid.sound
  nonempty := named.nonempty
  unlinked := laid.unlinked ht free
  fits := by
    intro q x hx
    cases x with
    | file c => exact fits (q, c) ((laid.file_iff ht free).mp hx)
    | directory =>
      obtain ⟨⟨r, c⟩, he, ⟨ms, rfl⟩, _⟩ := (laid.directory_iff ht free).mp hx
      have proper := (laid.sound.proper _ _ (laid.files _ he)).right
      exact (fits _ he).of_append proper.right
    | link target => exact absurd hx (laid.unlinked ht free q target)

/-! ### Walks over a directory with links -/

def enter (visit : String → List String → Run Unit) (fuel : Nat) (s name : String) : Run Unit := do
  if (← disk).isLink (join s name) then pure () else walk visit fuel (join s name)

theorem walk_eq (visit : String → List String → Run Unit) (fuel : Nat) (s : String) (w : World) :
    walk visit (fuel + 1) s w =
      (visit s (w.disk.list s).2 >>= fun _ => (w.disk.list s).1.forM (enter visit fuel s)) w := rfl

theorem keeps_enter {I : World → Prop} {visit : String → List String → Run Unit}
    (visits : ∀ s names, Keeps I (visit s names)) (fuel : Nat) (s name : String) :
    Keeps I (enter visit fuel s name) :=
  keeps_disk_of (fun _ => Keeps.ite (fun _ => Keeps.pure _) (fun _ =>
    keeps_walk (V := fun _ => True) (N := fun _ => True) (fun _ _ _ _ _ => trivial)
      (fun _ _ _ _ => trivial) (fun s names _ _ => visits s names) fuel trivial))

section Reaches

variable {d : Disk} (hd : d.Sound) {top : String} {p : Place} (hl : Leads d top p) (ht : top ≠ "")
include hd hl ht

theorem list_mem {ms : List String} {n : String} {x : Node}
    (there : d.tree.node? (p ++ (ms ++ [n])) = some x) (fits : Fits (extend top (ms ++ [n]))) :
    (d.isDirectory (extend top (ms ++ [n])) = true → n ∈ (d.list (extend top ms)).1) ∧
      (d.isDirectory (extend top (ms ++ [n])) = false → n ∈ (d.list (extend top ms)).2) := by
  have proper : AllProper (ms ++ [n]) := (hd.tree.proper _ _ there).right
  rw [← List.append_assoc] at there
  have leads := hl.extended hd proper.left (hd.tree.above _ _ _ there)
  have nonempty := extend_ne_empty ht proper.left
  rw [extend_concat] at fits ⊢
  have one : AllProper [n] := proper.last.single
  have found := leads.find nonempty (Fits.of_extend one fits)
  have member : n ∈ d.tree.names (p ++ ms) := (Tree.mem_names _ _ _).mpr ⟨x, there⟩
  rw [Disk.list, found, ← leads.countsAsDirectory_eq hd there (fun _ => fits)]
  dsimp only
  rw [List.partition_eq_filter_filter]
  exact ⟨fun h => List.mem_filter.mpr ⟨member, h⟩,
    fun h => List.mem_filter.mpr ⟨member, by simp [h]⟩⟩

/-- What the visit with a certain entry brings about, and other visits leave, has come about when the
walk ends. -/
theorem walk_reaches {I J : World → Prop} {visit : String → List String → Run Unit}
    (same : ∀ w, I w → w.disk = d) (keeps : ∀ s names, Keeps I (visit s names))
    (stays : ∀ s names, Keeps J (visit s names)) {ms ns : List String} {n : String} {x : Node}
    (there : d.tree.node? (p ++ (ms ++ ns ++ [n])) = some x)
    (fits : Fits (extend top (ms ++ ns ++ [n])))
    (plain : d.isDirectory (extend top (ms ++ ns ++ [n])) = false)
    (hit : ∀ names w w', n ∈ names → I w → visit (extend top (ms ++ ns)) names w = .ok () w' → J w')
    {fuel : Nat} (deep : ns.length < fuel) {w w' : World} (hw : I w)
    (run : walk visit fuel (extend top ms) w = .ok () w') : J w' := by
  induction ns generalizing ms fuel w w' with
  | nil =>
    obtain ⟨fuel, rfl⟩ := Nat.exists_eq_add_of_lt deep
    rw [List.append_nil] at there fits plain hit
    rw [walk_eq, same w hw] at run
    obtain ⟨_, w₁, first, rest⟩ := ok_of_bind run
    have listed := (list_mem hd hl ht there fits).2 plain
    exact (Keeps.forM _ (fun m _ => keeps_enter stays _ _ m)).of_ok (hit _ w w₁ listed hw first) rest
  | cons m ns ih =>
    obtain ⟨fuel, rfl⟩ := Nat.exists_eq_add_of_lt (Nat.zero_lt_of_lt deep)
    rw [walk_eq, same w hw] at run
    obtain ⟨_, w₁, first, rest⟩ := ok_of_bind run
    -- the next name is that of a directory, which is no link
    have split : ms ++ m :: ns ++ [n] = ms ++ [m] ++ ns ++ [n] := by simp
    rw [split] at there fits plain
    rw [List.append_cons] at hit
    have proper : AllProper (ms ++ [m] ++ ns ++ [n]) := (hd.tree.proper _ _ there).right
    have dir : d.tree.node? (p ++ (ms ++ [m])) = some .directory := by
      have below := there
      rw [List.append_assoc _ ns, ← List.append_assoc] at below
      exact hd.tree.directory_of_below below (by simp)
    have fits' : Fits (extend top (ms ++ [m])) := by
      rw [List.append_assoc] at fits proper
      exact fits.of_append proper.right
    have found : ∀ last, d.find last (extend top (ms ++ [m])) = .ok (.node (p ++ (ms ++ [m])) .directory) :=
      hl.find_present hd (by simp) fits' dir (by simp)
    have isDir : d.isDirectory (extend top (ms ++ [m])) = true := by
      rw [Disk.isDirectory, Disk.node, found]
    have listed := (list_mem hd hl ht dir fits').1 isDir
    refine Keeps.forM_reaches listed (fun k _ => keeps_enter keeps _ _ k)
      (fun k _ => keeps_enter stays _ _ k) (fun s s' hs entered => ?_) ((keeps _ _).of_ok hw first) rest
    have plainly : d.isLink (join (extend top ms) m) = false := by
      rw [← extend_concat, Disk.isLink, Disk.node, found]
    rw [enter, bind_ok (show disk s = .ok s.disk s from rfl), same s hs, plainly, ← extend_concat] at entered
    rw [List.length_cons] at deep
    exact ih there fits plain hit (by omega) hs entered

theorem walkAll_reaches {I J : World → Prop} {visit : String → List String → Run Unit}
    (same : ∀ w, I w → w.disk = d) (keeps : ∀ s names, Keeps I (visit s names))
    (stays : ∀ s names, Keeps J (visit s names)) {ns : List String} {n : String} {x : Node}
    (there : d.tree.node? (p ++ (ns ++ [n])) = some x) (fits : Fits (extend top (ns ++ [n])))
    (plain : d.isDirectory (extend top (ns ++ [n])) = false)
    (hit : ∀ names w w', n ∈ names → I w → visit (extend top ns) names w = .ok () w' → J w')
    {w w' : World} (hw : I w) (run : walkAll visit top w = .ok () w') : J w' := by
  have deep : ns.length < pathLimit := by
    have long := length_add_byteLength_le (s := top) (hd.tree.proper _ _ there).right
    have short := fits.short
    rw [List.length_append, List.length_singleton] at long
    omega
  have noNul : '\x00' ∉ top.toList := (nul_mem_extend (hd.tree.proper _ _ there).right).not.mp fits.noNul
  rw [walkAll, if_neg noNul, ← extend_nil top] at run
  rw [← List.nil_append ns] at there fits plain hit
  exact walk_reaches hd hl ht same keeps stays there fits plain hit deep hw run

end Reaches

end SqlMigration.Run
