import SqlMigration.Proofs.Files.Making
import SqlMigration.Proofs.Files.Removal
import SqlMigration.Proofs.Files.Twin

/-!
# What actions set

Making directories, writing and copying set one place after the other: to a
directory where nothing is, or to a file where nothing or a file is. Whatever
survives that is kept by all of them.
-/

set_option autoImplicit false

namespace SqlMigration

open SqlMigration.Path Files Effect

/-- A sound disk on which links stand for paths that can be followed. -/
structure Disk.Genuine (d : Disk) : Prop where
  sound : d.Sound
  links : ∀ p target, d.tree.node? p = some (.link target) → '\x00' ∉ target.toList

theorem Disk.genuine_of_entries {d : Disk} (nodup : (Table.keys d.tree.entries).Nodup)
    (h : ∀ e ∈ d.tree.entries, AllProper e.1 ∧ (∀ n ∈ e.1, byteLength n ≤ nameLimit) ∧
      d.tree.node? e.1.dropLast = some .directory)
    (here : d.tree.node? d.here = some .directory)
    (links : ∀ e ∈ d.tree.entries, ∀ target, e.2 = .link target → '\x00' ∉ target.toList) : d.Genuine where
  sound := ⟨Tree.sound_of_entries nodup h, here⟩
  links _ target there := links _ (Tree.mem_entries_of_link there) target rfl

def Disk.set (d : Disk) (r : Place) (x : Node) : Disk := { d with tree := d.tree.put r x }

namespace Files

/-! ### What a lookup finds -/

def IsStep (n : String) : Prop := n = "." ∨ n = ".." ∨ Proper n

theorem isStep_of_mem_steps {s n : String} (hs : '\x00' ∉ s.toList) (h : n ∈ steps s) : IsStep n := by
  have part : ∀ m ∈ parts s, IsStep m := by
    intro m hm
    by_cases dot : m = "."
    · exact Or.inl dot
    by_cases up : m = ".."
    · exact Or.inr (Or.inl up)
    · exact Or.inr (Or.inr (proper_of_mem_parts hs hm dot up))
  unfold steps at h
  split at h
  · rcases List.mem_append.mp h with h | h
    · exact part n h
    · exact Or.inl (List.mem_singleton.mp h)
  · exact part n h

def Inside (t : Tree) (r : Place) : Prop :=
  ∃ p n, r = p ++ [n] ∧ t.node? p = some .directory ∧ Proper n ∧ byteLength n ≤ nameLimit

/-- What is found is there, and what is absent could be there. -/
def Found.Faithful (t : Tree) : Found → Prop
  | .node q x => t.node? q = some x
  | .absent q => t.node? q = none ∧ Inside t q

section Lookup

variable {d : Disk} (hd : d.Genuine)
include hd

theorem follow_faithful {last : Bool} {k : Nat} {p : Place} {ns : List String}
    (hp : d.tree.node? p = some .directory) (hns : ∀ n ∈ ns, IsStep n) {r : Found}
    (h : follow d.tree last k p ns = .ok r) : r.Faithful d.tree := by
  replace h := finds_of_follow h
  induction h with
  | done k p => exact hp
  | dot _ ih => exact ih hp (fun m hm => hns m (List.mem_cons_of_mem _ hm))
  | up _ ih => exact ih (hd.sound.tree.dropLast hp) (fun m hm => hns m (List.mem_cons_of_mem _ hm))
  | @absent k p n name here =>
    have proper := ((hns n List.mem_cons_self).resolve_left name.notDot).resolve_left name.notParent
    exact ⟨here, p, n, rfl, hp, proper, name.short⟩
  | file _ here | stop _ here _ => exact here
  | enter _ here _ ih => exact ih here (fun m hm => hns m (List.mem_cons_of_mem _ hm))
  | @link k p n target ns r _ here _ _ ih =>
    refine ih ?_ (fun m hm => ?_)
    · unfold startFrom
      split
      · rfl
      · exact hp
    · rcases List.mem_append.mp hm with hm | hm
      · exact isStep_of_mem_steps (hd.links _ _ here) hm
      · exact hns m (List.mem_cons_of_mem _ hm)

theorem find_faithful {last : Bool} {u : String} {r : Found} (h : d.find last u = .ok r) :
    r.Faithful d.tree := by
  rw [Disk.find] at h
  split_ifs at h with nul
  exact follow_faithful hd (directory_startFrom hd.sound u) (fun n => isStep_of_mem_steps nul) h

end Lookup

theorem follow_ne_link {t : Tree} {k : Nat} {p : Place} {ns : List String} {q : Place} {target : String} :
    follow t true k p ns ≠ .ok (.node q (.link target)) := by
  intro h
  replace h := finds_of_follow h
  generalize result : Found.node q (.link target) = r at h
  induction h with
  | done _ _ | absent _ _ | file _ _ => cases result
  | stop _ _ still => cases still
  | dot _ ih | up _ ih | enter _ _ _ ih | link _ _ _ _ ih => exact ih result

theorem find_ne_link {d : Disk} {u : String} {q : Place} {target : String} :
    d.find true u ≠ .ok (.node q (.link target)) := by
  rw [Disk.find]
  split_ifs
  · simp
  · simp
  · simp
  · exact follow_ne_link

/-! ### Setting a place -/

/-- Acting on the path sets a place: a directory is made there, or a file is written. -/
inductive Sets (d : Disk) (u : String) : Place → Node → Prop where
  | directory {p : Place} (fresh : Fresh d u p) : Sets d u (p ++ [name (bare u)]) .directory
  | file {r : Place} (content : Bytes)
    (found : d.find true u = .ok (.absent r) ∨ ∃ old, d.find true u = .ok (.node r (.file old))) :
    Sets d u r (.file content)

/-- A place in a directory where nothing is, or a file that is to be replaced by one. -/
structure Spot (t : Tree) (r : Place) (x : Node) : Prop where
  inside : Inside t r
  free : t.node? r = none ∨ ∃ old new, t.node? r = some (.file old) ∧ x = .file new
  plain : ∀ target, x ≠ .link target

theorem Sets.spot {d : Disk} (hd : d.Genuine) {u : String} {r : Place} {x : Node} (h : Sets d u r x) :
    Spot d.tree r x := by
  cases h with
  | directory fresh =>
    exact ⟨⟨_, _, rfl, find_faithful hd fresh.found, fresh.proper, fresh.shortName⟩,
      Or.inl fresh.absent, by simp⟩
  | file content found =>
    rcases found with found | ⟨old, found⟩
    · obtain ⟨absent, inside⟩ := find_faithful hd found
      exact ⟨inside, Or.inl absent, by simp⟩
    · have there : d.tree.node? r = some (.file old) := find_faithful hd found
      refine ⟨?_, Or.inr ⟨old, content, there, rfl⟩, by simp⟩
      rcases List.eq_nil_or_concat r with rfl | ⟨p, n, rfl⟩
      · cases there
      · rw [List.concat_eq_append] at there ⊢
        have sound := hd.sound.tree
        exact ⟨p, n, rfl, sound.above p n _ there, (sound.proper _ _ there).last,
          sound.short _ _ there n (by simp)⟩

section Spot

variable {d : Disk} {r : Place} {x : Node} (h : Spot d.tree r x)
include h

theorem Spot.ne_nil : r ≠ [] := by
  obtain ⟨p, n, rfl, _⟩ := h.inside
  simp

theorem Spot.node?_set (q : Place) : (d.set r x).tree.node? q = if r = q then some x else d.tree.node? q :=
  Tree.node?_put d.tree h.ne_nil q x

theorem Spot.keep {q : Place} {y : Node} (hy : d.tree.node? q = some y) :
    (d.set r x).tree.node? q = some y ∨
      ∃ old new, y = .file old ∧ (d.set r x).tree.node? q = some (.file new) := by
  rw [h.node?_set]
  by_cases e : r = q
  · rw [if_pos e]
    rw [← e] at hy
    rcases h.free with none | ⟨old, new, there, rfl⟩
    · rw [none] at hy
      cases hy
    · rw [there] at hy
      cases hy
      exact Or.inr ⟨old, new, rfl, rfl⟩
  · rw [if_neg e]
    exact Or.inl hy

theorem Spot.genuine (hd : d.Genuine) : (d.set r x).Genuine := by
  obtain ⟨p, n, rfl, dir, proper, short⟩ := h.inside
  refine ⟨⟨hd.sound.tree.put dir proper short (fun there => ?_), ?_⟩, fun q target hq => ?_⟩
  · rcases h.free with none | ⟨old, new, file, _⟩
    · rw [none] at there
      cases there
    · rw [file] at there
      cases there
  · rcases h.keep hd.sound.here with same | ⟨_, _, file, _⟩
    · exact same
    · cases file
  · rw [h.node?_set] at hq
    split at hq
    · cases hq
      exact absurd rfl (h.plain target)
    · exact hd.links q target hq

end Spot

/-- All that is on the first disk is on the second, apart from the contents of files. -/
structure Kept (d e : Disk) : Prop where
  here : e.here = d.here
  nodes : ∀ q x, d.tree.node? q = some x → e.tree.node? q = some x ∨
    ∃ old new, x = .file old ∧ e.tree.node? q = some (.file new)

theorem Kept.refl (d : Disk) : Kept d d := ⟨rfl, fun _ _ hx => Or.inl hx⟩

theorem Kept.set {d e : Disk} (h : Kept d e) {r : Place} {x : Node} (spot : Spot e.tree r x) :
    Kept d (e.set r x) where
  here := h.here
  nodes := by
    intro q y hy
    rcases h.nodes q y hy with same | ⟨old, new, rfl, file⟩
    · exact spot.keep same
    · rcases spot.keep file with same | ⟨_, newer, _, same⟩
      · exact Or.inr ⟨old, new, rfl, same⟩
      · exact Or.inr ⟨old, newer, rfl, same⟩

/-! ### Files that are found -/

theorem Finds.file_there {t u : Tree} {k : Nat} {p : Place} {ns : List String} {f : Found}
    (h : Finds t true k p ns f) (kind : ∀ x, f.node? = some x → ∃ old, x = .file old)
    (keep : ∀ r x, t.node? r = some x → (∀ c, x ≠ .file c) → u.node? r = some x) {content : Bytes}
    (there : u.node? f.place = some (.file content)) :
    Finds u true k p ns (.node f.place (.file content)) := by
  induction h with
  | done _ p =>
    obtain ⟨old, same⟩ := kind _ rfl
    cases same
  | dot _ ih => exact .dot (ih kind there)
  | up _ ih => exact .up (ih kind there)
  | absent name _ | file name _ => exact .file name there
  | enter name here _ ih => exact .enter name (keep _ _ here (by simp)) (ih kind there)
  | stop _ _ still => cases still
  | link name here go _ ih => exact .link name (keep _ _ here (by simp)) go (ih kind there)

section Spot

variable {d : Disk} {r : Place} {x : Node} (h : Spot d.tree r x)
include h

theorem Spot.find_there {u : String} {f : Found} (found : d.find true u = .ok f)
    (kind : ∀ x, f.node? = some x → ∃ old, x = .file old) {content : Bytes}
    (there : (d.set r x).tree.node? f.place = some (.file content)) :
    (d.set r x).find true u = .ok (.node f.place (.file content)) := by
  rw [Disk.find] at found ⊢
  split_ifs at found ⊢
  refine ((finds_of_follow found).file_there kind (fun q y hy plain => ?_) there).follow_eq
  rcases h.keep hy with same | ⟨old, _, rfl, _⟩
  · exact same
  · exact absurd rfl (plain old)

theorem Spot.find_file {u : String} {q : Place} {content : Bytes} (hd : d.Genuine)
    (found : d.find true u = .ok (.node q (.file content))) :
    (r ≠ q ∧ (d.set r x).find true u = .ok (.node q (.file content))) ∨
      ∃ new, r = q ∧ x = .file new ∧ (d.set r x).find true u = .ok (.node q (.file new)) := by
  have there : d.tree.node? q = some (.file content) := find_faithful hd found
  have kind : ∀ y, (Found.node q (.file content)).node? = some y → ∃ old, y = .file old :=
    fun y hy => ⟨content, (Option.some.inj hy).symm⟩
  by_cases same : r = q
  · rcases h.free with none | ⟨_, new, _, rfl⟩
    · rw [same, there] at none
      cases none
    · have now : (d.set r (.file new)).tree.node? q = some (.file new) := by
        rw [h.node?_set, if_pos same]
      exact Or.inr ⟨new, same, rfl, h.find_there found kind now⟩
  · have now : (d.set r x).tree.node? q = some (.file content) := by
      rw [h.node?_set, if_neg same, there]
    exact Or.inl ⟨same, h.find_there found kind now⟩

end Spot

theorem Sets.found {d : Disk} (hd : d.Genuine) {u : String} {r : Place} {content : Bytes}
    (h : Sets d u r (.file content)) :
    (d.set r (.file content)).find true u = .ok (.node r (.file content)) := by
  have spot := h.spot hd
  have now : (d.set r (.file content)).tree.node? r = some (.file content) := by
    rw [spot.node?_set, if_pos rfl]
  cases h with
  | file _ found =>
    rcases found with found | ⟨old, found⟩
    · exact spot.find_there found (fun _ hy => nomatch hy) now
    · exact spot.find_there found (fun _ hy => ⟨old, (Option.some.inj hy).symm⟩) now

/-! ### What survives -/

/-- Acting on one of the paths sets places only in such a way that what holds goes on to hold. -/
def Survives (I : Disk → Prop) (U : String → Prop) : Prop :=
  ∀ d u r x, I d → U u → Sets d u r x → I (d.set r x)

theorem keeps_read (I : Disk → Prop) (path : String) : Keeps I (read path) := by
  refine Keeps.get_bind (fun d hd => ?_)
  cases d.find true path with
  | error r => exact hd
  | ok r =>
    cases r with
    | absent p => exact hd
    | node p x => cases x <;> exact hd

theorem write_cases (path : String) (content : Bytes) (d : Disk) :
    (∃ f, write path content d = .error f d) ∨
      ∃ r, Sets d path r (.file content) ∧ write path content d = .ok () (d.set r (.file content)) := by
  unfold Files.write
  split
  · cases hc : containerPlace path d with
    | ok p e =>
      obtain rfl := (keeps_containerPlace (· = d) path).of_ok rfl hc
      exact Or.inl ⟨_, bind_ok hc⟩
    | error f e =>
      obtain rfl := (keeps_containerPlace (· = d) path).of_error rfl hc
      exact Or.inl ⟨f, bind_error hc⟩
  · rw [bind_ok (get_apply d)]
    cases found : d.find true path with
    | error r => exact Or.inl ⟨_, rfl⟩
    | ok r =>
      cases r with
      | absent r => exact Or.inr ⟨r, .file content (Or.inl found), rfl⟩
      | node r x =>
        cases x with
        | directory => exact Or.inl ⟨_, rfl⟩
        | file old => exact Or.inr ⟨r, .file content (Or.inr ⟨old, found⟩), rfl⟩
        | link target => exact absurd found find_ne_link

theorem keeps_write {I : Disk → Prop} {path : String} {content : Bytes}
    (h : ∀ d r, I d → Sets d path r (.file content) → I (d.set r (.file content))) :
    Keeps I (write path content) := by
  intro d hd
  rcases write_cases path content d with ⟨f, run⟩ | ⟨r, sets, run⟩
  · rw [run]
    exact hd
  · rw [run]
    exact h d r hd sets

section Survives

variable {I : Disk → Prop} {U : String → Prop} (survives : Survives I U)
include survives

theorem Survives.makePath (above : ∀ u, U u → U (ends u).1) {path : String} (hp : U path) :
    Keeps I (makePath path) :=
  keeps_makePath above (fun u d _ hu hd fresh => survives d u _ _ hd hu (.directory fresh)) hp

theorem Survives.write {path : String} (hp : U path) (content : Bytes) :
    Keeps I (write path content) :=
  keeps_write (fun d r hd sets => survives d path r _ hd hp sets)

theorem Survives.copy {source target : String} (ht : U target) (inside : U (join target (name source))) :
    Keeps I (copy source target) := by
  have replaces : ∀ u, U u → Keeps I (copyOver source u) := by
    intro u hu
    refine Keeps.bind (keeps_read I source) (fun content => ?_)
    refine (survives.write hu content).tryCatch (fun fault => ?_)
    split
    · exact Keeps.get_bind (fun d hd =>
        Keeps.ite (fun _ => Keeps.throw _) (fun _ => Keeps.throw _) d hd)
    · exact Keeps.throw _
  have onto : ∀ d u, U u → Keeps I (copyOnto d source u) := by
    intro d u hu
    rw [copyOnto]
    split
    · exact Keeps.ite (fun _ => Keeps.bind (Keeps.throw _) (fun _ => replaces u hu))
        (fun _ => replaces u hu)
    · exact replaces u hu
  rw [copy_eq]
  refine Keeps.get_bind (fun d hd => onto d _ ?_ d hd)
  split
  · exact inside
  · exact ht

end Survives

/-! ### Setting places along a lane -/

theorem Kept.leads {d e : Disk} (h : Kept d e) {s : String} {p : Place} (hl : Leads d s p) :
    Leads e s p := by
  obtain ⟨j, way⟩ := hl
  refine ⟨j, h.here ▸ way.stays (fun r x hx plain => ?_)⟩
  rcases h.nodes r x hx with same | ⟨old, _, rfl, _⟩
  · exact same
  · exact absurd rfl (plain old)

theorem Leads.not_sets {d : Disk} {u : String} {q : Place} (h : Leads d u q) {r : Place} {x : Node} :
    ¬ Sets d u r x := by
  rintro (fresh | ⟨content, found | ⟨old, found⟩⟩)
  · exact h.not_fresh fresh
  · cases h.found found
  · cases h.found found

theorem Leads.of_dot {d : Disk} {s : String} {p : Place} (h : Leads d (join s ".") p) (hs : s ≠ "") :
    Leads d s p := by
  obtain ⟨j, way⟩ := h
  rw [startFrom, isAbsolute_join_dot hs, parts_join_relative not_isAbsolute_dot, parts_dot] at way
  exact way.of_dot

theorem Leads.above {d : Disk} {u : String} {q : Place} (h : Leads d u q) :
    ∃ p, Leads d (ends u).1 p := by
  obtain ⟨j, way⟩ := h
  rw [← parts_bare, parts_parent] at way
  obtain ⟨i, p, first, _⟩ := way.split_append
  rw [ends_eq_split]
  change ∃ p, Leads d (Path.parent (Files.bare u)) p
  exact ⟨p, i, by rwa [startFrom, isAbsolute_parent, isAbsolute_bare]⟩

/-- Names on the way along some names, or on from there. -/
def Along (ns ms : List String) : Prop := AllProper ms ∧ (ms <+: ns ∨ ns <+: ms)

theorem Along.of_prefix {ns ms ks : List String} (h : Along ns ms) (hk : ks <+: ms) : Along ns ks := by
  refine ⟨fun n hn => h.1 n (hk.subset hn), ?_⟩
  rcases h.2 with hm | hm
  · exact Or.inl (hk.trans hm)
  · exact List.prefix_or_prefix_of_prefix hk hm

/-- A path that leads to a directory, and names that go on from there past no links. -/
structure Lane (d : Disk) (s : String) (p : Place) (ns : List String) : Prop where
  text : s ≠ ""
  trimmed : Trimmed s
  leads : Leads d s p
  unlinked : ∀ ms target, Along ns ms → ms ≠ [] → d.tree.node? (p ++ ms) ≠ some (.link target)

section Lane

variable {d : Disk} {s : String} {p : Place} {ns : List String} (h : Lane d s p ns)
include h

theorem Lane.follow_place (hd : d.Sound) {ms : List String} (along : Along ns ms) {last : Bool}
    {k : Nat} {r : Found} (hr : follow d.tree last k p ms = .ok r) : r.place = p ++ ms :=
  ((finds_of_follow hr).unlinked along.1 (h.leads.directory hd)
    (fun _ hk hne target => h.unlinked _ target (along.of_prefix hk) hne)).1

theorem Lane.leads_place (hd : d.Sound) {ms : List String} (along : Along ns ms) {q : Place}
    (hq : Leads d (extend s ms) q) : q = p ++ ms := by
  by_cases hne : ms = []
  · rw [hne, List.append_nil]
    rw [hne, extend_nil] at hq
    exact hq.unique h.leads
  · obtain ⟨j, same⟩ := h.leads.follow_extend along.1 hne
    exact h.follow_place hd along ((same true).symm.trans hq.follow_steps)

theorem Lane.place (hd : d.Sound) {ms : List String} (along : Along ns ms) (hne : ms ≠ []) {r : Place}
    {x : Node} (sets : Sets d (extend s ms) r x) : r = p ++ ms := by
  cases sets with
  | file content there =>
    obtain ⟨j, same⟩ := h.leads.follow_extend along.1 hne
    have found : ∀ {f : Found}, d.find true (extend s ms) = .ok f → f.place = p ++ ms := by
      intro f hf
      rw [Disk.find] at hf
      split_ifs at hf
      rw [same] at hf
      exact h.follow_place hd along hf
    rcases there with there | ⟨old, there⟩
    · exact found there
    · exact found there
  | @directory q fresh =>
    obtain ⟨ks, n, rfl⟩ := List.eq_nil_or_concat ms |>.resolve_left hne
    rw [List.concat_eq_append] at *
    have front := along.of_prefix (List.prefix_append ks [n])
    have text : extend s ks ≠ "" := extend_ne_empty h.text front.1
    have named : Files.bare (extend s (ks ++ [n])) = extend s (ks ++ [n]) :=
      bare_named (named_extend along.1 hne)
    have trimmed := h.trimmed.extend front.1
    -- the directory that is to hold the new one is looked up by itself, along the same lane
    have above := fresh.found
    rw [container, named, extend_concat, parent_join trimmed along.1.last, if_neg text] at above
    rw [named, extend_concat, name_join trimmed along.1.last,
      h.leads_place hd front ((leads_of_find above).of_dot text), List.append_assoc]

theorem Lane.set {r : Place} {x : Node} (spot : Spot d.tree r x) :
    Lane (d.set r x) s p ns where
  text := h.text
  trimmed := h.trimmed
  leads := ((Kept.refl d).set spot).leads h.leads
  unlinked := by
    intro ms target along hne
    rw [spot.node?_set]
    split
    · exact fun e => spot.plain target (Option.some.inj e)
    · exact h.unlinked ms target along hne

end Lane

/-- The second disk differs from the first only at places along a lane. -/
structure Confined (d e : Disk) (s : String) (p : Place) (ns : List String) : Prop where
  lane : Lane e s p ns
  rest : ∀ q, (∀ ms, Along ns ms → ms ≠ [] → q ≠ p ++ ms) → e.tree.node? q = d.tree.node? q

theorem Confined.set {d e : Disk} {s : String} {p : Place} {ns : List String}
    (h : Confined d e s p ns) {ms : List String} (along : Along ns ms) (hne : ms ≠ []) {x : Node}
    (spot : Spot e.tree (p ++ ms) x) : Confined d (e.set (p ++ ms) x) s p ns := by
  refine ⟨h.lane.set spot, fun q hq => ?_⟩
  rw [spot.node?_set, if_neg (hq ms along hne).symm, h.rest q hq]

end Files

end SqlMigration
