import SqlMigration.Proofs.Files.Absolute
import SqlMigration.Proofs.Files.Acts

/-!
# Disks that differ out of sight

Two disks may differ at hidden places. As long as a path leads only through places
that are near, and no links stand there, an action on it does the same on both:
it finds the same, fails with the same fault, and leaves them different at hidden
places only.
-/

set_option autoImplicit false

namespace SqlMigration.Tree

open SqlMigration.Path

/-- No place is listed twice, and all names are proper. -/
structure Tidy (t : Tree) : Prop where
  nodup : (Table.keys t.entries).Nodup
  proper : ∀ p x, t.node? p = some x → AllProper p

theorem Sound.tidy {t : Tree} (h : t.Sound) : t.Tidy := ⟨h.nodup, h.proper⟩

section Tidy

variable {t : Tree} (h : t.Tidy)
include h

theorem Tidy.put {p : Place} (hp : AllProper p) (x : Node) : (t.put p x).Tidy where
  nodup := Table.nodup_put h.nodup _ _
  proper := by
    intro q y hy
    by_cases e : p = q
    · exact e ▸ hp
    · rw [node?_put_of_ne e] at hy
      exact h.proper q y hy

theorem Tidy.clear (p : Place) : (t.clear p).Tidy where
  nodup := Table.nodup_filter h.nodup _
  proper := by
    intro q y hy
    rw [node?_clear] at hy
    split at hy
    · cases hy
    · exact h.proper q y hy

theorem Tidy.remove (p : Place) : (t.remove p).Tidy where
  nodup := Table.nodup_filter h.nodup _
  proper := by
    intro q y hy
    by_cases hq : q = []
    · rw [hq]
      exact fun _ hn => absurd hn List.not_mem_nil
    · rw [node?_remove _ hq] at hy
      split at hy
      · cases hy
      · exact h.proper q y hy

end Tidy

end SqlMigration.Tree

namespace SqlMigration.Files

open SqlMigration.Path Effect

/-- Places that are hidden, and places that paths may lead through. -/
structure Zone where
  hidden : Place → Prop
  near : Place → Prop
  apart : ∀ q, near q → ¬ hidden q
  proper : ∀ q, near q → AllProper q

/-- Two disks that differ at hidden places only and have no links at near ones. -/
structure Twin (z : Zone) (here : Place) (d e : Disk) : Prop where
  left : d.here = here
  right : e.here = here
  tidy : d.tree.Tidy
  tidy' : e.tree.Tidy
  agree : ∀ q, ¬ z.hidden q → d.tree.node? q = e.tree.node? q
  unlinked : ∀ q target, z.near q → d.tree.node? q ≠ some (.link target)

/-! ### Lookups -/

/-- All places on the way along some parts are of a kind. -/
def Within (near : Place → Prop) (p : Place) (ns : List String) : Prop :=
  ∀ ms, ms <+: ns → near (formal p ms)

section Within

variable {near : Place → Prop} {p : Place} {ns : List String} (h : Within near p ns)
include h

theorem Within.start : near p := h [] List.nil_prefix

theorem Within.finish : near (formal p ns) := h ns (List.prefix_refl ns)

theorem Within.of_prefix {ms : List String} (hm : ms <+: ns) : Within near p ms :=
  fun ks hk => h ks (hk.trans hm)

theorem Within.dot : Within near p (ns ++ ["."]) := by
  intro ms hm
  rcases List.prefix_concat_iff.mp hm with rfl | hm
  · rw [formal_append]
    exact h.finish
  · exact h ms hm

end Within

theorem Within.tail {near : Place → Prop} {p : Place} {n : String} {ns : List String}
    (h : Within near p (n :: ns)) : Within near (formal p [n]) ns := by
  intro ms hm
  have := h (n :: ms) (List.cons_prefix_cons.mpr ⟨rfl, hm⟩)
  rwa [← List.singleton_append, formal_append] at this

theorem Finds.place_eq {t : Tree} {last : Bool} {k : Nat} {p : Place} {ns : List String} {r : Found}
    (h : Finds t last k p ns r)
    (plain : Within (fun q => ∀ target, t.node? q ≠ some (.link target)) p ns) : r.place = formal p ns := by
  induction h with
  | done k p => rfl
  | dot _ ih => exact ih plain.tail
  | up _ ih => exact ih plain.tail
  | absent name _ | file name _ | stop name _ _ =>
    simp [formal, name.notDot, name.notParent, Found.place]
  | @enter k p n ns r name _ _ ih =>
    have next : formal p [n] = p ++ [n] := by simp [formal, name.notDot, name.notParent]
    rw [formal, if_neg name.notDot, if_neg name.notParent]
    exact ih (next ▸ plain.tail)
  | @link k p n target ns r name here _ _ _ =>
    have next : formal p [n] = p ++ [n] := by simp [formal, name.notDot, name.notParent]
    exact absurd here (next ▸ plain.tail.start target)

section Twin

variable {z : Zone} {here : Place} {d e : Disk} (h : Twin z here d e)
include h

theorem Twin.follow_eq (last : Bool) (k : Nat) {p : Place} {ns : List String}
    (within : Within z.near p ns) :
    follow d.tree last k p ns = follow e.tree last k p ns ∧
      ∀ r, follow d.tree last k p ns = .ok r → r.place = formal p ns := by
  refine ⟨?_, fun r found => (finds_of_follow found).place_eq (fun ms hm target =>
    h.unlinked _ target (within ms hm))⟩
  induction ns generalizing p with
  | nil => rw [follow_nil, follow_nil]
  | cons n ns ih =>
    have more := ih within.tail
    have next := within.tail.start
    rw [follow_cons, follow_cons]
    by_cases dot : n = "."
    · have same : formal p [n] = p := by rw [formal, if_pos dot]; rfl
      rw [same] at more
      rwa [if_pos dot, if_pos dot]
    by_cases up : n = ".."
    · have same : formal p [n] = p.dropLast := by rw [formal, if_neg dot, if_pos up]; rfl
      rw [same] at more
      rwa [if_neg dot, if_pos up, if_neg dot, if_pos up]
    have same : formal p [n] = p ++ [n] := by rw [formal, if_neg dot, if_neg up]; rfl
    rw [same] at more next
    rw [if_neg dot, if_neg up, if_neg dot, if_neg up, ← h.agree _ (z.apart _ next)]
    cases there : d.tree.node? (p ++ [n]) with
    | none => rfl
    | some x =>
      cases x with
      | directory => simp only [more]
      | file c => rfl
      | link target => exact absurd there (h.unlinked (p ++ [n]) target next)

end Twin

/-- A path that leads only through near places. -/
def Safe (z : Zone) (here : Place) (path : String) : Prop :=
  Within z.near (startFrom here path) (parts path)

section Queries

variable {z : Zone} {here : Place} {d e : Disk} {path : String} (h : Twin z here d e)
  (safe : Safe z here path)
include h safe

theorem Twin.find_eq (last : Bool) :
    d.find last path = e.find last path ∧
      ∀ r, d.find last path = .ok r → r.place = formalPlace here path := by
  have along : Within z.near (startFrom here path) (steps path) ∧
      formal (startFrom here path) (steps path) = formalPlace here path := by
    unfold steps
    split
    · exact ⟨Within.dot safe, by rw [formal_append]; rfl⟩
    · exact ⟨safe, rfl⟩
  have found := h.follow_eq last linkLimit along.1
  rw [along.2] at found
  rw [Disk.find, Disk.find, h.left, h.right]
  split_ifs
  · exact ⟨rfl, by simp⟩
  · exact ⟨rfl, by simp⟩
  · exact ⟨rfl, by simp⟩
  · exact found

theorem Twin.near_found {last : Bool} {r : Found} (hr : e.find last path = .ok r) :
    z.near r.place := by
  have found := h.find_eq safe last
  rw [found.2 r (found.1.trans hr)]
  exact Within.finish safe

theorem Twin.node_eq (last : Bool) : d.node last path = e.node last path := by
  rw [Disk.node, Disk.node, (h.find_eq safe last).1]

theorem Twin.isFile_eq : d.isFile path = e.isFile path := by
  rw [Disk.isFile, Disk.isFile, h.node_eq safe]

theorem Twin.isDirectory_eq : d.isDirectory path = e.isDirectory path := by
  rw [Disk.isDirectory, Disk.isDirectory, h.node_eq safe]

theorem Twin.exists_eq : d.exists? path = e.exists? path := by
  rw [Disk.exists?, Disk.exists?, h.node_eq safe]

theorem Twin.isLink_eq : d.isLink path = e.isLink path := by
  rw [Disk.isLink, Disk.isLink, h.node_eq safe]

theorem Twin.placeOf_eq : placeOf? d path = placeOf? e path := by
  rw [placeOf?, placeOf?, (h.find_eq safe true).1]

end Queries

/-! ### Paths that come from a safe one -/

theorem formal_dot (p : Place) : formal p ["."] = p := by
  rw [formal, if_pos rfl]
  rfl

theorem formalPlace_container (here : Place) (path : String) :
    formalPlace here (join (container path) ".") =
      formal (startFrom here path) (parts (parent (bare path))) := by
  have relative := isAbsolute_parent (bare path)
  rw [isAbsolute_bare] at relative
  rw [formalPlace, parts_join_relative not_isAbsolute_dot, parts_dot, formal_append, formal_dot,
    container]
  by_cases empty : parent (bare path) = ""
  · rw [empty] at relative ⊢
    have start : startFrom here path = here := by rw [startFrom, ← relative]; rfl
    have dots : startFrom here (join "." ".") = here := by
      rw [startFrom, (by decide : isAbsolute (join "." ".") = false)]
      rfl
    rw [if_pos rfl, dots, parts_dot, formal_dot, start]
    rfl
  · rw [if_neg empty, startFrom, startFrom, isAbsolute_join_dot empty, relative]

theorem formalPlace_last (here : Place) {path : String} (hne : name (bare path) ≠ "")
    (dots : ¬ (name (bare path) = "." ∨ name (bare path) = "..")) :
    formalPlace here (join (container path) ".") ++ [name (bare path)] = formalPlace here path := by
  rw [not_or] at dots
  rw [formalPlace_container, formalPlace, ← parts_bare path, parts_parent (bare path), parts_name,
    if_neg hne, formal_append]
  generalize formal (startFrom here path) (parts (parent (bare path))) = p
  rw [formal, if_neg dots.1, if_neg dots.2]
  rfl

section Derived

variable {z : Zone} {here : Place} {path : String} (safe : Safe z here path)
include safe

theorem Safe.of_parts {u : String} (hp : parts u <+: parts path)
    (ha : isAbsolute u = isAbsolute path) : Safe z here u := by
  rw [Safe, startFrom, ha]
  exact Within.of_prefix safe hp

theorem Safe.parent : Safe z here (parent path) := by
  refine safe.of_parts ?_ (isAbsolute_parent path)
  rw [parts_parent path]
  exact List.prefix_append _ _

theorem Safe.bare : Safe z here (bare path) :=
  safe.of_parts (by simp [parts_bare]) (isAbsolute_bare path)

theorem Safe.slash (hp : Named path) : Safe z here (path ++ "/") :=
  safe.of_parts (by simp [parts_slash]) (isAbsolute_slash hp)

theorem Safe.join_dot (hne : path ≠ "") : Safe z here (join path ".") := by
  rw [Safe, startFrom, isAbsolute_join_dot hne, parts_join_relative not_isAbsolute_dot, parts_dot]
  exact Within.dot safe

theorem Safe.container : Safe z here (join (container path) ".") := by
  have up := safe.bare.parent
  rw [Files.container]
  by_cases empty : Path.parent (Files.bare path) = ""
  · have relative := isAbsolute_parent (Files.bare path)
    rw [empty] at relative
    rw [if_pos empty]
    have start := Within.start safe
    rw [startFrom, ← isAbsolute_bare, ← relative] at start
    have none : Within z.near here [] := fun ms hm => List.prefix_nil.mp hm ▸ start
    have dot : Safe z here "." := by
      rw [Safe, parts_dot, startFrom, not_isAbsolute_dot]
      exact none.dot
    exact dot.join_dot (by decide)
  · rw [if_neg empty]
    exact up.join_dot empty

end Derived

/-! ### Actions -/

section Changes

variable {z : Zone} {here : Place} {d e : Disk} (h : Twin z here d e) {p : Place}
include h

theorem Twin.put (hp : z.near p) {x : Node} (hx : ∀ target, x ≠ .link target) :
    Twin z here { d with tree := d.tree.put p x } { e with tree := e.tree.put p x } where
  left := h.left
  right := h.right
  tidy := h.tidy.put (z.proper p hp) x
  tidy' := h.tidy'.put (z.proper p hp) x
  agree := by
    intro q hq
    by_cases root : q = []
    · rw [root]
      rfl
    · have same := h.agree q hq
      by_cases here : p = q
      · subst here
        rw [Tree.node?_put_self root, Tree.node?_put_self root]
      · rw [Tree.node?_put_of_ne here, Tree.node?_put_of_ne here, same]
  unlinked := by
    intro q target near
    by_cases here : p = q
    · subst here
      by_cases root : p = []
      · rw [root, Tree.node?_root]
        simp
      · rw [Tree.node?_put_self root]
        exact fun e => hx target (Option.some.inj e)
    · rw [Tree.node?_put_of_ne here]
      exact h.unlinked q target near

theorem Twin.clear : Twin z here { d with tree := d.tree.clear p } { e with tree := e.tree.clear p } where
  left := h.left
  right := h.right
  tidy := h.tidy.clear p
  tidy' := h.tidy'.clear p
  agree := by
    intro q hq
    rw [Tree.node?_clear, Tree.node?_clear, h.agree q hq]
  unlinked := by
    intro q target near
    rw [Tree.node?_clear]
    split
    · simp
    · exact h.unlinked q target near

theorem Twin.remove :
    Twin z here { d with tree := d.tree.remove p } { e with tree := e.tree.remove p } where
  left := h.left
  right := h.right
  tidy := h.tidy.remove p
  tidy' := h.tidy'.remove p
  agree := by
    intro q hq
    by_cases root : q = []
    · rw [root]
      rfl
    · rw [Tree.node?_remove _ root, Tree.node?_remove _ root, h.agree q hq]
  unlinked := by
    intro q target near
    by_cases root : q = []
    · rw [root, Tree.node?_root]
      simp
    · rw [Tree.node?_remove _ root]
      split
      · simp
      · exact h.unlinked q target near

end Changes

section Actions

variable {z : Zone} {here : Place}

theorem parallel_refuse {α : Type} (reason : Reason) (path : String) :
    Parallel (Twin z here) (refuse reason path : Action α) (refuse reason path) :=
  Parallel.throw _

theorem parallel_orRefuse {α β : Type} (path : String) {r : Except Reason α} {f g : α → Action β}
    (h : ∀ a, r = .ok a → Parallel (Twin z here) (f a) (g a)) :
    Parallel (Twin z here) (orRefuse path r >>= f) (orRefuse path r >>= g) := by
  cases r with
  | ok a => exact h a rfl
  | error reason => exact fun _ _ twin => .error _ twin

theorem parallel_put {p : Place} (hp : z.near p) {x : Node} (hx : ∀ target, x ≠ .link target) :
    Parallel (Twin z here) (change (·.put p x)) (change (·.put p x)) :=
  Parallel.modify (fun _ _ h => h.put hp hx)

variable {path : String} (safe : Safe z here path)
include safe

theorem parallel_read : Parallel (Twin z here) (read path) (read path) := by
  refine Parallel.get_bind (fun d e h => ?_)
  rw [(h.find_eq safe true).1]
  refine parallel_orRefuse path (fun r _ => ?_)
  cases r with
  | absent p => exact parallel_refuse _ _
  | node p x =>
    cases x with
    | file content => exact Parallel.pure content
    | directory => exact parallel_refuse _ _
    | link target => exact parallel_refuse _ _

theorem parallel_containerPlace :
    Parallel (Twin z here) (containerPlace path) (containerPlace path) := by
  refine Parallel.get_bind (fun d e h => ?_)
  rw [(h.find_eq safe.container true).1]
  refine parallel_orRefuse path (fun r _ => ?_)
  cases r with
  | absent p => exact parallel_refuse _ _
  | node p x =>
    cases x with
    | directory => exact Parallel.pure p
    | file content => exact parallel_refuse _ _
    | link target => exact parallel_refuse _ _

omit safe in
theorem containerPlace_spec (safe : Safe z here path) {d e d' : Disk} {p : Place}
    (h : Twin z here d e) (hp : containerPlace path d = .ok p d') :
    p = formalPlace here (join (container path) ".") := by
  unfold containerPlace at hp
  rw [bind_ok (get_apply d)] at hp
  cases hr : d.find true (join (container path) ".") with
  | error r =>
    rw [hr] at hp
    cases hp
  | ok r =>
    have place := (h.find_eq safe.container true).2 r hr
    rw [hr] at hp
    cases r with
    | absent q => cases hp
    | node q x =>
      cases x with
      | directory =>
        cases hp
        exact place
      | file content => cases hp
      | link target => cases hp

theorem parallel_makeDirectory : Parallel (Twin z here) (makeDirectory path) (makeDirectory path) := by
  refine Parallel.ite (fun _ => parallel_refuse _ _) (fun _ => ?_)
  refine Parallel.ite (fun _ => parallel_refuse _ _) (fun _ => ?_)
  refine Parallel.ite (fun _ => parallel_refuse _ _) (fun _ => ?_)
  refine Parallel.ite (fun _ => parallel_refuse _ _) (fun named => ?_)
  refine (parallel_containerPlace safe).bind_post
    (fun _ _ _ _ h hp => containerPlace_spec safe h hp) (fun p place => ?_)
  refine Parallel.ite (fun _ => parallel_refuse _ _) (fun dots => ?_)
  refine Parallel.ite (fun _ => parallel_refuse _ _) (fun _ => ?_)
  have near : z.near (p ++ [name (bare path)]) := by
    rw [place, formalPlace_last here named dots]
    exact Within.finish safe
  refine Parallel.get_bind (fun d e h => ?_)
  rw [h.agree _ (z.apart _ near)]
  cases e.tree.node? (p ++ [name (bare path)]) with
  | some x => exact parallel_refuse _ _
  | none => exact parallel_put near (by simp)

theorem parallel_ensureDirectory :
    Parallel (Twin z here) (ensureDirectory path) (ensureDirectory path) := by
  refine (parallel_makeDirectory safe).tryCatch (fun fault => Parallel.get_bind (fun d e h => ?_))
  rw [h.isDirectory_eq safe]
  split
  · exact Parallel.pure _
  · exact Parallel.throw _

theorem parallel_write (content : Bytes) :
    Parallel (Twin z here) (write path content) (write path content) := by
  unfold write
  split
  · exact Parallel.bind (parallel_containerPlace safe) (fun _ => parallel_refuse _ _)
  · refine Parallel.get_bind (fun d e h => ?_)
    rw [(h.find_eq safe true).1]
    refine parallel_orRefuse path (fun r hr => ?_)
    have near := h.near_found safe hr
    cases r with
    | absent p => exact parallel_put near (by simp)
    | node p x =>
      cases x with
      | directory => exact parallel_refuse _ _
      | file old => exact parallel_put near (by simp)
      | link target => exact parallel_put near (by simp)

omit safe in
theorem ends_safe (safe : Safe z here path) : Safe z here (ends path).1 := by
  unfold ends
  split
  · exact safe.parent.parent
  · exact safe.parent

theorem parallel_makeDirectories (fuel : Nat) :
    Parallel (Twin z here) (makeDirectories fuel path) (makeDirectories fuel path) := by
  induction fuel generalizing path with
  | zero => exact parallel_ensureDirectory safe
  | succ fuel ih =>
    rw [makeDirectories_eq]
    refine Parallel.get_bind (fun d e h => ?_)
    rw [h.exists_eq (ends_safe safe)]
    refine Parallel.ite (fun _ => ?_) (fun _ => parallel_ensureDirectory safe)
    refine Parallel.bind ((ih (ends_safe safe)).tryCatch (fun fault => ?_)) (fun _ => ?_)
    · split
      · exact Parallel.pure _
      · exact Parallel.throw _
    · exact Parallel.ite (fun _ => Parallel.pure _) (fun _ => parallel_ensureDirectory safe)

theorem parallel_makePath : Parallel (Twin z here) (makePath path) (makePath path) :=
  parallel_makeDirectories safe _

def copyOver (source target : String) : Action Unit := do
  let content ← read source
  tryCatch (write target content) (fun fault => do
    match fault with
    | .refused .isDirectory _ =>
      if (← get).exists? target then throw fault else throw (.noDirectory target)
    | _ => throw fault)

def copyOnto (d : Disk) (source target : String) : Action Unit :=
  match placeOf? d source, placeOf? d target with
  | some p, some q =>
    if p = q then do
      throw (.sameFile source target)
      copyOver source target
    else copyOver source target
  | _, _ => copyOver source target

omit safe in
theorem copy_eq (source target : String) :
    copy source target = (do
      let d ← get
      copyOnto d source (if d.isDirectory target then join target (name source) else target)) := rfl

theorem parallel_copyOver {target : String} (safe' : Safe z here target) :
    Parallel (Twin z here) (copyOver path target) (copyOver path target) := by
  refine Parallel.bind (parallel_read safe) (fun content => ?_)
  refine (parallel_write safe' content).tryCatch (fun fault => ?_)
  split
  · refine Parallel.get_bind (fun d e h => ?_)
    rw [h.exists_eq safe']
    exact Parallel.ite (fun _ => Parallel.throw _) (fun _ => Parallel.throw _)
  · exact Parallel.throw _

theorem parallel_copyOnto {target : String} (safe' : Safe z here target) {d e : Disk}
    (h : Twin z here d e) :
    Parallel (Twin z here) (copyOnto d path target) (copyOnto e path target) := by
  have copied := parallel_copyOver safe safe'
  rw [copyOnto, copyOnto, h.placeOf_eq safe, h.placeOf_eq safe']
  split
  · exact Parallel.ite (fun _ => Parallel.bind (Parallel.throw _) (fun _ => copied))
      (fun _ => copied)
  · exact copied

theorem parallel_copy {target : String} (safe' : Safe z here target)
    (inside : Safe z here (join target (name path))) :
    Parallel (Twin z here) (copy path target) (copy path target) := by
  rw [copy_eq]
  refine Parallel.get_bind (fun d e h => ?_)
  rw [h.isDirectory_eq safe']
  split
  · exact parallel_copyOnto safe inside h
  · exact parallel_copyOnto safe safe' h

theorem parallel_removeDirectory :
    Parallel (Twin z here) (removeDirectory path) (removeDirectory path) := by
  unfold removeDirectory
  dsimp only
  refine Parallel.ite (fun _ => ?_) (fun _ => Parallel.get_bind (fun d e h => ?_))
  · exact Parallel.ite
      (fun _ => Parallel.bind (parallel_containerPlace safe) (fun _ => parallel_refuse _ _))
      (fun _ => parallel_refuse _ _)
  · rw [(h.find_eq safe false).1]
    refine parallel_orRefuse path (fun r _ => ?_)
    cases r with
    | absent p => exact parallel_refuse _ _
    | node p x =>
      cases x with
      | directory =>
        exact Parallel.ite (fun _ => parallel_refuse _ _) (fun _ => Parallel.modify (fun _ _ h => h.remove))
      | file content => exact parallel_refuse _ _
      | link target => exact parallel_refuse _ _

theorem parallel_removeTree : Parallel (Twin z here) (removeTree path) (removeTree path) := by
  refine Parallel.get_bind (fun d e h => ?_)
  rw [(h.find_eq safe false).1, h.node_eq safe]
  refine parallel_orRefuse path (fun r _ => ?_)
  cases r with
  | absent p => exact parallel_refuse _ _
  | node p x =>
    cases x with
    | file content => exact parallel_refuse _ _
    | link target => exact parallel_orRefuse path (fun _ _ => Parallel.throw _)
    | directory =>
      exact Parallel.bind (Parallel.modify (fun _ _ h => h.clear)) (fun _ => parallel_removeDirectory safe)

end Actions

/-! ### Directories that are near with all below them -/

theorem list_proper {d : Disk} (tidy : d.tree.Tidy) {path n : String}
    (hn : n ∈ (d.list path).1 ∨ n ∈ (d.list path).2) : Proper n := by
  have member : ∃ q, n ∈ d.tree.names q := by
    rw [Disk.list] at hn
    split at hn
    · next q _ =>
      refine ⟨q, ?_⟩
      rw [List.partition_eq_filter_filter] at hn
      rcases hn with hn | hn
      · exact List.mem_of_mem_filter hn
      · exact List.mem_of_mem_filter hn
    · rcases hn with hn | hn <;> cases hn
  obtain ⟨q, hq⟩ := member
  obtain ⟨x, hx⟩ := (Tree.mem_names _ _ _).mp hq
  exact (tidy.proper _ x hx).last

/-- A path to a place that is near, as are the way to it and all places below it. -/
structure Ground (z : Zone) (here : Place) (s : String) (p : Place) : Prop where
  named : Named s
  place : formalPlace here s = p
  safe : Safe z here s
  below : ∀ ns, AllProper ns → z.near (p ++ ns)

theorem exists_ground {z : Zone} {here : Place} (proper : AllProper here) {s : String}
    (noNul : '\x00' ∉ s.toList) (hne : formalPlace here s ≠ [])
    (near : ∀ q, AllProper q → q <+: formalPlace here s ∨ formalPlace here s <+: q → z.near q) :
    ∃ top, (∀ d : Disk, d.here = here → d.absolute s = top) ∧ Ground z here top (formalPlace here s) := by
  have names := allProper_formalPlace proper noNul
  obtain ⟨r, hr, absolute⟩ := absolute_eq (d := ⟨.empty, here⟩) proper noNul
  refine ⟨extend r (formalPlace here s), fun d hd => by subst hd; exact absolute,
    { named := named_extend names hne, place := ?_, safe := ?_, below := ?_ }⟩
  · rw [formalPlace_extend _ _ names, formalPlace, startFrom, if_pos hr.isAbsolute, hr.parts]
    rfl
  · rw [Safe, startFrom, isAbsolute_extend names, if_pos hr.isAbsolute, parts_extend names, hr.parts]
    intro ms hm
    have front : AllProper ms := fun n hn => names n (hm.subset hn)
    rw [formal_names front]
    exact near ms front (Or.inl hm)
  · exact fun ns hns => near _ (names.append hns) (Or.inr (List.prefix_append _ ns))

section Ground

variable {z : Zone} {here : Place} {s : String} {p : Place} (h : Ground z here s p)
include h

theorem Ground.safe_extend {ns : List String} (hns : AllProper ns) : Safe z here (extend s ns) := by
  rw [Safe, startFrom, isAbsolute_extend hns, parts_extend hns]
  intro ms hm
  rcases List.prefix_or_prefix_of_prefix hm (List.prefix_append (parts s) ns) with hp | hp
  · exact h.safe ms hp
  · obtain ⟨ks, rfl⟩ := hp
    have proper : AllProper ks := by
      obtain ⟨rest, e⟩ := (List.prefix_append_right_inj (parts s)).mp hm
      exact (e ▸ hns).left
    have place := h.place
    rw [formalPlace] at place
    have below := h.below ks proper
    rwa [← place, ← formal_names proper, ← formal_append] at below

theorem Ground.place_extend {ns : List String} (hns : AllProper ns) :
    formalPlace here (extend s ns) = p ++ ns := by
  rw [formalPlace_extend here s hns, h.place]

variable {d e : Disk} (twin : Twin z here d e) {ns : List String} (hns : AllProper ns)
include twin hns

theorem Ground.names_eq : d.tree.names (p ++ ns) = e.tree.names (p ++ ns) := by
  apply Tree.names_congr twin.tidy.nodup twin.tidy'.nodup
  intro n
  by_cases hn : Proper n
  · have near := h.below (ns ++ [n]) (hns.concat hn)
    rw [← List.append_assoc] at near
    exact twin.agree _ (z.apart _ near)
  · -- nothing has a name that is not proper
    have left : d.tree.node? (p ++ ns ++ [n]) = none := by
      cases hx : d.tree.node? (p ++ ns ++ [n]) with
      | none => rfl
      | some x => exact absurd (twin.tidy.proper _ x hx).last hn
    have right : e.tree.node? (p ++ ns ++ [n]) = none := by
      cases hx : e.tree.node? (p ++ ns ++ [n]) with
      | none => rfl
      | some x => exact absurd (twin.tidy'.proper _ x hx).last hn
    rw [left, right]

theorem Ground.list_eq : d.list (extend s ns) = e.list (extend s ns) := by
  have found := twin.find_eq (h.safe_extend hns) true
  refine list_congr found.1 (fun q there => ?_)
  have place := found.2 _ (found.1.trans there)
  rw [h.place_extend hns] at place
  change q = _ at place
  subst place
  refine ⟨h.names_eq twin hns, fun n hn => ?_⟩
  obtain ⟨x, hx⟩ := (Tree.mem_names _ _ _).mp hn
  have proper := hns.concat (twin.tidy'.proper _ x hx).last
  have near := h.below _ proper
  have safe := h.safe_extend proper
  rw [← List.append_assoc] at near
  rw [extend_concat] at safe
  simp only [Disk.countsAsDirectory, twin.agree _ (z.apart _ near), twin.isDirectory_eq safe]

end Ground

end SqlMigration.Files
