import Mathlib.Data.List.Infix
import SqlMigration.Proofs.Files.Setting

/-!
# Paths that stay inside a directory

A path may go on from a directory by steps that come to no other places than
those at or below it, or on the way to it. Where there are no links, all that is
made or written along it is in the directory, apart from what is missing on the
way there.
-/

set_option autoImplicit false

namespace SqlMigration.Files

open SqlMigration.Path Effect

/-! ### Steps that stay inside -/

/-- The places on the way to a place along some steps, and those at or below it. -/
def Near (top : Place) (ns : List String) (r : Place) : Prop :=
  (∃ ks, ks <+: ns ∧ r = formal top ks) ∨ formal top ns <+: r

instance (top : Place) (ns : List String) (r : Place) : Decidable (Near top ns r) :=
  decidable_of_iff ((∃ ks ∈ ns.inits, r = formal top ks) ∨ formal top ns <+: r)
    (by simp only [List.mem_inits, Near])

/-- Steps that go on from there come to such places only, and end at or below it. -/
structure Inward (top : Place) (ns ks : List String) : Prop where
  near : Within (Near top ns) top (ns ++ ks)
  below : formal top ns <+: formal top (ns ++ ks)

instance (top : Place) (ns ks : List String) : Decidable (Inward top ns ks) :=
  decidable_of_iff ((∀ ms ∈ (ns ++ ks).inits, Near top ns (formal top ms)) ∧
      formal top ns <+: formal top (ns ++ ks))
    ⟨fun h => ⟨fun ms hm => h.1 ms ((List.mem_inits _ _).mpr hm), h.2⟩,
      fun h => ⟨fun ms hm => h.near ms ((List.mem_inits _ _).mp hm), h.below⟩⟩

theorem Inward.concat {top : Place} {ns ks : List String} (h : Inward top ns ks) {n : String}
    (hn : n ≠ "..") : Inward top ns (ks ++ [n]) := by
  have further : formal top ns <+: formal top (ns ++ (ks ++ [n])) := by
    have down : ".." ∉ [n] := by simpa using hn.symm
    rw [← List.append_assoc, formal_append, formal_eq_append down]
    exact h.below.trans (List.prefix_append _ _)
  refine ⟨fun ms hm => ?_, further⟩
  rw [← List.append_assoc] at hm
  rcases List.prefix_concat_iff.mp hm with rfl | hm
  · exact Or.inr (List.append_assoc ns ks [n] ▸ further)
  · exact h.near ms hm

/-! ### Paths to a directory without links -/

/-- A path leads to a directory, through links if need be, and goes on from there past none, to a place at
or below which there are none either. -/
structure Aims (d : Disk) (path : String) (top : Place) (ns : List String) : Prop where
  way : ∃ ms j, parts path = ms ++ ns ∧ Way d.tree linkLimit (startFrom d.here path) ms j top
  plain : ∀ r, Near top ns r → ∀ target, d.tree.node? r ≠ some (.link target)

/-- The second disk has all that the first one has. It has more or other content only at or below the place
of the path, apart from directories that were missing on the way. -/
structure Settled (d e : Disk) (top : Place) (ns : List String) : Prop where
  genuine : e.Genuine
  kept : Kept d e
  plain : ∀ r, Near top ns r → ∀ target, e.tree.node? r ≠ some (.link target)
  changed : ∀ r, e.tree.node? r ≠ d.tree.node? r → formal top ns <+: r ∨
    (∃ ks, ks <+: ns ∧ r = formal top ks) ∧ d.tree.node? r = none ∧ e.tree.node? r = some .directory

theorem Aims.settled {d : Disk} {path : String} {top : Place} {ns : List String}
    (h : Aims d path top ns) (hd : d.Genuine) : Settled d d top ns where
  genuine := hd
  kept := Kept.refl d
  plain := h.plain
  changed _ differ := absurd rfl differ

theorem Settled.set {d e : Disk} {top : Place} {ns : List String} (h : Settled d e top ns) {r : Place}
    {x : Node} (spot : Spot e.tree r x) (place : formal top ns <+: r ∨
      (∃ ks, ks <+: ns ∧ r = formal top ks) ∧ e.tree.node? r = none ∧ x = .directory) :
    Settled d (e.set r x) top ns where
  genuine := spot.genuine h.genuine
  kept := h.kept.set spot
  plain := by
    intro q near target
    rw [spot.node?_set]
    split
    · exact fun same => spot.plain target (Option.some.inj same)
    · exact h.plain q near target
  changed := by
    intro q differ
    rw [spot.node?_set] at differ ⊢
    by_cases e' : r = q
    · subst e'
      rw [if_pos rfl]
      refine place.imp id (fun ⟨on, absent, kind⟩ => ⟨on, ?_, congrArg some kind⟩)
      -- what was there at first would still be there
      by_contra there
      obtain ⟨y, hy⟩ := Option.ne_none_iff_exists'.mp there
      rcases h.kept.nodes r y hy with same | ⟨_, _, _, same⟩ <;> rw [absent] at same <;> cases same
    · rw [if_neg e'] at differ ⊢
      exact h.changed q differ

theorem Fresh.way {d : Disk} {u : String} {p : Place} (h : Fresh d u p) :
    parts u = parts (parent (bare u)) ++ [name (bare u)] ∧
      ∃ i, Way d.tree linkLimit (startFrom d.here u) (parts (parent (bare u))) i p := by
  have start : isAbsolute (parent (bare u)) = isAbsolute u := by rw [isAbsolute_parent, isAbsolute_bare]
  refine ⟨by rw [← parts_bare, parts_parent, h.proper.parts], ?_⟩
  have leads := leads_of_find h.found
  rw [container] at leads
  by_cases empty : parent (bare u) = ""
  · rw [if_pos empty] at leads
    obtain ⟨j, way⟩ := leads.of_dot (by decide)
    rw [empty] at start ⊢
    rw [startFrom, ← start]
    have last : Way d.tree linkLimit d.here ([] ++ ["."]) j p := way
    exact last.of_dot
  · rw [if_neg empty] at leads
    obtain ⟨j, way⟩ := leads.of_dot empty
    rw [startFrom, start] at way
    exact ⟨j, way⟩

section Settled

variable {d e : Disk} {path : String} {top : Place} {ms ns : List String} {j : Nat}
  (h : Settled d e top ns) (way : Way d.tree linkLimit (startFrom d.here path) ms j top) {u : String}
  (start : isAbsolute u = isAbsolute path)
include h way start

theorem Settled.way_stays : Way e.tree linkLimit (startFrom e.here u) ms j top := by
  rw [startFrom, start, h.kept.here]
  refine way.stays (fun r x hx plain => ?_)
  rcases h.kept.nodes r x hx with same | ⟨old, _, rfl, _⟩
  · exact same
  · exact absurd rfl (plain old)

variable {ls : List String} (near : Within (Near top ns) top ls)
include near

theorem Settled.follow_place {r : Found}
    (found : follow e.tree true linkLimit (startFrom e.here u) (ms ++ ls) = .ok r) :
    r.place = formal top ls := by
  rw [(h.way_stays way start).follow_append (Or.inl rfl)] at found
  exact (finds_of_follow found).place_eq (fun ks hk => h.plain _ (near ks hk))

variable (text : parts u = ms ++ ls)
include text

theorem Settled.find_place {r : Found} (found : e.find true u = .ok r) : r.place = formal top ls := by
  rw [Disk.find] at found
  split_ifs at found
  unfold steps at found
  split at found
  · rw [text, List.append_assoc] at found
    rw [h.follow_place way start near.dot found, formal_append, formal_dot]
  · rw [text] at found
    exact h.follow_place way start near found

theorem Settled.fresh_place {p : Place} (fresh : Fresh e u p) :
    p ++ [name (bare u)] = formal top ls := by
  obtain ⟨parts_eq, i, above⟩ := fresh.way
  rcases List.eq_nil_or_concat ls with rfl | ⟨front, n, rfl⟩
  · rw [List.append_nil] at text
    have leads : Leads e u top := ⟨j, text ▸ h.way_stays way start⟩
    exact absurd fresh leads.not_fresh
  · rw [List.concat_eq_append] at *
    rw [text, ← List.append_assoc] at parts_eq
    obtain ⟨upper, last⟩ := List.append_inj' parts_eq (by simp)
    obtain rfl := List.singleton_inj.mp last
    have found := above.follow_eq
    rw [← upper] at found
    have place := h.follow_place way start (near.of_prefix (List.prefix_append _ _)) found
    change p = formal top front at place
    rw [formal_append, ← place, formal_names fresh.proper.single]

end Settled

/-- A path that starts as another one does, and goes on from it inward. -/
def Continues (path : String) (top : Place) (ns : List String) (u : String) : Prop :=
  isAbsolute u = isAbsolute path ∧ ∃ ks, Inward top ns ks ∧ parts u <+: parts path ++ ks

theorem Continues.above {path : String} {top : Place} {ns : List String} {u : String}
    (h : Continues path top ns u) : Continues path top ns (ends u).1 := by
  obtain ⟨start, ks, inward, text⟩ := h
  rw [ends_eq_split]
  change Continues path top ns (parent (bare u))
  refine ⟨by rw [isAbsolute_parent, isAbsolute_bare, start], ks, inward, ?_⟩
  refine List.IsPrefix.trans ?_ text
  rw [← parts_bare u, parts_parent (bare u)]
  exact List.prefix_append _ _

section Aims

variable {d e : Disk} {path : String} {top : Place} {ns : List String} (aims : Aims d path top ns)
  (h : Settled d e top ns) {u : String}
include aims h

theorem Settled.made {p : Place} (hu : Continues path top ns u) (fresh : Fresh e u p) :
    Settled d (made e u p) top ns := by
  obtain ⟨ms, j, whole, way⟩ := aims.way
  obtain ⟨start, ks, inward, text⟩ := hu
  rw [whole, List.append_assoc] at text
  -- a path that ends on the way to `top` leads to a directory that is there, and none is made
  rcases List.prefix_or_prefix_of_prefix text (List.prefix_append ms (ns ++ ks)) with on | ⟨ls, beyond⟩
  · obtain ⟨rest, split⟩ := on
    have through := h.way_stays way start
    rw [← split] at through
    obtain ⟨i, q, first, _⟩ := through.split_append
    have leads : Leads e u q := ⟨i, first⟩
    exact absurd fresh leads.not_fresh
  · rw [← beyond, List.prefix_append_right_inj] at text
    have near := inward.near.of_prefix text
    have place := h.fresh_place way start near beyond.symm fresh
    have spot := (Sets.directory fresh).spot h.genuine
    refine h.set spot ?_
    rw [place]
    rcases near.finish with on | below
    · exact Or.inr ⟨on, place ▸ fresh.absent, rfl⟩
    · exact Or.inl below

theorem Settled.inside (start : isAbsolute u = isAbsolute path) {ks : List String}
    (inward : Inward top ns ks) (text : parts u = parts path ++ ks) {f : Found}
    (found : e.find true u = .ok f) : formal top ns <+: f.place := by
  obtain ⟨ms, j, whole, way⟩ := aims.way
  rw [whole, List.append_assoc] at text
  rw [h.find_place way start inward.near text found]
  exact inward.below

end Aims

theorem Finds.directory_of_up {t : Tree} {last : Bool} {k : Nat} {p : Place} {ns : List String} {r : Found}
    (h : Finds t last k p ns r) (up : ns.getLast? = some "..") : ∃ q, r = .node q .directory := by
  induction h with
  | done _ _ => simp at up
  | @dot _ _ ns _ _ ih =>
    cases ns with
    | nil => simp at up
    | cons m ms => exact ih (by simpa using up)
  | @up _ _ ns _ more ih =>
    cases ns with
    | nil =>
      cases more
      exact ⟨_, rfl⟩
    | cons m ms => exact ih (by simpa using up)
  | absent name _ | file name _ | stop name _ _ => exact absurd (by simpa using up) name.notParent
  | @enter _ _ _ ns _ name _ _ ih =>
    cases ns with
    | nil => exact absurd (by simpa using up) name.notParent
    | cons m ms => exact ih (by simpa using up)
  | @link _ _ _ target ns _ name _ _ _ ih =>
    cases ns with
    | nil => exact absurd (by simpa using up) name.notParent
    | cons m ms => exact ih (by rw [List.getLast?_append_of_ne_nil _ (by simp)]; simpa using up)

theorem find_up {d : Disk} {dir : String} {f : Found} (found : d.find true (join dir "..") = .ok f) :
    ∃ q, f = .node q .directory := by
  have relative : isAbsolute ".." = false := by decide
  have slash : endsWithSlash (join dir "..") = false := by simp [endsWithSlash, toList_join relative]
  have last : parts ".." = [".."] := by decide
  rw [Disk.find] at found
  split_ifs at found
  rw [steps, slash, if_neg Bool.false_ne_true, parts_join_relative relative, last] at found
  exact (finds_of_follow found).directory_of_up (by simp)

end SqlMigration.Files
