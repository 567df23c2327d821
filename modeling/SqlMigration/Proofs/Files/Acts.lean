import SqlMigration.Files.Action
import SqlMigration.Proofs.Effect
import SqlMigration.Proofs.Files.Lookup

/-!
# What the actions on a disk do

Each action is described by the tree that it leaves: reading leaves it as it is,
writing puts a file at a place, making a path opens the directories on the way.
-/

set_option autoImplicit false

namespace SqlMigration.Files

open SqlMigration.Path Effect

theorem read_eq {d : Disk} {path : String} {p : Place} {content : Bytes}
    (h : d.find true path = .ok (.node p (.file content))) : read path d = .ok content d := by
  unfold read
  rw [bind_ok (get_apply d), h]
  rfl

theorem write_absent {d : Disk} {path : String} {p : Place} (content : Bytes)
    (hs : endsWithSlash path = false) (h : d.find true path = .ok (.absent p)) :
    write path content d = .ok () { d with tree := d.tree.put p (.file content) } := by
  unfold write
  rw [hs, if_neg (by simp), bind_ok (get_apply d), h]
  rfl

/-! ### Paths with a slash at the end -/

theorem bare_named {s : String} (h : Named s) : bare s = s := by
  have hne : s.toList ≠ [] := mt String.toList_eq_nil_iff.mp h.nonempty
  obtain ⟨front, c, hc⟩ := List.eq_nil_or_concat s.toList |>.resolve_left hne
  rw [List.concat_eq_append] at hc
  have hslash : isSlash c = false := by
    have := h.noFinalSlash
    simpa [endsWithSlash, hc, isSlash] using this
  have mixed : (front ++ [c]).all isSlash = false := by simp [hslash]
  rw [bare, trimSlashes, hc, if_neg (by simp [hslash]), List.reverse_append]
  change String.ofList (List.dropWhile isSlash (c :: front.reverse)).reverse = s
  rw [List.dropWhile_cons_of_neg (by simp [hslash]), List.reverse_cons, List.reverse_reverse, ← hc,
    String.ofList_toList]

theorem parts_bare (s : String) : parts (bare s) = parts s := by
  obtain ⟨slashes, whole, all, _⟩ := trimSlashes_spec s.toList
  change partsOf _ = partsOf _
  rw [bare, String.toList_ofList]
  cases slashes with
  | nil => rw [List.append_nil] at whole; rw [← whole]
  | cons c cs =>
    have slash := all c List.mem_cons_self
    have rest : partsOf cs = [] := partsOf_slashes (fun a ha => all a (List.mem_cons_of_mem _ ha))
    rw [slash] at whole
    conv_rhs => rw [whole, partsOf_slash, rest, List.append_nil]

theorem isAbsolute_bare (s : String) : isAbsolute (bare s) = isAbsolute s := by
  obtain ⟨slashes, whole, _, kind⟩ := trimSlashes_spec s.toList
  rw [isAbsolute, isAbsolute, bare, String.toList_ofList]
  by_cases hne : trimSlashes s.toList = []
  · have none : slashes = [] := by
      rcases kind with ⟨_, none⟩ | ⟨_, ne⟩
      · exact none
      · exact absurd hne ne
    rw [none, List.append_nil] at whole
    rw [← whole]
  · conv_rhs => rw [whole, List.head?_append_of_ne_nil _ hne]

theorem bare_bare (s : String) : bare (bare s) = bare s := by
  obtain ⟨_, _, _, kind⟩ := trimSlashes_spec s.toList
  rcases kind with ⟨all, _⟩ | ⟨last, ne⟩
  · rw [bare, bare, String.toList_ofList, trimSlashes, if_pos all]
  · refine bare_named ⟨?_, ?_⟩
    · intro e
      rw [bare, ← String.toList_eq_nil_iff, String.toList_ofList] at e
      exact ne e
    · rw [endsWithSlash, bare, String.toList_ofList]
      simpa using last

theorem bare_ne_empty {s : String} (h : s ≠ "") : bare s ≠ "" := by
  intro e
  obtain ⟨slashes, whole, _, kind⟩ := trimSlashes_spec s.toList
  have none : trimSlashes s.toList = [] := by
    rw [bare, ← String.toList_eq_nil_iff, String.toList_ofList] at e
    exact e
  rcases kind with ⟨_, rest⟩ | ⟨_, ne⟩
  · rw [none, rest] at whole
    exact h (String.toList_eq_nil_iff.mp whole)
  · exact ne none

theorem mem_of_mem_bare {s : String} {c : Char} (h : c ∈ (bare s).toList) : c ∈ s.toList := by
  obtain ⟨slashes, whole, _⟩ := trimSlashes_spec s.toList
  rw [bare, String.toList_ofList] at h
  rw [whole]
  exact List.mem_append_left _ h

theorem byteLength_bare_le (s : String) : byteLength (bare s) ≤ byteLength s := by
  obtain ⟨slashes, whole, _⟩ := trimSlashes_spec s.toList
  rw [byteLength, byteLength, bare, String.toList_ofList]
  conv_rhs => rw [whole]
  simp [Utf8.encode]

theorem byteLength_parent_le (s : String) : byteLength (parent s) ≤ byteLength s := by
  obtain ⟨front, whole, _, _, chars⟩ := split_spec s
  obtain ⟨slashes, trimmed, _⟩ := trimSlashes_spec front
  rw [byteLength, byteLength]
  conv_rhs => rw [whole, trimmed, ← chars]
  simp only [Utf8.encode, List.flatMap_append, List.length_append]
  omega

theorem Leads.bare {d : Disk} {s : String} {p : Place} (h : Leads d s p) : Leads d (bare s) p := by
  rwa [Leads, startFrom, isAbsolute_bare, parts_bare]

theorem split_join_bare {s n : String} (hn : Proper n) : split (join s n) = (bare s, n) := by
  have front : s.toList ++ gap s = [] ∨ (s.toList ++ gap s).getLast? = some '/' := by
    rcases gap_eq_nil_or s with ⟨hg, h⟩ | ⟨hg, -, -⟩
    · simpa [hg] using h
    · simp [hg]
  have trim : trimSlashes (s.toList ++ gap s) = trimSlashes s.toList := by
    rcases gap_eq_nil_or s with ⟨hg, -⟩ | ⟨hg, hne, last⟩
    · rw [hg, List.append_nil]
    · have named : Named s := ⟨mt String.toList_eq_nil_iff.mpr hne, by simpa [endsWithSlash] using last⟩
      rw [named.trimmed.trimSlashes, ← String.toList_ofList (l := trimSlashes s.toList)]
      exact congrArg String.toList (bare_named named).symm
  have name := nameChars_append hn.noSlash front
  simp only [split, toList_join hn.not_isAbsolute, name]
  rw [List.length_append, Nat.add_sub_cancel, List.take_left, trim, String.ofList_toList]
  rfl

theorem toList_slash (s : String) : (s ++ "/").toList = s.toList ++ ['/'] := by
  rw [String.toList_append]
  rfl

theorem trimSlashes_slash {s : String} (h : Named s) : trimSlashes (s ++ "/").toList = s.toList := by
  have := h.trimmed.trimSlashes
  rwa [h.gap_eq, ← toList_slash] at this

theorem bare_slash {s : String} (h : Named s) : bare (s ++ "/") = s := by
  rw [bare, trimSlashes_slash h, String.ofList_toList]

theorem split_slash {s : String} (h : Named s) : split (s ++ "/") = (s, "") := by
  have empty : nameChars (s ++ "/").toList = [] := by
    have last : (s.toList ++ ['/']).getLast? = some '/' := by simp
    have key := nameChars_append List.not_mem_nil (Or.inr last)
    rwa [List.append_nil, ← toList_slash] at key
  simp only [split, empty, List.length_nil, Nat.sub_zero, List.take_length]
  rw [trimSlashes_slash h, String.ofList_toList]

theorem parts_slash (s : String) : parts (s ++ "/") = parts s := by
  change partsOf _ = partsOf _
  rw [toList_slash, partsOf_slash, partsOf_nil, List.append_nil]

theorem isAbsolute_slash {s : String} (h : Named s) : isAbsolute (s ++ "/") = isAbsolute s := by
  have hne : s.toList ≠ [] := mt String.toList_eq_nil_iff.mp h.nonempty
  rw [isAbsolute, isAbsolute, toList_slash, List.head?_append_of_ne_nil _ hne]

theorem Leads.slash {d : Disk} {s : String} {p : Place} (h : Leads d s p) (hs : Named s) :
    Leads d (s ++ "/") p := by
  rwa [Leads, parts_slash, startFrom, isAbsolute_slash hs]

/-- A path as it is, or with a slash at its end. -/
def Spells (u s : String) : Prop := u = s ∨ u = s ++ "/"

section Spells

variable {u s : String} (h : Spells u s) (hs : Named s)
include h hs

theorem Spells.bare_eq : bare u = s := by
  rcases h with rfl | rfl
  · exact bare_named hs
  · exact bare_slash hs

theorem Spells.ne_empty : u ≠ "" := by
  rcases h with rfl | rfl
  · exact hs.nonempty
  · intro e
    have := congrArg String.toList e
    rw [toList_slash] at this
    simp at this

theorem Spells.leads {d : Disk} {p : Place} (hl : Leads d s p) : Leads d u p := by
  rcases h with rfl | rfl
  · exact hl
  · exact hl.slash hs

omit hs in
theorem Spells.byteLength_le : byteLength s ≤ byteLength u := by
  rcases h with rfl | rfl
  · exact Nat.le_refl _
  · rw [byteLength_append]
    exact Nat.le_add_right _ _

omit hs in
theorem Spells.noNul (hn : '\x00' ∉ u.toList) : '\x00' ∉ s.toList := by
  rcases h with rfl | rfl
  · exact hn
  · rw [toList_slash] at hn
    exact fun hm => hn (List.mem_append_left _ hm)

omit hs in
theorem Spells.parts_eq : parts u = parts s := by
  rcases h with rfl | rfl
  · rfl
  · exact parts_slash s

omit hs in
theorem Spells.fits (hf : Fits u) : Fits s :=
  ⟨h.noNul hf.noNul, Nat.lt_of_le_of_lt h.byteLength_le hf.short, h.parts_eq ▸ hf.shortNames⟩

end Spells

/-! ### The directory that holds the last part -/

theorem not_isAbsolute_dot : isAbsolute "." = false := by decide

theorem parts_dot : parts "." = ["."] := by decide

theorem isAbsolute_join_dot {s : String} (hs : s ≠ "") : isAbsolute (join s ".") = isAbsolute s := by
  simp only [isAbsolute, toList_join not_isAbsolute_dot, List.append_assoc]
  rw [List.head?_append_of_ne_nil _ (mt String.toList_eq_nil_iff.mp hs)]

theorem Leads.dot {d : Disk} {s : String} {p : Place} (h : Leads d s p) (hs : s ≠ "") :
    Leads d (join s ".") p := by
  obtain ⟨j, hj⟩ := h
  refine ⟨j, ?_⟩
  rw [startFrom, isAbsolute_join_dot hs, parts_join_relative not_isAbsolute_dot]
  exact hj.append (.dot (.done j p))

theorem Fits.container {u : String} (hf : Fits u) (hne : name (bare u) ≠ "") :
    Fits (join (container u) ".") := by
  rw [Files.container]
  by_cases empty : parent (bare u) = ""
  · rw [if_pos empty]
    decide
  rw [if_neg empty]
  obtain ⟨front, whole, noSlash, last, chars⟩ := split_spec (bare u)
  obtain ⟨slashes, trimmed, all, kind⟩ := trimSlashes_spec front
  rw [← chars] at trimmed kind
  refine ⟨?_, ?_, ?_⟩
  · have gap : '\x00' ∉ gap (parent (bare u)) := by
      unfold gap
      split <;> simp
    have clean : '\x00' ∉ (parent (bare u)).toList := fun h =>
      hf.noNul (mem_of_mem_bare (mem_of_mem_parent h))
    rw [toList_join not_isAbsolute_dot]
    simp [clean, gap]
  · -- the slash before the dot and the dot take no more room than what they stand for
    have size : byteLength (bare u) =
        byteLength (parent (bare u)) + slashes.length + byteLength (name (bare u)) := by
      have one : (Utf8.encode slashes).length = slashes.length := by
        have same : slashes = List.replicate slashes.length '/' := List.eq_replicate_iff.mpr ⟨rfl, all⟩
        rw [same]
        simp [Utf8.encode, show '/'.utf8Size = 1 from rfl]
      simp only [byteLength, Utf8.encode] at one ⊢
      conv_lhs => rw [whole, trimmed]
      simp only [List.flatMap_append, List.length_append, one]
    have pos : 0 < byteLength (name (bare u)) := byteLength_pos hne
    have gap : (gap (parent (bare u))).length ≤ slashes.length := by
      rcases gap_eq_nil_or (parent (bare u)) with ⟨hg, -⟩ | ⟨hg, hne', notSlash⟩
      · rw [hg]
        exact Nat.zero_le _
      · rw [hg]
        refine List.length_pos_of_ne_nil (fun none => ?_)
        rw [none, List.append_nil] at trimmed
        rw [trimmed] at last
        exact last.elim hne' notSlash
    have dotted := byteLength_join (s := parent (bare u)) not_isAbsolute_dot
    have one : byteLength "." = 1 := by decide
    have := byteLength_bare_le u
    have := hf.short
    omega
  · intro m hm
    rw [parts_join_relative not_isAbsolute_dot, parts_dot] at hm
    rcases List.mem_append.mp hm with hm | hm
    · refine hf.shortNames m ?_
      rw [← parts_bare, parts_parent]
      exact List.mem_append_left _ hm
    · rw [List.mem_singleton] at hm
      subst hm
      decide

theorem Leads.container_leads {d : Disk} {u : String} {p : Place}
    (h : Leads d (parent (Files.bare u)) p) : Leads d (join (container u) ".") p := by
  rw [Files.container]
  by_cases empty : parent (Files.bare u) = ""
  · rw [empty] at h
    rw [if_pos empty]
    obtain ⟨j, hj⟩ := h
    exact ⟨j, .dot (.dot hj)⟩
  · rw [if_neg empty]
    exact h.dot empty

theorem Leads.container {d : Disk} {u : String} {p : Place} (h : Leads d (parent (Files.bare u)) p)
    (hne : name (Files.bare u) ≠ "") (hf : Fits u) :
    d.find true (join (container u) ".") = .ok (.node p .directory) := by
  refine h.container_leads.find ?_ (hf.container hne)
  intro e
  have := congrArg String.toList e
  rw [toList_join not_isAbsolute_dot] at this
  simp at this

theorem containerPlace_eq {d : Disk} {u : String} {p : Place}
    (h : d.find true (join (container u) ".") = .ok (.node p .directory)) :
    containerPlace u d = .ok p d := by
  unfold containerPlace
  rw [bind_ok (get_apply d), h]
  rfl

/-- A directory with the last part of the path as its name can be made in the directory at `p`. -/
structure Fresh (d : Disk) (u : String) (p : Place) : Prop where
  noNul : '\x00' ∉ u.toList
  short : byteLength u < pathLimit
  proper : Proper (name (bare u))
  shortName : byteLength (name (bare u)) ≤ nameLimit
  found : d.find true (join (container u) ".") = .ok (.node p .directory)
  absent : d.tree.node? (p ++ [name (bare u)]) = none

def made (d : Disk) (u : String) (p : Place) : Disk :=
  { d with tree := d.tree.put (p ++ [name (bare u)]) .directory }

theorem makeDirectory_cases (u : String) (d : Disk) :
    (∃ f, makeDirectory u d = .error f d ∧ ∀ p, ¬ Fresh d u p) ∨
      ∃ p, Fresh d u p ∧ makeDirectory u d = .ok () (made d u p) := by
  unfold makeDirectory
  by_cases nul : '\x00' ∈ u.toList
  · rw [if_pos nul]
    exact Or.inl ⟨_, rfl, fun _ h => h.noNul nul⟩
  by_cases empty : u = ""
  · rw [if_neg nul, if_pos empty]
    refine Or.inl ⟨_, rfl, fun _ h => h.proper.nonempty ?_⟩
    rw [empty]
    decide
  by_cases long : pathLimit ≤ byteLength u
  · rw [if_neg nul, if_neg empty, if_pos long]
    exact Or.inl ⟨_, rfl, fun _ h => Nat.not_lt.mpr long h.short⟩
  rw [if_neg nul, if_neg empty, if_neg long]
  by_cases last : name (bare u) = ""
  · rw [if_pos last]
    exact Or.inl ⟨_, rfl, fun _ h => h.proper.nonempty last⟩
  rw [if_neg last]
  by_cases there : ∃ p, d.find true (join (container u) ".") = .ok (.node p .directory)
  · obtain ⟨p, found⟩ := there
    rw [bind_ok (containerPlace_eq found)]
    have same : ∀ {q}, Fresh d u q → q = p := by
      intro q h
      have := h.found.symm.trans found
      cases this
      rfl
    by_cases dots : name (bare u) = "." ∨ name (bare u) = ".."
    · rw [if_pos dots]
      exact Or.inl ⟨_, rfl, fun _ h => dots.elim h.proper.notDot h.proper.notParent⟩
    by_cases longName : nameLimit < byteLength (name (bare u))
    · rw [if_neg dots, if_pos longName]
      exact Or.inl ⟨_, rfl, fun _ h => Nat.not_lt.mpr h.shortName longName⟩
    rw [if_neg dots, if_neg longName, bind_ok (get_apply d)]
    cases hx : d.tree.node? (p ++ [name (bare u)]) with
    | some x =>
      refine Or.inl ⟨_, rfl, fun q h => ?_⟩
      have absent := h.absent
      rw [same h, hx] at absent
      cases absent
    | none =>
      rw [not_or] at dots
      have noSlash : '/' ∉ (name (bare u)).toList := (split_spec (bare u)).choose_spec.2.1
      have clean : '\x00' ∉ (name (bare u)).toList := fun h => nul (mem_of_mem_bare (mem_of_mem_name h))
      exact Or.inr ⟨p, ⟨nul, Nat.not_le.mp long, ⟨last, noSlash, clean, dots.1, dots.2⟩,
        Nat.not_lt.mp longName, found, hx⟩, rfl⟩
  · have unplaced : ∃ f, containerPlace u d = .error f d := by
      unfold containerPlace
      rw [bind_ok (get_apply d)]
      cases hr : d.find true (join (container u) ".") with
      | error r => exact ⟨_, rfl⟩
      | ok r =>
        cases r with
        | absent q => exact ⟨_, rfl⟩
        | node q x =>
          cases x with
          | directory => exact absurd ⟨q, hr⟩ there
          | file content => exact ⟨_, rfl⟩
          | link target => exact ⟨_, rfl⟩
    obtain ⟨f, stop⟩ := unplaced
    rw [bind_error stop]
    exact Or.inl ⟨f, rfl, fun p h => there ⟨p, h.found⟩⟩

theorem Fresh.makeDirectory {d : Disk} {u : String} {p : Place} (h : Fresh d u p) :
    makeDirectory u d = .ok () (made d u p) := by
  rcases makeDirectory_cases u d with ⟨_, _, none⟩ | ⟨q, fresh, run⟩
  · exact absurd h (none p)
  · have same := h.found.symm.trans fresh.found
    cases same
    exact run

section Making

variable {d : Disk} {u s n : String} {p : Place} (h : Spells u (join s n))
  (hn : Proper n) (hl : Leads d s p) (hf : Fits u)
include h hn hl hf

omit hl hf in
theorem last_joined : name (bare u) = n := by
  rw [h.bare_eq (named_join hn), name, split_join_bare hn]

theorem container_joined : d.find true (join (container u) ".") = .ok (.node p .directory) := by
  have above : parent (bare u) = bare s := by
    rw [h.bare_eq (named_join hn), parent, split_join_bare hn]
  refine Leads.container (above ▸ hl.bare) ?_ hf
  rw [last_joined h hn]
  exact hn.nonempty

theorem fresh_joined (hx : d.tree.node? (p ++ [n]) = none) : Fresh d u p := by
  have last := last_joined h hn
  refine ⟨hf.noNul, hf.short, last ▸ hn, ?_, container_joined h hn hl hf, last ▸ hx⟩
  refine hf.shortNames _ ?_
  rw [h.parts_eq, parts_join hn, last]
  simp

theorem ensureDirectory_absent (hx : d.tree.node? (p ++ [n]) = none) :
    ensureDirectory u d = .ok () { d with tree := d.tree.put (p ++ [n]) .directory } := by
  have run := (fresh_joined h hn hl hf hx).makeDirectory
  rw [made, last_joined h hn] at run
  exact tryCatch_ok run

theorem ensureDirectory_present (hd : d.Sound) (hx : d.tree.node? (p ++ [n]) = some .directory) :
    ensureDirectory u d = .ok () d := by
  have there := (h.leads (named_join hn) (hl.joined hd hn hx)).isDirectory (h.ne_empty (named_join hn)) hf
  rcases makeDirectory_cases u d with ⟨f, stop, _⟩ | ⟨q, fresh, _⟩
  · rw [ensureDirectory, tryCatch_error stop, bind_ok (get_apply d), there]
    rfl
  · have same := fresh.found.symm.trans (container_joined h hn hl hf)
    cases same
    have absent := fresh.absent
    rw [last_joined h hn, hx] at absent
    cases absent

end Making

/-! ### Opening directories -/

/-- On the way along some names there are directories, and then nothing. -/
def Clear (t : Tree) (p : Place) (ns : List String) : Prop :=
  ∀ ms, ms <+: ns → t.node? (p ++ ms) = none ∨ t.node? (p ++ ms) = some .directory

theorem Clear.of_append {t : Tree} {p : Place} {ms ns : List String} (h : Clear t p (ms ++ ns)) :
    Clear t p ms :=
  fun ks hk => h ks (hk.trans (List.prefix_append ms ns))

theorem Clear.unlinked {t : Tree} {p : Place} {ns ms : List String} (h : Clear t p ns)
    (hm : ms <+: ns) (target : String) : t.node? (p ++ ms) ≠ some (.link target) := by
  rcases h ms hm with e | e <;> rw [e] <;> simp

/-- The tree after the directories along some names have been opened. -/
structure Opened (t u : Tree) (p : Place) (ns : List String) : Prop where
  sound : u.Sound
  opened : ∀ ms, ms <+: ns → u.node? (p ++ ms) = some .directory
  rest : ∀ q, (∀ ms, ms <+: ns → q ≠ p ++ ms) → u.node? q = t.node? q

theorem Opened.refl {t : Tree} (ht : t.Sound) {p : Place} {ns : List String}
    (h : t.node? (p ++ ns) = some .directory) : Opened t t p ns where
  sound := ht
  opened := by
    rintro ms ⟨ks, rfl⟩
    by_cases hk : ks = []
    · rwa [hk, List.append_nil] at h
    · rw [← List.append_assoc] at h
      exact ht.directory_of_below h hk
  rest := fun _ _ => rfl

theorem Opened.trans {t u v : Tree} {p : Place} {ms : List String} {n : String}
    (h : Opened t u p ms) (hn : Opened u v (p ++ ms) [n]) : Opened t v p (ms ++ [n]) where
  sound := hn.sound
  opened := by
    intro ks hk
    rcases List.prefix_concat_iff.mp hk with rfl | hk
    · rw [← List.append_assoc]
      exact hn.opened [n] (List.prefix_refl _)
    · by_cases hm : ks = ms
      · have := hn.opened [] (List.nil_prefix)
        rwa [List.append_nil, ← hm] at this
      · rw [hn.rest]
        · exact h.opened ks hk
        · intro js hj e
          rw [List.append_assoc] at e
          have e := List.append_cancel_left e
          have := hk.length_le
          rw [e, List.length_append] at this
          have none : js = [] := List.eq_nil_of_length_eq_zero (by omega)
          exact hm (by rw [e, none, List.append_nil])
  rest := by
    intro q hq
    rw [hn.rest]
    · exact h.rest q (fun ks hk => hq ks (hk.trans (List.prefix_append ms [n])))
    · intro ks hk e
      refine hq (ms ++ ks) ?_ (by rw [e, List.append_assoc])
      exact (List.prefix_append_right_inj ms).mpr hk

theorem Opened.keep {t u : Tree} {p : Place} {ns : List String} (h : Opened t u p ns)
    (clear : Clear t p ns) {q : Place} {x : Node} (hx : t.node? q = some x) :
    u.node? q = some x := by
  by_cases hq : ∃ ms, ms <+: ns ∧ q = p ++ ms
  · obtain ⟨ms, hm, rfl⟩ := hq
    rcases clear ms hm with e | e
    · rw [e] at hx
      cases hx
    · rw [h.opened ms hm, ← e, hx]
  · rw [h.rest q (fun ms hm e => hq ⟨ms, hm, e⟩), hx]

theorem Opened.clear_last {t u : Tree} {p : Place} {ms : List String} {n : String}
    (h : Opened t u p ms) (clear : Clear t p (ms ++ [n])) : Clear u (p ++ ms) [n] := by
  intro ks hk
  by_cases hnil : ks = []
  · rw [hnil, List.append_nil]
    exact Or.inr (h.opened ms (List.prefix_refl _))
  · rw [h.rest]
    · rw [List.append_assoc]
      exact clear (ms ++ ks) ((List.prefix_append_right_inj ms).mpr hk)
    · intro js hj e
      have := hj.length_le
      have e := congrArg List.length e
      have := List.length_pos_of_ne_nil hnil
      simp only [List.length_append] at e
      omega

theorem Opened.disk {d : Disk} {u : Tree} {p : Place} {ns : List String} (hd : d.Sound)
    (h : Opened d.tree u p ns) (clear : Clear d.tree p ns) : Disk.Sound { d with tree := u } :=
  ⟨h.sound, h.keep clear hd.here⟩

theorem Opened.leads {d : Disk} {u : Tree} {p q : Place} {ns : List String} {s : String}
    (h : Opened d.tree u p ns) (clear : Clear d.tree p ns) (hl : Leads d s q) :
    Leads { d with tree := u } s q :=
  hl.mono rfl (fun _ _ hx => h.keep clear hx)

theorem ensureDirectory_opened {d : Disk} {u s n : String} {p : Place} (h : Spells u (join s n))
    (hn : Proper n) (hl : Leads d s p) (hf : Fits u) (hd : d.Sound) (clear : Clear d.tree p [n]) :
    ∃ t, ensureDirectory u d = .ok () { d with tree := t } ∧ Opened d.tree t p [n] := by
  have top := hl.directory hd
  rcases clear [n] (List.prefix_refl _) with hx | hx
  · refine ⟨_, ensureDirectory_absent h hn hl hf hx, ?_, ?_, ?_⟩
    · have short : byteLength n ≤ nameLimit := by
        refine hf.shortNames n ?_
        rw [h.parts_eq, parts_join hn]
        simp
      exact hd.tree.put top hn short (fun _ => rfl)
    · intro ms hm
      rw [Tree.node?_put _ (Tree.concat_ne_nil p n)]
      rcases List.prefix_concat_iff.mp (show ms <+: [] ++ [n] from hm) with rfl | hm
      · exact if_pos rfl
      · rw [List.prefix_nil.mp hm, List.append_nil, if_neg (by simp), top]
    · intro q hq
      rw [Tree.node?_put _ (Tree.concat_ne_nil p n), if_neg]
      exact fun e => hq [n] (List.prefix_refl _) e.symm
  · exact ⟨d.tree, ensureDirectory_present h hn hl hf hd hx, Opened.refl hd.tree hx⟩

def ends (path : String) : String × String :=
  if (split path).2 = "" then split (split path).1 else split path

theorem ends_eq {u s n : String} (h : Spells u (join s n)) (hs : Trimmed s) (hn : Proper n) :
    ends u = (s, n) := by
  unfold ends
  rcases h with rfl | rfl
  · rw [split_join hs hn, if_neg hn.nonempty]
  · rw [split_slash (named_join hn), if_pos rfl, split_join hs hn]

theorem makeDirectories_eq (fuel : Nat) (path : String) :
    makeDirectories (fuel + 1) path = (do
      if (ends path).1 ≠ "" && (ends path).2 ≠ "" && !(← get).exists? (ends path).1 then
        tryCatch (makeDirectories fuel (ends path).1) (fun (fault : Fault) =>
          match fault with
          | .refused .exists _ => pure ()
          | _ => throw fault)
        if (ends path).2 = "." then pure () else ensureDirectory path
      else ensureDirectory path) := by
  rw [makeDirectories]
  rfl

theorem makeDirectories_succ {u s n : String} (h : Spells u (join s n)) (hs : Trimmed s)
    (hn : Proper n) (fuel : Nat) (d : Disk) :
    makeDirectories (fuel + 1) u d =
      if s ≠ "" ∧ d.exists? s = false then
        (do
          tryCatch (makeDirectories fuel s) (fun (fault : Fault) =>
            match fault with
            | .refused .exists _ => pure ()
            | _ => throw fault)
          ensureDirectory u) d
      else ensureDirectory u d := by
  rw [makeDirectories_eq, bind_ok (get_apply d), ends_eq h hs hn]
  by_cases hd : s ≠ "" ∧ d.exists? s = false
  · rw [if_pos hd, if_pos (by simp [hd.1, hd.2, hn.nonempty])]
    simp only [if_neg hn.notDot]
  · rw [if_neg hd, if_neg]
    intro hc
    apply hd
    simpa [hn.nonempty] using hc

theorem makeDirectories_opened {s : String} {p : Place} (hs : Trimmed s) {d : Disk} (hd : d.Sound)
    (hl : Leads d s p) (fuel : Nat) {ns : List String} {u : String}
    (h : Spells u (extend s ns)) (hns : AllProper ns) (hne : ns ≠ []) (hf : Fits u)
    (clear : Clear d.tree p ns) (enough : ns.length ≤ fuel + 1) :
    ∃ t, makeDirectories fuel u d = .ok () { d with tree := t } ∧ Opened d.tree t p ns := by
  induction fuel generalizing ns u with
  | zero =>
    obtain ⟨n, rfl⟩ := List.length_eq_one_iff.mp
      (Nat.le_antisymm enough (List.length_pos_of_ne_nil hne))
    exact ensureDirectory_opened h hns.head hl hf hd clear
  | succ fuel ih =>
    obtain ⟨ms, n, rfl⟩ := List.eq_nil_or_concat ns |>.resolve_left hne
    rw [List.concat_eq_append] at *
    have hms := hns.left
    have hn := hns.last
    rw [extend_concat] at h
    have htop : Trimmed (extend s ms) := hs.extend hms
    have hfv : Fits (extend s ms) := by
      have := h.fits hf
      rw [← extend_concat] at this
      exact this.of_append (hns.right)
    rw [makeDirectories_succ h htop hn]
    by_cases missing : d.tree.node? (p ++ ms) = none
    · have hmne : ms ≠ [] := by
        rintro rfl
        rw [List.append_nil, hl.directory hd] at missing
        cases missing
      have named := named_extend (s := s) hms hmne
      have unseen : d.exists? (extend s ms) = false :=
        hl.not_exists? hd hms hmne hfv missing
          (fun ks hk target => clear.of_append.unlinked hk target)
      have enough' : ms.length ≤ fuel + 1 := by
        rw [List.length_append] at enough
        simpa using enough
      obtain ⟨t, ht, opened⟩ := ih (Or.inl rfl) hms hmne hfv clear.of_append enough'
      have hd' := opened.disk hd clear.of_append
      have hl' : Leads { d with tree := t } (extend s ms) (p ++ ms) :=
        (opened.leads clear.of_append hl).extended hd' hms (opened.opened ms (List.prefix_refl _))
      obtain ⟨v, hv, entered⟩ := ensureDirectory_opened h hn hl' hf hd' (opened.clear_last clear)
      refine ⟨v, ?_, opened.trans entered⟩
      rw [if_pos ⟨named.nonempty, unseen⟩, bind_ok (tryCatch_ok ht), hv]
    · have there : d.tree.node? (p ++ ms) = some .directory :=
        (clear.of_append ms (List.prefix_refl _)).resolve_left missing
      have hl' := hl.extended hd hms there
      have opened := Opened.refl hd.tree there
      obtain ⟨v, hv, entered⟩ := ensureDirectory_opened h hn hl' hf hd (opened.clear_last clear)
      refine ⟨v, ?_, opened.trans entered⟩
      rw [if_neg, hv]
      rintro ⟨hv, unseen⟩
      rw [hl'.exists? hv hfv] at unseen
      cases unseen

theorem length_le_extend {s : String} {ns : List String} (h : AllProper ns) :
    s.length + ns.length ≤ (extend s ns).length := by
  induction ns generalizing s with
  | nil => exact Nat.le_refl _
  | cons n ns ih =>
    have hj := congrArg List.length (toList_join (s := s) h.head.not_isAbsolute)
    have hp := List.length_pos_of_ne_nil h.head.toList_ne_nil
    simp only [List.length_append, String.length_toList] at hj hp
    have := ih (s := join s n) h.tail
    rw [extend_cons, List.length_cons]
    omega

theorem makePath_opened {s : String} {p : Place} (hs : Trimmed s) {d : Disk} (hd : d.Sound)
    (hl : Leads d s p) {ns : List String} {u : String} (h : Spells u (extend s ns))
    (hns : AllProper ns) (hne : ns ≠ []) (hf : Fits u) (clear : Clear d.tree p ns) :
    ∃ t, makePath u d = .ok () { d with tree := t } ∧ Opened d.tree t p ns := by
  refine makeDirectories_opened hs hd hl u.length h hns hne hf clear ?_
  have := length_le_extend (s := s) hns
  rcases h with rfl | rfl
  · omega
  · rw [String.length_append]
    omega

/-! ### Removing a directory -/

def without (t : Tree) (p : Place) : Tree := (t.clear p).remove p

theorem node?_without (t : Tree) {p q : Place} (hq : ¬ p <+: q) :
    (without t p).node? q = t.node? q := by
  by_cases root : q = []
  · rw [root]
    rfl
  · have other : q ≠ p := by
      rintro rfl
      exact hq (List.prefix_refl _)
    have notBelow : Tree.isBelow p q = false := by
      rw [Bool.eq_false_iff]
      exact fun h => hq (Tree.isBelow_iff.mp h).1
    rw [without, Tree.node?_remove _ root, if_neg other, Tree.node?_clear, notBelow]
    rfl

theorem removeTree_found {d : Disk} {path : String} {p : Place} (hp : p ≠ [])
    (dots : ¬ (name (bare path) = "." ∨ name (bare path) = ".."))
    (found : d.find false path = .ok (.node p .directory))
    (again : Disk.find { d with tree := d.tree.clear p } false path = .ok (.node p .directory)) :
    removeTree path d = .ok () { d with tree := without d.tree p } := by
  have removed : removeDirectory path { d with tree := d.tree.clear p } =
      .ok () { d with tree := without d.tree p } := by
    unfold removeDirectory
    simp only [if_neg dots]
    rw [bind_ok (get_apply _), again]
    exact congrFun (if_neg hp) _
  have cleared : change (·.clear p) d = .ok () { d with tree := d.tree.clear p } := rfl
  have looked : orRefuse path (d.find false path) d = .ok (.node p .directory) d := by rw [found]; rfl
  unfold removeTree
  rw [bind_ok (get_apply d), bind_ok looked]
  dsimp only
  rw [bind_ok cleared, removed]

theorem removeTree_ok {d : Disk} {s n : String} {p : Place} (hs : Trimmed s) (hn : Proper n)
    (hl : Leads d s p) (kept : Leads { d with tree := d.tree.clear (p ++ [n]) } s p)
    (hf : Fits (join s n)) (hx : d.tree.node? (p ++ [n]) = some .directory) :
    removeTree (join s n) d = .ok () { d with tree := without d.tree (p ++ [n]) } := by
  have still : (d.tree.clear (p ++ [n])).node? (p ++ [n]) = some .directory := by
    have notBelow : Tree.isBelow (p ++ [n]) (p ++ [n]) = false := by simp [Tree.isBelow]
    rw [Tree.node?_clear, notBelow]
    exact hx
  have last : name (bare (join s n)) = n := by rw [bare_named (named_join hn), name_join hs hn]
  have dots : ¬ (name (bare (join s n)) = "." ∨ name (bare (join s n)) = "..") := by
    rw [last]
    exact fun e => e.elim hn.notDot hn.notParent
  exact removeTree_found (Tree.concat_ne_nil p n) dots (hl.find_directory hn hf hx false)
    (kept.find_directory hn hf still false)

end SqlMigration.Files
