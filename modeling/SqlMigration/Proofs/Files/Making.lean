import SqlMigration.Proofs.Files.Laid
import SqlMigration.Proofs.Files.Passage

/-!
# Making paths of any text

What is made along a path keeps all that was there. Where a path can be made,
whatever its text, the directories below it can be made from the same disk, and
the two ways come to the same disk.
-/

set_option autoImplicit false

namespace SqlMigration.Files

open SqlMigration.Path Effect

/-! ### Ways in two parts -/

theorem Way.split_append {t : Tree} {k j : Nat} {p q : Place} {ms ns : List String}
    (h : Way t k p (ms ++ ns) j q) : ∃ i r, Way t k p ms i r ∧ Way t i r ns j q := by
  generalize whole : ms ++ ns = ls at h
  induction h generalizing ms with
  | done k p =>
    obtain ⟨rfl, rfl⟩ := List.append_eq_nil_iff.mp whole
    exact ⟨k, p, .done k p, .done k p⟩
  | @dot k j p q rest more ih =>
    cases ms with
    | nil => exact ⟨k, p, .done k p, by rw [List.nil_append] at whole; exact whole ▸ .dot more⟩
    | cons m ms =>
      obtain ⟨rfl, rfl⟩ := List.cons.inj whole
      obtain ⟨i, r, first, second⟩ := ih rfl
      exact ⟨i, r, .dot first, second⟩
  | @up k j p q rest more ih =>
    cases ms with
    | nil => exact ⟨k, p, .done k p, by rw [List.nil_append] at whole; exact whole ▸ .up more⟩
    | cons m ms =>
      obtain ⟨rfl, rfl⟩ := List.cons.inj whole
      obtain ⟨i, r, first, second⟩ := ih rfl
      exact ⟨i, r, .up first, second⟩
  | @enter k j p q n rest dot up short here more ih =>
    cases ms with
    | nil =>
      rw [List.nil_append] at whole
      exact ⟨k, p, .done k p, whole ▸ .enter dot up short here more⟩
    | cons m ms =>
      obtain ⟨rfl, rfl⟩ := List.cons.inj whole
      obtain ⟨i, r, first, second⟩ := ih rfl
      exact ⟨i, r, .enter dot up short here first, second⟩
  | @link k j p q n target rest dot up short here more ih =>
    cases ms with
    | nil =>
      rw [List.nil_append] at whole
      exact ⟨k + 1, p, .done _ p, whole ▸ .link dot up short here more⟩
    | cons m ms =>
      obtain ⟨rfl, rfl⟩ := List.cons.inj whole
      obtain ⟨i, r, first, second⟩ := @ih (steps target ++ ms) (by simp)
      exact ⟨i, r, .link dot up short here first, second⟩

theorem Way.of_dot {t : Tree} {k j : Nat} {p q : Place} {ns : List String}
    (h : Way t k p (ns ++ ["."]) j q) : ∃ i, Way t k p ns i q := by
  obtain ⟨i, r, first, _⟩ := h.split_append
  have found := h.follow_eq
  rw [first.follow_append (Or.inl rfl), follow_cons, if_pos rfl, follow_nil] at found
  cases found
  exact ⟨i, first⟩

theorem Way.single {t : Tree} {k j : Nat} {p q : Place} {n : String} (h : Way t k p [n] j q) :
    n = "." ∨ n = ".." ∨ t.node? (p ++ [n]) ≠ none := by
  cases h with
  | dot _ => exact Or.inl rfl
  | up _ => exact Or.inr (Or.inl rfl)
  | enter _ _ _ here _ => exact Or.inr (Or.inr (by simp [here]))
  | link _ _ _ here _ => exact Or.inr (Or.inr (by simp [here]))

theorem leads_of_find {d : Disk} {s : String} {p : Place}
    (h : d.find true s = .ok (.node p .directory)) : Leads d s p := by
  rw [Disk.find] at h
  split_ifs at h
  obtain ⟨j, way⟩ := exists_way h
  unfold steps at way
  split at way
  · exact way.of_dot
  · exact ⟨j, way⟩

theorem Leads.unique {d : Disk} {s : String} {p q : Place} (h : Leads d s p) (h' : Leads d s q) :
    p = q := by
  obtain ⟨i, hi⟩ := h
  obtain ⟨j, hj⟩ := h'
  have same := hi.follow_eq.symm.trans hj.follow_eq
  cases same
  rfl

theorem Leads.parent {d : Disk} {u : String} {q : Place} (h : Leads d u q)
    (hne : name (Files.bare u) ≠ "") :
    ∃ p i j, Leads d (parent (Files.bare u)) p ∧ Way d.tree i p [name (Files.bare u)] j q := by
  obtain ⟨j, way⟩ := h
  rw [← parts_bare, parts_parent, parts_name, if_neg hne] at way
  obtain ⟨i, p, first, second⟩ := way.split_append
  refine ⟨p, i, j, ⟨i, ?_⟩, second⟩
  rwa [startFrom, isAbsolute_parent, isAbsolute_bare]

theorem Leads.not_fresh {d : Disk} {u : String} {p q : Place} (h : Leads d u q) :
    ¬ Fresh d u p := by
  intro fresh
  obtain ⟨r, i, j, above, last⟩ := h.parent fresh.proper.nonempty
  have same : p = r := (leads_of_find fresh.found).unique above.container_leads
  rw [same] at fresh
  rcases last.single with dot | up | there
  · exact fresh.proper.notDot dot
  · exact fresh.proper.notParent up
  · exact there fresh.absent

theorem ensureDirectory_leads {d : Disk} {u : String} {q : Place} (h : Leads d u q) (hu : u ≠ "")
    (hf : Fits u) : ensureDirectory u d = .ok () d := by
  rcases makeDirectory_cases u d with ⟨f, stop, _⟩ | ⟨p, fresh, _⟩
  · rw [ensureDirectory, tryCatch_error stop, bind_ok (get_apply d), h.isDirectory hu hf]
    rfl
  · exact absurd fresh h.not_fresh

theorem ensureDirectory_cases (u : String) (d : Disk) :
    (∃ f, ensureDirectory u d = .error f d) ∨
      (ensureDirectory u d = .ok () d ∧ d.isDirectory u = true) ∨
      ∃ p, Fresh d u p ∧ ensureDirectory u d = .ok () (made d u p) := by
  rcases makeDirectory_cases u d with ⟨f, stop, _⟩ | ⟨p, fresh, run⟩
  · rw [ensureDirectory, tryCatch_error stop, bind_ok (get_apply d)]
    cases there : d.isDirectory u with
    | true => exact Or.inr (Or.inl ⟨rfl, rfl⟩)
    | false => exact Or.inl ⟨f, rfl⟩
  · exact Or.inr (Or.inr ⟨p, fresh, tryCatch_ok run⟩)

/-! ### What making keeps -/

theorem keeps_ensureDirectory {I : Disk → Prop} {u : String}
    (h : ∀ d p, I d → Fresh d u p → I (made d u p)) : Keeps I (ensureDirectory u) := by
  intro d hd
  rcases ensureDirectory_cases u d with ⟨f, run⟩ | ⟨run, _⟩ | ⟨p, fresh, run⟩
  · rw [run]
    exact hd
  · rw [run]
    exact hd
  · rw [run]
    exact h d p hd fresh

/-- Making a path goes to the paths above it, and makes one directory for each of them at most. -/
theorem keeps_makeDirectories {I : Disk → Prop} {U : String → Prop}
    (above : ∀ u, U u → U (ends u).1) (h : ∀ u d p, U u → I d → Fresh d u p → I (made d u p))
    (fuel : Nat) {path : String} (hp : U path) : Keeps I (makeDirectories fuel path) := by
  induction fuel generalizing path with
  | zero => exact keeps_ensureDirectory (fun d p => h path d p hp)
  | succ fuel ih =>
    have last : Keeps I (ensureDirectory path) := keeps_ensureDirectory (fun d p => h path d p hp)
    rw [makeDirectories_eq]
    refine Keeps.get_bind (fun d hd => Keeps.ite (fun _ => ?_) (fun _ => last) d hd)
    refine Keeps.bind (Keeps.tryCatch (ih (above path hp)) (fun f => ?_)) (fun _ => ?_)
    · split
      · exact Keeps.pure _
      · exact Keeps.throw _
    · exact Keeps.ite (fun _ => Keeps.pure _) (fun _ => last)

theorem keeps_makePath {I : Disk → Prop} {U : String → Prop} (above : ∀ u, U u → U (ends u).1)
    (h : ∀ u d p, U u → I d → Fresh d u p → I (made d u p)) {path : String} (hp : U path) :
    Keeps I (makePath path) :=
  keeps_makeDirectories above h path.length hp

/-- The second disk is a sound one with all that is on the first. -/
structure Grown (d e : Disk) : Prop where
  here : e.here = d.here
  sound : e.Sound
  keep : ∀ q x, d.tree.node? q = some x → e.tree.node? q = some x

theorem Grown.refl {d : Disk} (hd : d.Sound) : Grown d d := ⟨rfl, hd, fun _ _ hx => hx⟩

theorem Grown.made {d e : Disk} (h : Grown d e) {u : String} {p : Place} (fresh : Fresh e u p) :
    Grown d (made e u p) := by
  have keep : ∀ q x, e.tree.node? q = some x → (Files.made e u p).tree.node? q = some x := by
    intro q x hx
    rw [Files.made, Tree.node?_put _ (Tree.concat_ne_nil _ _), if_neg, hx]
    rintro rfl
    rw [fresh.absent] at hx
    cases hx
  have dir := (leads_of_find fresh.found).directory h.sound
  refine ⟨h.here, ⟨?_, keep _ _ h.sound.here⟩, fun q x hx => keep q x (h.keep q x hx)⟩
  exact h.sound.tree.put dir fresh.proper fresh.shortName (fun _ => rfl)

theorem makePath_grown {d e : Disk} (hd : d.Sound) {path : String}
    (h : makePath path d = .ok () e) : Grown d e :=
  (keeps_makePath (U := fun _ => True) (fun _ _ => trivial) (fun _ _ _ _ grown fresh => grown.made fresh)
    trivial).of_ok (Grown.refl hd) h

/-! ### The recursion without its bound -/

theorem ends_eq_split (u : String) : ends u = split (bare u) := by
  unfold ends
  by_cases last : (split u).2 = ""
  · obtain ⟨front, whole, _, _, chars⟩ := split_spec u
    have none : (name u).toList = [] := String.toList_eq_nil_iff.mpr last
    rw [none, List.append_nil] at whole
    have same : parent u = bare u := by
      apply String.toList_inj.mp
      rw [chars, bare, String.toList_ofList, whole]
    rw [if_pos last]
    exact congrArg split same
  · have named : Named u := by
      obtain ⟨front, whole, noSlash, _⟩ := split_spec u
      have chars : (name u).toList ≠ [] := mt String.toList_eq_nil_iff.mp last
      constructor
      · rintro rfl
        exact last (by decide)
      · simp only [endsWithSlash, decide_eq_false_iff_not]
        rw [whole, List.getLast?_append_of_ne_nil _ chars]
        exact fun e => noSlash (List.mem_of_getLast? e)
    rw [if_neg last, bare_named named]

theorem length_parent_bare (u : String) :
    (parent (bare u)).length + (name (bare u)).length ≤ u.length := by
  obtain ⟨front, whole, _, _, chars⟩ := split_spec (bare u)
  obtain ⟨slashes, trimmed, _⟩ := trimSlashes_spec front
  obtain ⟨more, all, _⟩ := trimSlashes_spec u.toList
  have total := congrArg List.length all
  have inner := congrArg List.length whole
  rw [trimmed, ← chars] at inner
  have same : (trimSlashes u.toList).length = (bare u).length := by
    rw [bare, ← String.length_toList, String.toList_ofList]
  simp only [List.length_append, String.length_toList, same] at total inner
  omega

theorem length_head_lt {path : String} (h : (ends path).2 ≠ "") : (ends path).1.length < path.length := by
  rw [ends_eq_split] at h ⊢
  have pos : 0 < (name (bare path)).length := by
    rw [← String.length_toList]
    exact List.length_pos_of_ne_nil (mt String.toList_eq_nil_iff.mp h)
  have := length_parent_bare path
  change (parent (bare path)).length < path.length
  omega

theorem makeDirectories_root {path : String} (fuel : Nat) (h : (ends path).2 = "") :
    makeDirectories fuel path = ensureDirectory path := by
  cases fuel with
  | zero => rfl
  | succ fuel =>
    funext d
    rw [makeDirectories_eq, bind_ok (get_apply d), if_neg (by simp [h])]

theorem makeDirectories_enough {fuel : Nat} {path : String} (h : path.length ≤ fuel) :
    makeDirectories fuel path = makePath path := by
  induction fuel using Nat.strongRecOn generalizing path with
  | ind fuel ih =>
    rw [makePath]
    cases fuel with
    | zero => rw [Nat.le_zero.mp h]
    | succ fuel =>
      by_cases last : (ends path).2 = ""
      · rw [makeDirectories_root _ last, makeDirectories_root _ last]
      · have shorter := length_head_lt last
        obtain ⟨n, hn⟩ : ∃ n, path.length = n + 1 := ⟨path.length - 1, by omega⟩
        rw [hn, makeDirectories_eq, makeDirectories_eq, ih fuel (by omega) (by omega),
          ih n (by omega) (by omega)]

def past (f : Fault) : Action Unit :=
  match f with
  | .refused .exists _ => pure ()
  | _ => throw f

theorem makePath_there {d : Disk} {path : String}
    (h : (ends path).1 = "" ∨ (ends path).2 = "" ∨ d.exists? (ends path).1 = true) :
    makePath path d = ensureDirectory path d := by
  rw [← makeDirectories_enough (Nat.le_succ _), makeDirectories_eq, bind_ok (get_apply d), if_neg]
  rcases h with h | h | h <;> simp [h]

theorem makePath_missing {d : Disk} {path : String} (head : (ends path).1 ≠ "")
    (tail : (ends path).2 ≠ "") (missing : d.exists? (ends path).1 = false) :
    makePath path d = (tryCatch (makePath (ends path).1) past >>= fun _ =>
      if (ends path).2 = "." then pure () else ensureDirectory path) d := by
  have shorter := length_head_lt tail
  rw [← makeDirectories_enough (Nat.le_succ path.length), makeDirectories_eq, bind_ok (get_apply d),
    if_pos (by simp [head, tail, missing]), makeDirectories_enough (Nat.le_of_lt shorter)]
  rfl

/-! ### Directories below a path that can be made -/

theorem Fits.head {u : String} (hf : Fits u) : Fits (ends u).1 := by
  rw [ends_eq_split]
  change Fits (parent (bare u))
  refine ⟨fun h => hf.noNul (mem_of_mem_bare (mem_of_mem_parent h)), ?_, ?_⟩
  · exact Nat.lt_of_le_of_lt ((byteLength_parent_le _).trans (byteLength_bare_le u)) hf.short
  · intro n hn
    refine hf.shortNames n ?_
    rw [← parts_bare, parts_parent]
    exact List.mem_append_left _ hn

theorem makePath_leads {d : Disk} {u : String} {q : Place} (h : Leads d u q) (hu : u ≠ "")
    (hf : Fits u) : makePath u d = .ok () d := by
  rw [makePath_there, ensureDirectory_leads h hu hf]
  by_cases head : (ends u).1 = ""
  · exact Or.inl head
  by_cases tail : (ends u).2 = ""
  · exact Or.inr (Or.inl tail)
  have fits := hf.head
  rw [ends_eq_split] at head tail fits ⊢
  obtain ⟨p, _, _, above, _⟩ := h.parent tail
  exact Or.inr (Or.inr (above.exists? head fits))

theorem Leads.respelled {d : Disk} {path u : String} {q : Place} (h : Leads d path q)
    (same : Files.bare u = Files.bare path) : Leads d u q := by
  have leads := h.bare
  rw [← same] at leads
  rwa [Leads, startFrom, isAbsolute_bare, parts_bare] at leads

section Bare

variable {d e : Disk} {path u : String} {q : Place} (same : bare u = bare path) (hu : u ≠ "")
  (hf : Fits u) (leads : Leads e path q)
include same hu hf leads

theorem ensureDirectory_bare (h : ensureDirectory path d = .ok () e) :
    ensureDirectory u d = .ok () e := by
  have leads' : Leads e u q := leads.respelled same
  rcases ensureDirectory_cases path d with ⟨f, run⟩ | ⟨run, _⟩ | ⟨p, fresh, run⟩
  · rw [run] at h
    cases h
  · rw [run] at h
    cases h
    exact ensureDirectory_leads leads' hu hf
  · rw [run] at h
    cases h
    have above : container u = container path := by simp only [container, same]
    have fresh' : Fresh d u p :=
      { noNul := hf.noNul
        short := hf.short
        proper := by rw [same]; exact fresh.proper
        shortName := by rw [same]; exact fresh.shortName
        found := by rw [above]; exact fresh.found
        absent := by rw [same]; exact fresh.absent }
    have both : made d u p = made d path p := by simp only [made, same]
    rw [← both]
    exact tryCatch_ok fresh'.makeDirectory

theorem makePath_bare (h : makePath path d = .ok () e) : makePath u d = .ok () e := by
  have both : ends u = ends path := by rw [ends_eq_split, ends_eq_split, same]
  by_cases there : (ends path).1 = "" ∨ (ends path).2 = "" ∨ d.exists? (ends path).1 = true
  · have there' := there
    rw [← both] at there'
    rw [makePath_there there] at h
    rw [makePath_there there']
    exact ensureDirectory_bare same hu hf leads h
  · simp only [not_or, Bool.not_eq_true] at there
    obtain ⟨head, tail, missing⟩ := there
    rw [makePath_missing head tail missing] at h
    obtain ⟨_, d', first, second⟩ := ok_of_bind h
    rw [← both] at head tail missing first second
    rw [makePath_missing head tail missing, bind_ok first]
    split at second
    · next dot =>
      rw [if_pos dot]
      exact second
    · next dot =>
      rw [if_neg dot]
      exact ensureDirectory_bare same hu hf leads second

end Bare

/-- Where the path above a path has been made, the path comes to the same whether it is made from
the disk before or from the disk after. -/
theorem makePath_after {d f : Disk} (hd : d.Sound) {u s n : String} {r : Place} (hf : Fits u)
    (he : ends u = (s, n)) (head : s ≠ "") (name : Proper n) (run : makePath s d = .ok () f)
    (leads : Leads f s r) : makePath u d = ensureDirectory u f := by
  obtain rfl : (ends u).1 = s := congrArg Prod.fst he
  obtain rfl : (ends u).2 = n := congrArg Prod.snd he
  have grown := makePath_grown hd run
  cases there : d.exists? (ends u).1 with
  | false =>
    rw [makePath_missing head name.nonempty there, bind_ok (tryCatch_ok run), if_neg name.notDot]
  | true =>
    -- what is found before is found after, so it is the directory, and nothing has been made
    have found : ∃ p x, d.find true (ends u).1 = .ok (.node p x) := by
      rw [Disk.exists?, Disk.node] at there
      cases hr : d.find true (ends u).1 with
      | error e =>
        rw [hr] at there
        cases there
      | ok x =>
        cases x with
        | node p x => exact ⟨p, x, rfl⟩
        | absent p =>
          rw [hr] at there
          cases there
    obtain ⟨p, x, found⟩ := found
    have after := (Disk.find_mono grown.here grown.keep found).symm.trans (leads.find head hf.head)
    cases after
    have same := (makePath_leads (leads_of_find found) head hf.head).symm.trans run
    cases same
    exact makePath_there (Or.inr (Or.inr there))

theorem makePath_extend {d e : Disk} {path : String} {q : Place} (hd : d.Sound)
    (run : makePath path d = .ok () e) (leads : Leads e path q) (hp : path ≠ "") {ns : List String}
    (hns : AllProper ns) (hne : ns ≠ []) {u : String} (hu : Spells u (extend path ns)) (hf : Fits u)
    (clear : Clear e.tree q ns) :
    ∃ t, makePath u d = .ok () { e with tree := t } ∧ Opened e.tree t q ns := by
  have sound := (makePath_grown hd run).sound
  induction ns using List.reverseRecOn generalizing u with
  | nil => exact absurd rfl hne
  | append_singleton ms m ih =>
    have hm := hns.last
    rw [extend_concat] at hu
    have ends : ends u = (bare (extend path ms), m) := by
      rw [ends_eq_split, hu.bare_eq (named_join hm), split_join_bare hm]
    have nonempty : extend path ms ≠ "" := by
      by_cases hnil : ms = []
      · rwa [hnil, extend_nil]
      · exact (named_extend hns.left hnil).nonempty
    have fits := hf.head
    rw [ends] at fits
    have above : ∃ t, makePath (bare (extend path ms)) d = .ok () { e with tree := t } ∧
        Opened e.tree t q ms := by
      by_cases hnil : ms = []
      · subst hnil
        refine ⟨e.tree, ?_, Opened.refl sound.tree ?_⟩
        · exact makePath_bare (bare_bare path) (bare_ne_empty hp) fits leads run
        · rw [List.append_nil]
          exact leads.directory sound
      · have named := bare_named (named_extend (s := path) hns.left hnil)
        rw [named] at fits ⊢
        exact ih hns.left hnil (Or.inl rfl) fits clear.of_append
    obtain ⟨t, made, opened⟩ := above
    have sound' := opened.disk sound clear.of_append
    have leads' : Leads { e with tree := t } (extend path ms) (q ++ ms) :=
      (opened.leads clear.of_append leads).extended sound' hns.left (opened.opened ms (List.prefix_refl _))
    obtain ⟨v, entered, last⟩ := ensureDirectory_opened hu hm leads' hf sound' (opened.clear_last clear)
    refine ⟨v, ?_, opened.trans last⟩
    rw [makePath_after hd hf ends (bare_ne_empty nonempty) hm made leads'.bare, entered]

theorem makePath_ne_empty {d e : Disk} {path : String} (h : makePath path d = .ok () e) :
    path ≠ "" := by
  rintro rfl
  have none : ends "" = ("", "") := by decide
  rw [makePath_there (Or.inl (by rw [none]))] at h
  rcases ensureDirectory_cases "" d with ⟨f, run⟩ | ⟨_, there⟩ | ⟨p, fresh, _⟩
  · rw [run] at h
    cases h
  · rw [Disk.isDirectory, Disk.node, Disk.find, if_neg (by decide), if_pos rfl] at there
    cases there
  · exact fresh.proper.nonempty (by decide)

/-! ### Files below a path that can be made -/

/-- A path can be made on the disk, and leads to a place below which the files so far are laid. -/
structure Receives (d : Disk) (path : String) (t : Tree) (q : Place) (done : List (Place × Bytes)) :
    Prop where
  sound : d.Sound
  reach : ∃ e u, makePath path d = .ok () e ∧ Leads e path q ∧ Opened u e.tree [] q ∧ Laid t u q done

theorem Receives.of_leads {d : Disk} {path : String} {t : Tree} {q : Place}
    {done : List (Place × Bytes)} (hd : d.Sound) (leads : Leads d path q) (hp : path ≠ "")
    (hf : Fits path) (laid : Laid t d.tree q done) : Receives d path t q done :=
  ⟨hd, d, d.tree, makePath_leads leads hp hf, leads,
    Opened.refl hd.tree (leads.directory hd), laid⟩

theorem Opened.clear {t u : Tree} {p ns : Place} (h : Opened t u [] p) (clear : Clear t [] (p ++ ns)) :
    Clear u p ns := by
  intro ms hm
  by_cases hp : p ++ ms <+: p
  · have same : p ++ ms = p := hp.eq_of_length (Nat.le_antisymm hp.length_le (by simp))
    rw [same]
    exact Or.inr (h.opened p (List.prefix_refl p))
  · have other : ∀ ks, ks <+: p → p ++ ms ≠ [] ++ ks := by
      intro ks hk e
      rw [e] at hp
      exact hp hk
    rw [h.rest _ other]
    exact clear (p ++ ms) ((List.prefix_append_right_inj p).mpr hm)

theorem Opened.append {t u v : Tree} {p ns : Place} (h : Opened t u [] p) (more : Opened u v p ns) :
    Opened t v [] (p ++ ns) where
  sound := more.sound
  opened := by
    intro ms hm
    rw [List.nil_append]
    have whole := more.opened ns (List.prefix_refl ns)
    by_cases e : ms = p ++ ns
    · rwa [e]
    · exact more.sound.directory_of_prefix whole hm e
  rest := by
    intro q hq
    rw [more.rest, h.rest]
    · exact fun ms hm e => hq ms (hm.trans (List.prefix_append p ns)) e
    · exact fun ms hm e => hq (p ++ ms) ((List.prefix_append_right_inj p).mpr hm) e

theorem Receives.next {d : Disk} {path : String} {t : Tree} {q : Place} {done : List (Place × Bytes)}
    (h : Receives d path t q done) (ht : t.Sound) (free : Free t q) {ns : List String} {n : String}
    (hns : AllProper ns) (hn : Proper n) (apart : ∀ e ∈ done, Apart e.1 (ns ++ [n])) {u : String}
    (hu : (ns = [] ∧ bare u = bare path) ∨ (ns ≠ [] ∧ Spells u (extend path ns))) (nonempty : u ≠ "")
    (fits : Fits u) (fits' : Fits (extend path (ns ++ [n]))) :
    ∃ v : Disk, makePath u d = .ok () v ∧ v.here = d.here ∧
      v.find true (extend path (ns ++ [n])) = .ok (.absent (q ++ ns ++ [n])) ∧
      ∀ c, let v' : Disk := { v with tree := v.tree.put (q ++ ns ++ [n]) (.file c) }
        v'.Sound ∧ Leads v' path q ∧ Laid t v'.tree q (done ++ [(ns ++ [n], c)]) := by
  obtain ⟨e, t', run, leads, opened, laid⟩ := h.reach
  have hp := makePath_ne_empty run
  have grown := makePath_grown h.sound run
  have one : AllProper [n] := hn.single
  have open' : Clear t' [] (q ++ ns) := laid.clear_next ht free apart
  have clear : Clear e.tree q ns := opened.clear open'
  have made : ∃ v, makePath u d = .ok () { e with tree := v } ∧ Opened e.tree v q ns := by
    rcases hu with ⟨rfl, same⟩ | ⟨hne, spells⟩
    · refine ⟨e.tree, makePath_bare same nonempty fits leads run, Opened.refl grown.sound.tree ?_⟩
      rw [List.append_nil]
      exact leads.directory grown.sound
    · exact makePath_extend h.sound run leads hp hns hne spells fits clear
  obtain ⟨v, made, entered⟩ := made
  have all := opened.append entered
  have absent : v.node? (q ++ ns ++ [n]) = none := by
    rw [all.absent_next, laid.absent_next ht free apart]
  have short : byteLength n ≤ nameLimit := fits'.names (hns.append one) n (by simp)
  have sound : Disk.Sound { e with tree := v } := entered.disk grown.sound clear
  have leads' : Leads { e with tree := v } path q := entered.leads clear leads
  have directory : v.node? (q ++ ns) = some .directory := entered.opened ns (List.prefix_refl ns)
  refine ⟨{ e with tree := v }, made, grown.here,
    leads'.find_absent sound hns hn fits' directory absent true, fun c => ?_⟩
  have keep : ∀ r x, v.node? r = some x → (v.put (q ++ ns ++ [n]) (.file c)).node? r = some x := by
    intro r x hx
    rw [Tree.node?_put _ (Tree.concat_ne_nil _ _), if_neg, hx]
    rintro rfl
    rw [absent] at hx
    cases hx
  refine ⟨⟨?_, keep _ _ sound.here⟩, leads'.mono rfl keep, laid.next ht free apart all hn short c⟩
  refine sound.tree.put directory hn short (fun hx => ?_)
  rw [absent] at hx
  cases hx

end SqlMigration.Files
