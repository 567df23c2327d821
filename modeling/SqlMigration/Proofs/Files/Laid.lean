import SqlMigration.Proofs.Files.Acts

/-!
# Files laid below a free place

Where a place is free, files can be laid below it one after another: each brings
the directories that lead to it, and everything else in the tree stays.
-/

set_option autoImplicit false

namespace SqlMigration.Files

open SqlMigration.Path Effect

/-- Neither of two places is at or below the other. -/
def Apart (p q : Place) : Prop := ¬ p <+: q ∧ ¬ q <+: p

instance (p q : Place) : Decidable (Apart p q) := inferInstanceAs (Decidable (_ ∧ _))

theorem Apart.symm {p q : Place} (h : Apart p q) : Apart q p := ⟨h.2, h.1⟩

theorem Apart.append {p q : Place} (h : Apart p q) (r : Place) : Apart (p ++ r) q := by
  refine ⟨fun hp => h.1 ((List.prefix_append p r).trans hp), fun hq => ?_⟩
  rcases List.prefix_or_prefix_of_prefix (List.prefix_append p r) hq with hp | hp
  · exact h.1 hp
  · exact h.2 hp

theorem apart_siblings (p : Place) {m n : String} (distinct : m ≠ n) : Apart (p ++ [m]) (p ++ [n]) := by
  rw [Apart, List.prefix_append_right_inj, List.prefix_append_right_inj]
  exact ⟨fun h => distinct (List.cons_prefix_cons.mp h).1,
    fun h => distinct (List.cons_prefix_cons.mp h).1.symm⟩

/-- Nothing is at a place, and directories can be opened on the way to it. -/
structure Free (t : Tree) (top : Place) : Prop where
  clear : Clear t [] top
  absent : t.node? top = none

theorem Free.none_below {t : Tree} {top p : Place} (h : Free t top) (ht : t.Sound) (hp : top <+: p) :
    t.node? p = none := by
  by_cases e : top = p
  · exact e ▸ h.absent
  · refine ht.none_below ?_ hp e
    rw [h.absent]
    simp

theorem Free.clear_of_prefix {t : Tree} {top p : Place} (h : Free t top) (hp : p <+: top) :
    t.node? p = none ∨ t.node? p = some .directory := by
  have := h.clear p hp
  rwa [List.nil_append] at this

theorem free_of_missing {t : Tree} (ht : t.Sound) {p : Place} {n : String} (ns : List String)
    (hp : t.node? p = some .directory) (hn : t.node? (p ++ [n]) = none) : Free t (p ++ n :: ns) := by
  have below : ∀ q, p ++ [n] <+: q → t.node? q = none := by
    intro q hq
    by_cases e : p ++ [n] = q
    · exact e ▸ hn
    · refine ht.none_below ?_ hq e
      rw [hn]
      simp
  have split : p ++ n :: ns = p ++ [n] ++ ns := by simp
  rw [split]
  refine ⟨?_, below _ (List.prefix_append _ _)⟩
  intro q hq
  rw [List.nil_append]
  rcases List.prefix_or_prefix_of_prefix hq (List.prefix_append (p ++ [n]) ns) with h | h
  · rcases List.prefix_concat_iff.mp h with rfl | h
    · exact Or.inl hn
    · by_cases e : q = p
      · exact Or.inr (e ▸ hp)
      · exact Or.inr (ht.directory_of_prefix hp h e)
  · exact Or.inl (below q h)

/-- A file can be put at a place: directories, and then nothing, are on the way to it, and nothing or
a file is there. -/
structure Room (t : Tree) (a : Place) : Prop where
  clear : ∀ b, b <+: a → b ≠ a → t.node? b = none ∨ t.node? b = some .directory
  spare : t.node? a = none ∨ ∃ c, t.node? a = some (.file c)

theorem Room.of_directory {t : Tree} (ht : t.Sound) {p : Place} {n : String}
    (hp : t.node? p = some .directory)
    (spare : t.node? (p ++ [n]) = none ∨ ∃ c, t.node? (p ++ [n]) = some (.file c)) : Room t (p ++ [n]) where
  clear b hb hne := by
    have above : b <+: p := (List.prefix_concat_iff.mp hb).resolve_left hne
    by_cases e : b = p
    · exact Or.inr (e ▸ hp)
    · exact Or.inr (ht.directory_of_prefix hp above e)
  spare := spare

theorem Room.clear_above {t : Tree} {a : Place} {n : String} (h : Room t (a ++ [n])) : Clear t [] a := by
  intro b hb
  rw [List.nil_append]
  refine h.clear b (hb.trans (List.prefix_append a [n])) ?_
  rintro rfl
  have := hb.length_le
  rw [List.length_append, List.length_singleton] at this
  omega

theorem Free.room {t : Tree} {top : Place} (h : Free t top) (ht : t.Sound) (r : Place) :
    Room t (top ++ r) where
  clear := by
    intro b hb _
    rcases List.prefix_or_prefix_of_prefix hb (List.prefix_append top r) with hq | hq
    · exact h.clear_of_prefix hq
    · exact Or.inl (h.none_below ht hq)
  spare := Or.inl (h.none_below ht (List.prefix_append top r))

/-- The tree after some files have been laid below a place. -/
structure Laid (t u : Tree) (top : Place) (done : List (Place × Bytes)) : Prop where
  sound : u.Sound
  files : ∀ e ∈ done, u.node? (top ++ e.1) = some (.file e.2)
  rest : ∀ p, (∀ e ∈ done, ¬ p <+: top ++ e.1) → u.node? p = t.node? p

theorem Laid.nil {t : Tree} (ht : t.Sound) (top : Place) : Laid t t top [] :=
  ⟨ht, by simp, fun _ _ => rfl⟩

section Laid

variable {t u : Tree} {top : Place} {done : List (Place × Bytes)} (h : Laid t u top done)
include h

theorem Laid.above {e : Place × Bytes} (he : e ∈ done) {p : Place} (hp : p <+: top ++ e.1)
    (hne : p ≠ top ++ e.1) : u.node? p = some .directory :=
  h.sound.directory_of_prefix (h.files e he) hp hne

theorem Laid.cases (p : Place) :
    (∃ e ∈ done, p = top ++ e.1 ∧ u.node? p = some (.file e.2)) ∨
      (∃ e ∈ done, p <+: top ++ e.1 ∧ p ≠ top ++ e.1 ∧ u.node? p = some .directory) ∨
      ((∀ e ∈ done, ¬ p <+: top ++ e.1) ∧ u.node? p = t.node? p) := by
  by_cases hp : ∃ e ∈ done, p <+: top ++ e.1
  · obtain ⟨e, he, hp⟩ := hp
    by_cases heq : p = top ++ e.1
    · exact Or.inl ⟨e, he, heq, heq ▸ h.files e he⟩
    · exact Or.inr (Or.inl ⟨e, he, hp, heq, h.above he hp heq⟩)
  · have none : ∀ e ∈ done, ¬ p <+: top ++ e.1 := fun e he hpe => hp ⟨e, he, hpe⟩
    exact Or.inr (Or.inr ⟨none, h.rest p none⟩)

theorem Laid.outside {p : Place} (hp : Apart p top) : u.node? p = t.node? p := by
  apply h.rest
  intro e _ hpe
  exact (hp.symm.append e.1).2 hpe

/-- Where there was room for the files, directories and links stay. -/
theorem Laid.stays (room : ∀ e ∈ done, Room t (top ++ e.1)) {p : Place} {x : Node}
    (hx : t.node? p = some x) (plain : ∀ c, x ≠ .file c) : u.node? p = some x := by
  rcases h.cases p with ⟨e, he, rfl, _⟩ | ⟨e, he, hp, hne, hd⟩ | ⟨_, same⟩
  · rcases (room e he).spare with none | ⟨c, file⟩
    · rw [none] at hx
      cases hx
    · rw [file] at hx
      exact absurd (Option.some.inj hx).symm (plain c)
  · rcases (room e he).clear p hp hne with none | dir
    · rw [none] at hx
      cases hx
    · rw [hd, ← dir, hx]
  · rw [same, hx]

variable (ht : t.Sound) (free : Free t top)
include ht free

theorem Laid.keep {p : Place} {x : Node} (hx : t.node? p = some x) : u.node? p = some x := by
  rcases h.cases p with ⟨e, _, hp, _⟩ | ⟨e, _, hp, _, hd⟩ | ⟨_, same⟩
  · rw [free.none_below ht (hp ▸ List.prefix_append top e.1)] at hx
    cases hx
  · rcases List.prefix_or_prefix_of_prefix hp (List.prefix_append top e.1) with hq | hq
    · rcases free.clear_of_prefix hq with none | dir
      · rw [none] at hx
        cases hx
      · rw [hd, ← dir, hx]
    · rw [free.none_below ht hq] at hx
      cases hx
  · rw [same, hx]

theorem Laid.file_iff {q : Place} {c : Bytes} :
    u.node? (top ++ q) = some (.file c) ↔ (q, c) ∈ done := by
  constructor
  · intro hq
    rcases h.cases (top ++ q) with ⟨e, he, hp, hf⟩ | ⟨e, _, _, _, hd⟩ | ⟨_, same⟩
    · rw [hq] at hf
      cases hf
      rwa [List.append_cancel_left hp]
    · rw [hq] at hd
      cases hd
    · rw [same, free.none_below ht (List.prefix_append top q)] at hq
      cases hq
  · exact fun hq => h.files (q, c) hq

theorem Laid.unlinked : Unlinked u top := by
  intro q target hq
  rcases h.cases (top ++ q) with ⟨e, _, _, hf⟩ | ⟨e, _, _, _, hd⟩ | ⟨_, same⟩
  · rw [hq] at hf
    cases hf
  · rw [hq] at hd
    cases hd
  · rw [same, free.none_below ht (List.prefix_append top q)] at hq
    cases hq

theorem Laid.directory_iff {q : Place} :
    u.node? (top ++ q) = some .directory ↔ ∃ e ∈ done, q <+: e.1 ∧ q ≠ e.1 := by
  constructor
  · intro hq
    rcases h.cases (top ++ q) with ⟨e, _, _, hf⟩ | ⟨e, he, hp, hne, _⟩ | ⟨_, same⟩
    · rw [hq] at hf
      cases hf
    · exact ⟨e, he, (List.prefix_append_right_inj top).mp hp, fun e => hne (e ▸ rfl)⟩
    · rw [same, free.none_below ht (List.prefix_append top q)] at hq
      cases hq
  · rintro ⟨e, he, hp, hne⟩
    exact h.above he ((List.prefix_append_right_inj top).mpr hp)
      (fun e => hne (List.append_cancel_left e))

end Laid

theorem Laid.disk {d : Disk} {u : Tree} {top : Place} {done : List (Place × Bytes)}
    (h : Laid d.tree u top done) (hd : d.Sound) (free : Free d.tree top) :
    Disk.Sound { d with tree := u } :=
  ⟨h.sound, h.keep hd.tree free hd.here⟩

theorem Laid.free {t u : Tree} {top other : Place} {done : List (Place × Bytes)}
    (h : Laid t u top done) (apart : Apart top other) (free : Free t other) : Free u other where
  clear := by
    intro p hp
    rw [List.nil_append]
    rcases h.cases p with ⟨e, _, rfl, _⟩ | ⟨_, _, _, _, hd⟩ | ⟨_, same⟩
    · exact absurd ((List.prefix_append top e.1).trans hp) apart.1
    · exact Or.inr hd
    · rw [same]
      exact free.clear_of_prefix hp
  absent := by rw [h.outside apart.symm, free.absent]

/-! ### One file more -/

theorem Opened.absent_next {t u : Tree} {p : Place} {n : String} (h : Opened t u [] p) :
    u.node? (p ++ [n]) = t.node? (p ++ [n]) := by
  apply h.rest
  intro ms hm e
  have := hm.length_le
  have := congrArg List.length e
  simp only [List.nil_append, List.length_append, List.length_cons, List.length_nil] at this
  omega

section Next

variable {t u : Tree} {top r : Place} {done : List (Place × Bytes)} {n : String}
  (h : Laid t u top done)
include h

theorem Laid.room {q : Place} (room : Room t (top ++ q)) (apart : ∀ e ∈ done, Apart e.1 q) :
    Room u (top ++ q) ∧ u.node? (top ++ q) = t.node? (top ++ q) := by
  have same : u.node? (top ++ q) = t.node? (top ++ q) :=
    h.rest _ (fun e he hq => (apart e he).2 ((List.prefix_append_right_inj top).mp hq))
  refine ⟨⟨fun b hb hne => ?_, same ▸ room.spare⟩, same⟩
  rcases h.cases b with ⟨e, he, rfl, _⟩ | ⟨e, _, _, _, hd⟩ | ⟨_, same⟩
  · exact absurd ((List.prefix_append_right_inj top).mp hb) (apart e he).1
  · exact Or.inr hd
  · rw [same]
    exact room.clear b hb hne

theorem Laid.put {v : Tree} (opened : Opened u v [] (top ++ r)) (room : Room u (top ++ r ++ [n]))
    (other : ∀ e ∈ done, e.1 ≠ r ++ [n]) (hn : Proper n) (short : byteLength n ≤ nameLimit) (c : Bytes) :
    Laid t (v.put (top ++ r ++ [n]) (.file c)) top (done ++ [(r ++ [n], c)]) := by
  have dir : v.node? (top ++ r) = some .directory := opened.opened _ (List.prefix_refl _)
  refine ⟨?_, ?_, ?_⟩
  · refine opened.sound.put dir hn short (fun hx => ?_)
    rw [opened.absent_next] at hx
    rcases room.spare with none | ⟨c, file⟩
    · rw [none] at hx
      cases hx
    · rw [file] at hx
      cases hx
  · intro e he
    rw [Tree.node?_put _ (Tree.concat_ne_nil _ n)]
    rcases List.mem_append.mp he with he | he
    · rw [if_neg, opened.keep room.clear_above (h.files e he)]
      rw [List.append_assoc]
      exact fun same => other e he (List.append_cancel_left same).symm
    · rw [List.mem_singleton] at he
      rw [he, if_pos (List.append_assoc _ _ _)]
  · intro q hq
    have hnew := hq (r ++ [n], c) (by simp)
    rw [← List.append_assoc] at hnew
    have hne : top ++ r ++ [n] ≠ q := by
      rintro rfl
      exact hnew (List.prefix_refl _)
    rw [Tree.node?_put _ (Tree.concat_ne_nil _ n), if_neg hne, opened.rest, h.rest]
    · exact fun e he => hq e (List.mem_append_left _ he)
    · intro ms hm e
      apply hnew
      rw [e]
      exact hm.trans (List.prefix_append _ _)

variable (ht : t.Sound) (free : Free t top) (apart : ∀ e ∈ done, Apart e.1 (r ++ [n]))
include ht free apart

theorem Laid.room_next : Room u (top ++ r ++ [n]) := by
  rw [List.append_assoc]
  exact (h.room (free.room ht (r ++ [n])) apart).1

theorem Laid.clear_next : Clear u [] (top ++ r) := (h.room_next ht free apart).clear_above

theorem Laid.absent_next : u.node? (top ++ r ++ [n]) = none := by
  rw [List.append_assoc, (h.room (free.room ht (r ++ [n])) apart).2]
  exact free.none_below ht (List.prefix_append top _)

theorem Laid.next {v : Tree} (opened : Opened u v [] (top ++ r)) (hn : Proper n)
    (short : byteLength n ≤ nameLimit) (c : Bytes) :
    Laid t (v.put (top ++ r ++ [n]) (.file c)) top (done ++ [(r ++ [n], c)]) :=
  h.put opened (h.room_next ht free apart) (fun e he same => (apart e he).1 (same ▸ List.prefix_refl _))
    hn short c

end Next

/-! ### Paths below a directory -/

/-- The last names of the path stand below a directory that the rest of it leads to. -/
def Points (d : Disk) (path : String) (p : Place) : Prop :=
  ∃ s top ns, Trimmed s ∧ Leads d s top ∧ AllProper ns ∧ ns ≠ [] ∧ path = extend s ns ∧ p = top ++ ns

namespace Points

variable {d : Disk} {path : String} {p : Place} (h : Points d path p)
include h

theorem named : Named path := by
  obtain ⟨s, top, ns, _, _, hns, hne, rfl, _⟩ := h
  exact named_extend hns hne

theorem mono {e : Disk} (here : e.here = d.here)
    (keep : ∀ r x, d.tree.node? r = some x → e.tree.node? r = some x) : Points e path p := by
  obtain ⟨s, top, ns, hs, hl, rest⟩ := h
  exact ⟨s, top, ns, hs, hl.mono here keep, rest⟩

theorem extend {ms : List String} (hm : AllProper ms) : Points d (extend path ms) (p ++ ms) := by
  obtain ⟨s, top, ns, hs, hl, hns, hne, rfl, rfl⟩ := h
  refine ⟨s, top, ns ++ ms, hs, hl, hns.append hm, by simp [hne], ?_, by simp⟩
  rw [extend_append]

theorem leads (hd : d.Sound) (hx : d.tree.node? p = some .directory) : Leads d path p := by
  obtain ⟨s, top, ns, _, hl, hns, _, rfl, rfl⟩ := h
  exact hl.extended hd hns hx

theorem find_absent (hd : d.Sound) {n : String} (hn : Proper n) (hf : Fits (join path n))
    (hp : d.tree.node? p = some .directory) (hx : d.tree.node? (p ++ [n]) = none) (last : Bool) :
    d.find last (join path n) = .ok (.absent (p ++ [n])) := by
  obtain ⟨s, top, ns, _, leads, hns, _, rfl, rfl⟩ := h
  rw [← extend_concat] at hf ⊢
  exact leads.find_absent hd hns hn hf hp hx last

theorem makePath (hd : d.Sound) {u : String} (hu : Spells u path) (hf : Fits u)
    (clear : Clear d.tree [] p) :
    ∃ t, makePath u d = .ok () { d with tree := t } ∧ Opened d.tree t [] p := by
  obtain ⟨s, top, ns, hs, hl, hns, hne, rfl, rfl⟩ := h
  have below : Clear d.tree top ns := by
    intro ms hm
    have := clear (top ++ ms) ((List.prefix_append_right_inj top).mpr hm)
    rwa [List.nil_append] at this
  obtain ⟨t, ht, opened⟩ := makePath_opened hs hd hl hu hns hne hf below
  refine ⟨t, ht, opened.sound, ?_, ?_⟩
  · intro ms hm
    rw [List.nil_append]
    have whole := opened.opened ns (List.prefix_refl _)
    by_cases e : ms = top ++ ns
    · rwa [e]
    · exact opened.sound.directory_of_prefix whole hm e
  · intro q hq
    refine opened.rest q (fun ms hm e => hq q ?_ rfl)
    rw [e]
    exact (List.prefix_append_right_inj top).mpr hm

end Points

theorem Laid.leads {d : Disk} {u : Tree} {top q : Place} {done : List (Place × Bytes)} {s : String}
    (h : Laid d.tree u top done) (hd : d.Sound) (free : Free d.tree top) (hl : Leads d s q) :
    Leads { d with tree := u } s q :=
  hl.mono rfl (fun _ _ hx => h.keep hd.tree free hx)

theorem Laid.points {d : Disk} {u : Tree} {top q : Place} {done : List (Place × Bytes)}
    {path : String} (h : Laid d.tree u top done) (hd : d.Sound) (free : Free d.tree top)
    (hp : Points d path q) : Points { d with tree := u } path q :=
  hp.mono rfl (fun _ _ hx => h.keep hd.tree free hx)

theorem Opened.points {d : Disk} {u : Tree} {p q : Place} {ns : List String} {path : String}
    (h : Opened d.tree u p ns) (clear : Clear d.tree p ns) (hp : Points d path q) :
    Points { d with tree := u } path q :=
  hp.mono rfl (fun _ _ hx => h.keep clear hx)

theorem Laid.makePath {d : Disk} {path u : String} {t : Tree} {top : Place}
    {done : List (Place × Bytes)} (laid : Laid t d.tree top done) (hd : d.Sound)
    (target : Points d path top) (ht : t.Sound) (free : Free t top) {ns : List String} {n : String}
    (hns : AllProper ns) (hn : Proper n) (apart : ∀ e ∈ done, Apart e.1 (ns ++ [n]))
    (hu : Spells u (extend path ns)) (fits : Fits u) (fits' : Fits (extend path (ns ++ [n]))) :
    ∃ v, makePath u d = .ok () { d with tree := v } ∧ Opened d.tree v [] (top ++ ns) ∧
      Disk.find { d with tree := v } true (extend path (ns ++ [n])) =
        .ok (.absent (top ++ ns ++ [n])) ∧
      ∀ c, Laid t (v.put (top ++ ns ++ [n]) (.file c)) top (done ++ [(ns ++ [n], c)]) := by
  have one : AllProper [n] := hn.single
  have clear : Clear d.tree [] (top ++ ns) := laid.clear_next ht free apart
  obtain ⟨v, made, opened⟩ := (target.extend hns).makePath hd hu fits clear
  have absent := laid.absent_next ht free apart
  rw [← opened.absent_next] at absent
  have short : byteLength n ≤ nameLimit := fits'.names (hns.append one) n (by simp)
  refine ⟨v, made, opened, ?_, fun c => laid.next ht free apart opened hn short c⟩
  rw [extend_concat] at fits' ⊢
  exact (opened.points clear (target.extend hns)).find_absent (opened.disk hd clear) hn fits'
    (opened.opened _ (List.prefix_refl _)) absent true

end SqlMigration.Files
