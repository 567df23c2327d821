import SqlMigration.Proofs.Job.Image
import SqlMigration.Proofs.Job.Listing

/-!
# Where processing stops

A file is read before it is written. So processing that stops at a text which
cannot be read has left the file's own image alone: it has written the images of
the files before it, and made the directories for the next.
-/

set_option autoImplicit false

namespace SqlMigration

open SqlMigration.Path Files Effect

theorem Run.files_ends {α : Type} {action : Action α} {w : World} {K : α → Disk → Prop}
    {J : α → World → Prop} {E : Stop → World → Prop} (h : Ends K (fun _ _ => True) (action w.disk))
    (done : ∀ a d, K a d → J a { w with disk := d }) (refused : ∀ f v, E (.failure (.file f)) v) :
    Ends J E (Run.files action w) := by
  unfold Run.files
  generalize action w.disk = r at h
  cases h with
  | ok h => exact .ok (done _ _ h)
  | error _ => exact .error (refused _ _)

theorem Run.Sees.opened {w : World} {s : String} {p a : Place} {t u : Tree} (h : Run.Sees w s p t)
    (opened : Opened w.disk.tree u [] a) (clear : Clear w.disk.tree [] a) (apart : Apart p a)
    (events : List Event) : Run.Sees (w.turned u events) s p t where
  sound := opened.disk h.sound clear
  leads := opened.leads clear h.leads
  same r := by
    refine Eq.trans (opened.rest _ (fun ms hm e => ?_)) (h.same r)
    rw [List.nil_append] at e
    exact (apart.append r).1 (e ▸ hm)

theorem Files.BelowRoot.last_proper {d : Disk} {s : String} (h : BelowRoot d s) (hd : d.Sound)
    {ns : List String} (hns : AllProper ns) : Proper (ends (extend (d.absolute s) ns)).2 := by
  obtain ⟨r, ms, hr, hms, hne, absolute⟩ := h.absolute_eq hd
  rw [absolute, ← extend_append]
  exact proper_last hr.trimmed (hms.append hns) (by simp [hne])

namespace Processing

def unread? : Stop → Option Utf8.Fault
  | .failure (.encoding fault) => some fault
  | _ => none

theorem unread?_eq_some {e : Stop} {fault : Utf8.Fault} :
    unread? e = some fault ↔ e = .failure (.encoding fault) := by
  refine ⟨fun h => ?_, fun h => h ▸ rfl⟩
  unfold unread? at h
  split at h
  · cases h
    rfl
  · cases h

theorem readText_error (w : World) {path : String} {p : Place} {content : Bytes} {fault : Utf8.Fault}
    (h : w.disk.find true path = .ok (.node p (.file content)))
    (hf : Utf8.decode content = .error fault) :
    readText path w = .error (.failure (.encoding fault)) w := by
  have read := Run.files_ok (read_eq h)
  rw [readText, bind_ok read, hf]
  rfl

/-- A directory is found, or can be made, by the absolute form of a path. -/
structure Outlet (d : Disk) (output : String) (q : Place) : Prop where
  inner : BelowRoot d output
  toward : Toward d (d.absolute output) q

def images (m : Macros) (dir : Direction) (d : Disk) (s : String) (p : Place)
    (xs : List (List String × String)) : List (Place × Bytes) :=
  (xs.filter (fun x => !isIgnored d (extend s (x.1 ++ [x.2])) x.2)).filterMap (outcome m dir d.tree p)

/-- Processing has stopped at a file that cannot be read, in the middle of the files of a directory. Which
files come before it is a matter of the sorted order in which directories are listed. -/
structure Halted (m : Macros) (dir : Direction) (d : Disk) (s : String) (p q : Place)
    (fault : Utf8.Fault) (before after : List (List String × String)) (ns : List String) (n : String)
    (u : Tree) : Prop where
  order : Run.listed d s pathLimit [] = before ++ (ns, n) :: after
  processable : isProcessable d (extend s (ns ++ [n])) n = true
  unreadable : ∃ c, d.tree.node? (p ++ (ns ++ [n])) = some (.file c) ∧ Utf8.decode c = .error fault
  earlier : ∀ x ∈ before, isIgnored d (extend s (x.1 ++ [x.2])) x.2 = false →
    (outcome m dir d.tree p x).isSome = true
  written : ∃ v, Laid d.tree v q (images m dir d s p before) ∧ Opened v u [] (q ++ ns)
  spared : u.node? (q ++ (ns ++ [n])) = d.tree.node? (q ++ (ns ++ [n]))
  input : ∀ r, u.node? (p ++ r) = d.tree.node? (p ++ r)

section Halting

variable {m : Macros} {dir : Direction} {w : World} {input output : String} {p q : Place}

theorem mem_images {d : Disk} {s : String} {xs : List (List String × String)} {e : Place × Bytes}
    (h : e ∈ images m dir d s p xs) : e ∈ xs.filterMap (outcome m dir d.tree p) := by
  obtain ⟨x, hx, he⟩ := List.mem_filterMap.mp h
  exact List.mem_filterMap.mpr ⟨x, List.mem_of_mem_filter hx, he⟩

theorem images_concat {d : Disk} {s : String} {xs : List (List String × String)}
    {x : List String × String} :
    images m dir d s p (xs ++ [x]) = images m dir d s p xs ++ images m dir d s p [x] := by
  rw [images, List.filter_append, List.filterMap_append]
  rfl

theorem room_images {d : Disk} {s : String} {xs : List (List String × String)}
    (roomy : ∀ r c, d.tree.node? (p ++ r) = some (.file c) → isHidden (lastName r) = false →
      Room d.tree (q ++ r)) {e : Place × Bytes} (he : e ∈ images m dir d s p xs) :
    Room d.tree (q ++ e.1) := by
  obtain ⟨x, _, hx⟩ := List.mem_filterMap.mp (mem_images he)
  obtain ⟨visible, place, c, there, _⟩ := outcome_eq_some.mp hx
  refine roomy e.1 c there ?_
  rwa [place, lastName_concat]

theorem Source.found_file {d : Disk} (h : Source d input p) (hd : d.Sound) {ns : List String}
    {n : String} (proper : AllProper (ns ++ [n]))
    (seen : isIgnored d (extend (d.absolute input) (ns ++ [n])) n = false) :
    ∃ c, d.find true (extend (d.absolute input) (ns ++ [n])) = .ok (.node (p ++ (ns ++ [n])) (.file c)) ∧
      d.tree.node? (p ++ (ns ++ [n])) = some (.file c) ∧ isHidden n = false := by
  rw [isIgnored, Bool.or_eq_false_iff, Bool.not_eq_false', Disk.isFile, Disk.node] at seen
  obtain ⟨isFile, visible⟩ := seen
  cases found : d.find true (extend (d.absolute input) (ns ++ [n])) with
  | error r =>
    rw [found] at isFile
    cases isFile
  | ok r =>
    rw [found] at isFile
    obtain ⟨place, node⟩ :=
      h.leads.found_extend hd proper (by simp) (fun ms _ _ => h.unlinked ms) found
    cases r with
    | absent a => cases isFile
    | node a x =>
      cases x with
      | directory => cases isFile
      | link target => cases isFile
      | file c =>
        obtain rfl : a = p ++ (ns ++ [n]) := place
        exact ⟨c, rfl, node, visible⟩

theorem isIgnored_eq {d : Disk} {s : String} {v : World} (h : Run.Sees v s p d.tree) (hl : Leads d s p)
    (unlinked : Unlinked d.tree p) {ns : List String} {n : String} (proper : AllProper (ns ++ [n])) :
    isIgnored v.disk (extend s (ns ++ [n])) n = isIgnored d (extend s (ns ++ [n])) n := by
  rw [isIgnored, isIgnored, h.isFile_eq hl unlinked proper]

section Step

variable (sound : w.disk.Sound) (source : Source w.disk input p) (outlet : Outlet w.disk output q)
  (apart : Apart p q) {v : Tree} {done : List (Place × Bytes)} (laid : Laid w.disk.tree v q done)
  (room : ∀ e ∈ done, Room w.disk.tree (q ++ e.1))
include sound source apart laid room

theorem Source.sees (events : List Event) :
    Run.Sees (w.turned v events) (w.disk.absolute input) p w.disk.tree where
  sound := ⟨laid.sound, laid.stays room sound.here (by simp)⟩
  leads := source.leads.stays rfl (fun _ _ => laid.stays room)
  same r := laid.outside (apart.append r)

include outlet

theorem Outlet.opened {ns : List String} {n : String} (hns : AllProper ns)
    (spare : Room v (q ++ ns ++ [n])) {u : Tree} (opened : Opened v u [] (q ++ ns)) (events : List Event) :
    Run.Sees (w.turned u events) (w.disk.absolute input) p w.disk.tree ∧
      Leads (w.turned u events).disk (extend (w.disk.absolute output) ns) (q ++ ns) ∧
      (u.node? (q ++ ns ++ [n]) = none ∨ ∃ c, u.node? (q ++ ns ++ [n]) = some (.file c)) := by
  have clear : Clear v [] (q ++ ns) := spare.clear_above
  have sees : Run.Sees (w.turned u events) (w.disk.absolute input) p w.disk.tree :=
    (source.sees sound apart laid room events).opened opened clear (apart.symm.append ns).symm events
  have toward : Toward (w.turned u events).disk (w.disk.absolute output) q :=
    outlet.toward.stays rfl (fun _ _ hx plain => opened.keep clear (laid.stays room hx plain))
  refine ⟨sees, (toward.extend hns).leads sees.sound (opened.opened _ (List.prefix_refl _)), ?_⟩
  rw [opened.absent_next]
  exact spare.spare

/-- A file that is not ignored is put in its place, or a refusal stops the processing, or it cannot be read;
then no more has been done than to open its directories. -/
theorem treatFile_ends {ns : List String} {n : String} (proper : AllProper (ns ++ [n]))
    (seen : isIgnored w.disk (extend (w.disk.absolute input) (ns ++ [n])) n = false) {c : Bytes}
    (found : w.disk.find true (extend (w.disk.absolute input) (ns ++ [n])) =
      .ok (.node (p ++ (ns ++ [n])) (.file c)))
    (spare : Room v (q ++ ns ++ [n])) (events : List Event) :
    Ends (fun _ w' => ∃ u c' events', w' = w.turned (u.put (q ++ ns ++ [n]) (.file c')) events' ∧
        Opened v u [] (q ++ ns) ∧ byteLength n ≤ nameLimit ∧
        result m dir (joined (ns ++ [n])) n c = some c')
      (fun e w' => ∀ fault, e = .failure (.encoding fault) → ∃ u events', w' = w.turned u events' ∧
        Opened v u [] (q ++ ns) ∧ isCopied n = false ∧ Utf8.decode c = .error fault)
      (treatFile dir (altered m dir) (w.disk.absolute input) (w.disk.absolute output) ns n
        (w.turned v events)) := by
  have hns := proper.left
  have hn := proper.last
  have sees := source.sees sound apart laid room events
  have toward : Toward (w.turned v events).disk (w.disk.absolute output) q :=
    outlet.toward.stays rfl (fun _ _ => laid.stays room)
  have nonempty := extend_ne_empty (named_absolute outlet.inner.notRoot).nonempty hns
  have made := (toward.extend hns).makePath_ends sees.sound nonempty (outlet.inner.last_proper sound hns)
    spare.clear_above
  rw [treatFile, bind_ok (Run.disk_apply _), isIgnored_eq sees source.leads source.unlinked proper, seen,
    if_neg Bool.false_ne_true]
  refine Ends.bind (J := fun _ w₁ => ∃ u, w₁ = w.turned u events ∧ Opened v u [] (q ++ ns))
    (Run.files_ends made ?_ (by simp)) ?_
  · rintro _ _ ⟨u, rfl, opened⟩
    exact ⟨u, rfl, opened⟩
  rintro _ _ ⟨u, rfl, opened⟩
  obtain ⟨sees', leads, empty⟩ := outlet.opened sound source apart laid room hns spare opened events
  have found' := (sees'.find_eq source.leads source.unlinked proper (Or.inl rfl)).trans found
  have processable : isProcessable (w.turned u events).disk
      (extend (w.disk.absolute input) (ns ++ [n])) n = !isCopied n := by
    rw [isProcessable, isIgnored_eq sees' source.leads source.unlinked proper, seen, Bool.not_false,
      Bool.true_and]
  rw [bind_ok (Run.disk_apply _), processable, extend_concat (w.disk.absolute output)]
  cases copied : isCopied n with
  | true =>
    rw [Bool.not_true, if_neg Bool.false_ne_true]
    have other : p ++ (ns ++ [n]) ≠ q ++ ns ++ [n] := by
      intro same
      rw [List.append_assoc] at same
      exact (apart.append (ns ++ [n])).2 (same ▸ List.prefix_append q (ns ++ [n]))
    refine Run.files_ends (copy_ends leads sees'.sound hn empty found' other) ?_ (by simp)
    rintro _ _ ⟨rfl, short⟩
    exact ⟨u, c, events, rfl, opened, short, by rw [result, if_pos copied]⟩
  | false =>
    rw [Bool.not_false, if_pos rfl, bind_ok (Run.note_apply _ _)]
    cases decoded : Utf8.decode c with
    | error fault =>
      rw [bind_error (readText_error ((w.turned u events).after _) found' decoded)]
      refine .error ?_
      rintro _ ⟨⟩
      exact ⟨u, _, rfl, opened, rfl, rfl⟩
    | ok text =>
      rw [bind_ok (readText_ok ((w.turned u events).after _) found' decoded), writeText]
      cases encoded : (altered m dir (joined (ns ++ [n])) (.ofChars (Newline.unify text))).encode with
      | error stray =>
        -- the file is emptied, and then it is no fault of reading that stops the processing
        refine Ends.bind (J := fun _ _ => True)
          (Run.files_ends (write_ends leads sees'.sound hn empty _) (by simp) (by simp)) ?_
        rintro _ _ -
        exact .error (by simp)
      | ok processed =>
        refine Run.files_ends (write_ends leads sees'.sound hn empty _) ?_ (by simp)
        rintro _ _ ⟨rfl, short⟩
        exact ⟨u, _, _, rfl, opened, short, (result_eq_some_iff copied).mpr ⟨text, decoded, encoded⟩⟩

end Step

def Reached (m : Macros) (dir : Direction) (w : World) (s : String) (p q : Place)
    (before : List (List String × String)) (w' : World) : Prop :=
  ∃ v events, w' = w.turned v events ∧ Laid w.disk.tree v q (images m dir w.disk s p before) ∧
    ∀ x ∈ before, isIgnored w.disk (extend s (x.1 ++ [x.2])) x.2 = false →
      (outcome m dir w.disk.tree p x).isSome = true

section Rounds

variable (sound : w.disk.Sound) (source : Source w.disk input p) (outlet : Outlet w.disk output q)
  (apart : Apart p q)
  (roomy : ∀ r c, w.disk.tree.node? (p ++ r) = some (.file c) → isHidden (lastName r) = false →
    Room w.disk.tree (q ++ r))
include sound source outlet apart roomy

theorem reached_step {before after : List (List String × String)} {ns : List String} {n : String}
    {w₁ : World} (order : Run.listed w.disk (w.disk.absolute input) pathLimit [] = before ++ (ns, n) :: after)
    (h : Reached m dir w (w.disk.absolute input) p q before w₁) :
    Ends (fun _ => Reached m dir w (w.disk.absolute input) p q (before ++ [(ns, n)]))
      (fun e w' => ∀ fault, e = .failure (.encoding fault) → ∃ u events, w' = w.turned u events ∧
        Halted m dir w.disk (w.disk.absolute input) p q fault before after ns n u)
      (treatFile dir (altered m dir) (w.disk.absolute input) (w.disk.absolute output) ns n w₁) := by
  obtain ⟨v, events, rfl, laid, earlier⟩ := h
  have nil : AllProper [] := by decide
  have proper : AllProper (ns ++ [n]) :=
    Run.listed_proper (x := (ns, n)) sound.tree.tidy nil (by rw [order]; simp)
  have room : ∀ e ∈ images m dir w.disk (w.disk.absolute input) p before, Room w.disk.tree (q ++ e.1) :=
    fun e => room_images roomy
  have sees := source.sees sound apart laid room events
  cases seen : isIgnored w.disk (extend (w.disk.absolute input) (ns ++ [n])) n with
  | true =>
    rw [treatFile, bind_ok (Run.disk_apply _), isIgnored_eq sees source.leads source.unlinked proper, seen,
      if_pos rfl]
    refine .ok ⟨v, events, rfl, ?_, ?_⟩
    · have none : images m dir w.disk (w.disk.absolute input) p [(ns, n)] = [] := by simp [images, seen]
      rwa [images_concat, none, List.append_nil]
    · exact List.forall_mem_append.mpr ⟨earlier, by simp [seen]⟩
  | false =>
    obtain ⟨c, found, there, visible⟩ := source.found_file sound proper seen
    have distinct : (before ++ (ns, n) :: after).Nodup := order ▸ Run.listed_nodup sound.tree.nodup
    have others : ∀ e ∈ images m dir w.disk (w.disk.absolute input) p before, Apart e.1 (ns ++ [n]) :=
      fun e he => outcomes_apart sound.tree distinct there (mem_images he)
    obtain ⟨spare, same⟩ := laid.room
      (roomy (ns ++ [n]) c there (by rwa [lastName_concat])) others
    rw [← List.append_assoc] at spare
    refine (treatFile_ends sound source outlet apart laid room proper seen found spare events).imp ?_ ?_
    · rintro _ _ ⟨u, c', events', rfl, opened, short, hc⟩
      have one : outcome m dir w.disk.tree p (ns, n) = some (ns ++ [n], c') :=
        outcome_eq_some.mpr ⟨visible, rfl, c, there, hc⟩
      refine ⟨_, events', rfl, ?_, ?_⟩
      · have image : images m dir w.disk (w.disk.absolute input) p [(ns, n)] = [(ns ++ [n], c')] := by
          simp [images, seen, one]
        rw [images_concat, image]
        exact laid.put opened spare (fun e he e' => (others e he).1 (e' ▸ List.prefix_refl _)) proper.last
          short c'
      · exact List.forall_mem_append.mpr ⟨earlier, by simp [one]⟩
    · intro e w' stopped fault he
      obtain ⟨u, events', rfl, opened, text, unreadable⟩ := stopped fault he
      refine ⟨u, events', rfl, order, ?_, ⟨c, there, unreadable⟩, earlier, ⟨v, laid, opened⟩, ?_, ?_⟩
      · rw [isProcessable, seen, text]
        rfl
      · rw [← same, ← List.append_assoc]
        exact opened.absent_next
      · exact (outlet.opened sound source apart laid room proper.left spare opened events').1.same

theorem treatTree_ends :
    Ends (fun _ => Reached m dir w (w.disk.absolute input) p q
        (Run.listed w.disk (w.disk.absolute input) pathLimit []))
      (fun e w' => ∀ fault, e = .failure (.encoding fault) →
        ∃ before after ns n u events, w' = w.turned u events ∧
          Halted m dir w.disk (w.disk.absolute input) p q fault before after ns n u)
      (treatTree dir (altered m dir) (w.disk.absolute input) (w.disk.absolute output) w) := by
  rw [treatTree, Run.walkAllNames, if_neg (Fits.of_find source.found).noNul,
    ← List.nil_append (Run.listed _ _ _ _)]
  refine Run.walkNames_ends source.leads sound source.unlinked
    (Reached m dir w (w.disk.absolute input) p q) ?_ ?_ pathLimit (by decide)
    (by rw [List.nil_append, List.append_nil]) ?_
  · rintro before _ ⟨v, events, rfl, laid, _⟩
    exact source.sees sound apart laid (fun _ => room_images roomy) events
  · intro before x after w₁ order h
    refine (reached_step sound source outlet apart roomy order h).imp (fun _ _ h => h) ?_
    exact fun e w' stopped fault he => ⟨before, after, x.1, x.2, stopped fault he⟩
  · exact ⟨w.disk.tree, w.events, rfl, Laid.nil sound.tree q, by simp⟩

end Rounds

/-- Processing that stops at a text which cannot be read stops at a file between others: the images of those
before it have been written, and of its own image there are at most the directories. What stands in its place
stays, and so does the directory that is read. -/
theorem processDirectory_halts (m : Macros) (dir : Direction) {w w' : World} {input output : String}
    {p q : Place} {fault : Utf8.Fault} (genuine : w.disk.Genuine) (source : Source w.disk input p)
    (outlet : Outlet w.disk output q) (apart : Apart p q)
    (roomy : ∀ r c, w.disk.tree.node? (p ++ r) = some (.file c) → isHidden (lastName r) = false →
      Room w.disk.tree (q ++ r))
    (stopped : processDirectory m dir input output w = .error (.failure (.encoding fault)) w') :
    ∃ before after ns n u events, w' = w.turned u events ∧
      Halted m dir w.disk (w.disk.absolute input) p q fault before after ns n u := by
  rw [processDirectory_eq_treatTree genuine source.named (named_absolute outlet.inner.notRoot)] at stopped
  have ends := stopped ▸ treatTree_ends genuine.sound source outlet apart roomy
  cases ends with
  | error h => exact h fault rfl

end Halting

theorem processDirectory_stops {β : Type} {m : Macros} {dir : Direction} {w : World} {input output : String}
    {names : List String} {fault : Utf8.Fault} {f : World → β} {b : β} (genuine : w.disk.Genuine)
    (hi : Named (w.disk.absolute input)) (ho : Named (w.disk.absolute output))
    (noNul : '\x00' ∉ (w.disk.absolute input).toList)
    (files : w.disk.list (w.disk.absolute input) = ([], names))
    (run : ∃ e w', names.forM (treatFile dir (altered m dir) (w.disk.absolute input)
        (w.disk.absolute output) []) w = .error e w' ∧ (unread? e, f w') = (some fault, b)) :
    ∃ w', processDirectory m dir input output w = .error (.failure (.encoding fault)) w' ∧ f w' = b := by
  obtain ⟨e, w', run, left⟩ := run
  obtain ⟨why, left⟩ := Prod.mk.inj left
  rw [unread?_eq_some.mp why] at run
  refine ⟨w', ?_, left⟩
  rw [processDirectory_eq_treatTree genuine hi ho, treatTree, Run.walkAllNames, if_neg noNul,
    show pathLimit = 4095 + 1 from rfl, Run.walkNames, bind_ok (Run.disk_apply w), extend_nil, files]
  exact bind_error run

theorem list_of_files {d : Disk} {s : String} {p : Place} {names : List String}
    (found : d.find true s = .ok (.node p .directory)) (listing : d.tree.names p = names)
    (files : ∀ n ∈ names, d.countsAsDirectory s p n = false) : d.list s = ([], names) := by
  rw [Disk.list, found]
  dsimp only
  rw [listing, List.partition_eq_filter_filter]
  refine Prod.ext (List.filter_eq_nil_iff.mpr fun n hn => ?_) (List.filter_eq_self.mpr fun n hn => ?_)
  · rw [files n hn]
    exact Bool.false_ne_true
  · rw [Function.comp, files n hn]
    rfl

def midway : Disk where
  tree := ⟨[(["w"], .directory), (["w", "in"], .directory), (["w", "in", ".h"], .file [0xff]),
    (["w", "in", "a.sql"], .file (Utf8.encode "$T\r\n".toList)),
    (["w", "in", "b.sql"], .file [0x42, 0xff]), (["w", "in", "c.sql"], .file [0x43]),
    (["w", "out"], .directory), (["w", "out", "b.sql"], .file [0x4f])]⟩
  here := ["w"]

theorem midway_ready : midway.Genuine ∧ Source midway "in" ["w", "in"] ∧ Outlet midway "out/" ["w", "out"] ∧
    (∀ r c, midway.tree.node? (["w", "in"] ++ r) = some (.file c) → isHidden (lastName r) = false →
      Room midway.tree (["w", "out"] ++ r)) ∧
    midway.list (midway.absolute "in") = ([], [".h", "a.sql", "b.sql", "c.sql"]) := by
  have genuine : midway.Genuine :=
    Disk.genuine_of_entries (by decide) (by decide) rfl (by simp [midway])
  have source : Source midway "in" ["w", "in"] :=
    { named := by decide
      found := by decide
      unlinked := by
        intro q target there
        simpa [midway] using Tree.mem_entries_of_link there }
  refine ⟨genuine, source, ⟨by decide, ?_⟩, fun r c there _ => ?_, ?_⟩
  · exact ⟨"/w/out", ["w", "out"], [], Or.inr (by decide), leads_of_find (by decide), by decide,
      by decide, rfl⟩
  · have known := Tree.forall_below (by simp)
      (P := fun r x => x = .directory ∨ (r.length = 1 ∧
        midway.tree.node? (["w", "out"] ++ r) ∈ [none, some (.file [0x4f])])) (by decide) r _ there
    rcases known with h | ⟨one, spare⟩
    · cases h
    · obtain ⟨n, rfl⟩ := List.length_eq_one_iff.mp one
      refine Room.of_directory genuine.sound.tree rfl ?_
      exact (List.mem_pair.mp spare).imp id (fun h => ⟨_, h⟩)
  · exact list_of_files source.found (List.mergeSort_of_pairwise (by decide)) (by decide)

theorem processDirectory_halts_midway :
    ∃ w', processDirectory [("*.sql", [("$T", "orders")])] .expand "in" "out/" (.ofDisk midway) =
        .error (.failure (.encoding ⟨1, 1, 0xff, .start⟩)) w' ∧
      w'.disk.tree.node? ["w", "out", "a.sql"] = some (.file (Utf8.encode "orders\n".toList)) ∧
      w'.disk.tree.node? ["w", "out", "b.sql"] = some (.file [0x4f]) ∧
      w'.disk.tree.node? ["w", "out", "c.sql"] = none ∧
      ∀ r, w'.disk.tree.node? (["w", "in"] ++ r) = midway.tree.node? (["w", "in"] ++ r) := by
  obtain ⟨genuine, source, outlet, roomy, files⟩ := midway_ready
  obtain ⟨w', stopped, _⟩ : ∃ w', processDirectory [("*.sql", [("$T", "orders")])] .expand "in" "out/"
      (.ofDisk midway) = .error (.failure (.encoding ⟨1, 1, 0xff, .start⟩)) w' ∧ () = () :=
    processDirectory_stops genuine source.named (named_absolute outlet.inner.notRoot)
      (Fits.of_find source.found).noNul files
      (error_of_run'_value (by decide +kernel))
  obtain ⟨before, after, ns, n, u, events, rfl, halted⟩ := processDirectory_halts _ .expand
    (w := .ofDisk midway) genuine source outlet (by decide) roomy stopped
  -- only one of the files has this fault
  have place : ns ++ [n] = ["b.sql"] := by
    obtain ⟨c, there, unreadable⟩ := halted.unreadable
    have known := Tree.forall_below (by simp)
      (P := fun r x => r = ["b.sql"] ∨ x = .directory ∨
        ∃ c ∈ [[0xff], Utf8.encode "$T\r\n".toList, [0x43]], x = .file c ∧
          Utf8.decode c ≠ .error ⟨1, 1, 0xff, .start⟩) (by decide +kernel) _ _ there
    rcases known with h | h | ⟨_, _, h, other⟩
    · exact h
    · cases h
    · cases h
      exact absurd unreadable other
  obtain ⟨rfl, last⟩ := List.append_inj' (show ns ++ [n] = [] ++ ["b.sql"] from place) rfl
  obtain rfl : n = "b.sql" := List.singleton_inj.mp last
  have first : before = [([], ".h"), ([], "a.sql")] := by
    have order : Run.listed midway (midway.absolute "in") pathLimit [] = before ++ ([], "b.sql") :: after :=
      halted.order
    rw [show pathLimit = 4095 + 1 from rfl, Run.listed, extend_nil, files] at order
    rcases before with _ | ⟨_, _ | ⟨_, _ | ⟨_, _ | _⟩⟩⟩ <;> simp at order
    obtain ⟨rfl, rfl, _⟩ := order
    rfl
  subst first
  obtain ⟨v, laid, opened⟩ := halted.written
  have laid' : Laid midway.tree v ["w", "out"] [(["a.sql"], Utf8.encode "orders\n".toList)] := by
    have image : images [("*.sql", [("$T", "orders")])] .expand midway (midway.absolute "in") ["w", "in"]
        [([], ".h"), ([], "a.sql")] = [(["a.sql"], Utf8.encode "orders\n".toList)] := by decide +kernel
    exact image ▸ laid
  refine ⟨_, stopped, ?_, halted.spared, ?_, halted.input⟩
  · exact opened.absent_next.trans (laid'.files (_, _) List.mem_cons_self)
  · exact opened.absent_next.trans (laid'.rest _ (by decide))

def waylaid : Disk where
  tree := ⟨[(["w"], .directory), (["w", "in"], .directory), (["w", "in", "a.sql"], .file [0x41]),
    (["w", "in", "b.sql"], .file [0xff]), (["w", "in", "c.sql"], .file [0x43]), (["w", "out"], .directory),
    (["w", "out", "a.sql"], .link "../in/c.sql")]⟩
  here := ["w"]

def crossed : Disk where
  tree := ⟨[(["w"], .directory), (["w", "in"], .directory), (["w", "in", "a.sql"], .file [0x41, 0x0d, 0x0a]),
    (["w", "in", "b.sql"], .file [0xff]), (["w", "o"], .directory), (["w", "o", "s"], .directory),
    (["w", "l"], .link "o/s")]⟩
  here := ["w"]

/-- Before an unreadable file is met, the directory that is read may have been changed: through a link at the
place of an image, or since the absolute form of the other path names this directory itself. -/
theorem processDirectory_halts_astray :
    (waylaid.find true "in" = .ok (.node ["w", "in"] .directory) ∧
      waylaid.find true "out" = .ok (.node ["w", "out"] .directory) ∧
      ∃ fault w', processDirectory [] .expand "in" "out" (.ofDisk waylaid) =
          .error (.failure (.encoding fault)) w' ∧
        w'.disk.tree.node? ["w", "in", "c.sql"] = some (.file [0x41])) ∧
    ((∃ e, makePath "l/../in" crossed = .ok () e ∧ e.tree.node? ["w", "o", "in"] = some .directory) ∧
      ∃ fault w', processDirectory [] .expand "in" "l/../in" (.ofDisk crossed) =
          .error (.failure (.encoding fault)) w' ∧
        w'.disk.tree.node? ["w", "o", "in"] = none ∧
        w'.disk.tree.node? ["w", "in", "a.sql"] = some (.file [0x41, 0x0a])) := by
  refine ⟨⟨by decide +kernel, by decide +kernel, ?_⟩, ?_, ?_⟩
  · have genuine : waylaid.Genuine :=
      Disk.genuine_of_entries (by decide) (by decide +kernel) rfl (by simp [waylaid])
    have files : waylaid.list (waylaid.absolute "in") = ([], ["a.sql", "b.sql", "c.sql"]) :=
      list_of_files (p := ["w", "in"]) (by decide +kernel) (List.mergeSort_of_pairwise (by decide +kernel))
        (by decide +kernel)
    exact ⟨⟨0, 1, 0xff, .start⟩, processDirectory_stops (w := .ofDisk waylaid) genuine (by decide +kernel)
      (by decide +kernel) (by decide +kernel) files (error_of_run'_value (by decide +kernel))⟩
  · obtain ⟨_, e, made, there⟩ := ok_of_run' (x := makePath "l/../in") (s := crossed)
      (f := fun e => e.tree.node? ["w", "o", "in"]) (b := some .directory) (by decide +kernel)
    exact ⟨e, made, there⟩
  · have genuine : crossed.Genuine :=
      Disk.genuine_of_entries (by decide) (by decide +kernel) rfl (by simp [crossed])
    have files : crossed.list (crossed.absolute "in") = ([], ["a.sql", "b.sql"]) :=
      list_of_files (p := ["w", "in"]) (by decide +kernel) (List.mergeSort_of_pairwise (by decide +kernel))
        (by decide +kernel)
    obtain ⟨w', stopped, left⟩ : ∃ w', processDirectory [] .expand "in" "l/../in" (.ofDisk crossed) =
          .error (.failure (.encoding ⟨0, 1, 0xff, .start⟩)) w' ∧
        (w'.disk.tree.node? ["w", "o", "in"], w'.disk.tree.node? ["w", "in", "a.sql"]) =
          (none, some (.file [0x41, 0x0a])) :=
      processDirectory_stops genuine (by decide +kernel) (by decide +kernel) (by decide +kernel) files
        (error_of_run'_value (by decide +kernel))
    exact ⟨_, w', stopped, congrArg Prod.fst left, congrArg Prod.snd left⟩

end Processing

end SqlMigration
