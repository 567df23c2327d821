import SqlMigration.Job.Processing
import SqlMigration.Proofs.Job.Walk
import SqlMigration.Proofs.Macro.RoundTrip
import SqlMigration.Proofs.Text.Utf8

/-!
# What processing a directory leaves

Processing lays, below a free place, one file for each visible file below the
directory: an archive or a data file as it is, any other with its text changed.
-/

set_option autoImplicit false

namespace SqlMigration

open SqlMigration.Path Files Effect

def World.after (w : World) (e : Event) : World := { w with events := w.events ++ [e] }

theorem Run.emit_apply (e : Event) (w : World) : Run.emit e w = .ok () (w.after e) := rfl

theorem Run.note_apply (n : Note) (w : World) : Run.note n w = .ok () (w.after (.note n)) := rfl

def World.turned (w : World) (t : Tree) (events : List Event) : World :=
  { w with disk := { w.disk with tree := t }, events := events }

namespace Processing

open Run (contentAt contentAt_eq_some)

def altered (m : Macros) (dir : Direction) (rel : String) (text : Text) : Text :=
  match dir with
  | .expand => m.expand rel text
  | .revert => m.unexpand rel text

/-- The content of a processed file, if its text can be read and the altered text can be written. -/
def result (m : Macros) (dir : Direction) (rel name : String) (content : Bytes) : Option Bytes :=
  if isCopied name then some content
  else
    match Utf8.decode content with
    | .error _ => none
    | .ok s => (altered m dir rel (.ofChars (Newline.unify s))).encode.toOption

def applied (m : Macros) : Direction → Macros
  | .expand => m
  | .revert => m.reversed

theorem altered_eq (m : Macros) (dir : Direction) (rel : String) (text : Text) :
    altered m dir rel text = (applied m dir).expand rel text := by
  cases dir with
  | expand => rfl
  | revert => rfl

section Result

variable {m : Macros} {dir : Direction} {rel name : String} {content processed : Bytes}

theorem result_eq_some_iff (read : isCopied name = false) :
    result m dir rel name content = some processed ↔ ∃ s, Utf8.decode content = .ok s ∧
      (altered m dir rel (.ofChars (Newline.unify s))).encode = .ok processed := by
  rw [result, if_neg (by simp [read])]
  cases decoded : Utf8.decode content with
  | error fault => simp
  | ok s => simp [Effect.toOption_eq_some]

theorem result_isSome (text : isCopied name = false → ∃ s, Utf8.decode content = .ok s)
    (whole : isCopied name = false → (applied m dir).Whole rel) :
    (result m dir rel name content).isSome = true := by
  rw [result]
  cases copied : isCopied name with
  | true => rfl
  | false =>
    obtain ⟨s, decoded⟩ := text copied
    have writable : (altered m dir rel (.ofChars (Newline.unify s))).Whole := by
      rw [altered_eq]
      exact (whole copied).expand (Text.whole_ofChars _)
    rw [if_neg (by simp), decoded]
    exact writable.encode_isSome

end Result

theorem readText_ok (w : World) {path : String} {p : Place} {content : Bytes} {s : List Char}
    (h : w.disk.find true path = .ok (.node p (.file content)))
    (hs : Utf8.decode content = .ok s) :
    readText path w = .ok (.ofChars (Newline.unify s)) w := by
  have read := Run.files_ok (read_eq h)
  rw [readText, bind_ok read, hs]
  rfl

theorem writeText_ok (w : World) {path : String} {text : Text} {content : Bytes} {d : Disk}
    (encoded : text.encode = .ok content) (written : write path content w.disk = .ok () d) :
    writeText path text w = .ok () { w with disk := d } := by
  rw [writeText, encoded]
  exact Run.files_ok written

theorem copy_ok {d : Disk} {source target : String} {p q : Place} {content : Bytes}
    (hs : d.find true source = .ok (.node p (.file content)))
    (ht : d.find true target = .ok (.absent q)) (named : endsWithSlash target = false) :
    copy source target d = .ok () { d with tree := d.tree.put q (.file content) } := by
  have noDirectory : d.isDirectory target = false := by rw [Disk.isDirectory, Disk.node, ht]
  have noPlace : placeOf? d target = none := by rw [placeOf?, ht]
  have place : placeOf? d source = some p := by rw [placeOf?, hs]
  have written := write_absent content named ht
  unfold copy
  rw [bind_ok (get_apply d)]
  simp only [noDirectory, Bool.false_eq_true, if_false, place, noPlace]
  rw [bind_ok (read_eq hs)]
  exact tryCatch_ok written

def alterFile (m : Macros) (dir : Direction) (source target input output : String) : Run Unit :=
  match dir with
  | .expand => expandFile m source target input
  | .revert => revertFile m source target output

section File

variable {m : Macros} {dir : Direction} {s o : String} {ns : List String} {n : String}
  (hs : Named s) (ho : Named o) (hns : AllProper ns) (hn : Proper n)
include hs hns hn

theorem relative_extend : relative (extend s (ns ++ [n])) s = joined (ns ++ [n]) :=
  hs.drop_extend (hns.concat hn)

include ho

theorem processFile_eq :
    processFile m dir s o (relative (extend s ns) s) n = (do
      if isIgnored (← Run.disk) (extend s (ns ++ [n])) n then pure ()
      else
        Run.files (makePath (extend o ns))
        if isProcessable (← Run.disk) (extend s (ns ++ [n])) n then
          alterFile m dir (extend s (ns ++ [n])) (extend o (ns ++ [n])) s o
        else Run.files (copy (extend s (ns ++ [n])) (extend o (ns ++ [n])))) := by
  have below : relative (extend s ns) s = joined ns := hs.drop_extend hns
  have up : parent (extend o (ns ++ [n])) = extend o ns := by
    rw [extend_concat, parent_join (ho.trimmed.extend hns) hn]
  unfold processFile
  simp only [below, join_joined_name hns hn, up]
  cases dir <;> rfl

variable (m dir) in
theorem alterFile_ok (w : World) {p q : Place} {content processed : Bytes} {text : List Char}
    (found : w.disk.find true (extend s (ns ++ [n])) = .ok (.node p (.file content)))
    (absent : w.disk.find true (extend o (ns ++ [n])) = .ok (.absent q))
    (decoded : Utf8.decode content = .ok text)
    (encoded : (altered m dir (joined (ns ++ [n])) (.ofChars (Newline.unify text))).encode =
      .ok processed) :
    ∃ events,
      alterFile m dir (extend s (ns ++ [n])) (extend o (ns ++ [n])) s o w =
        .ok () (w.turned (w.disk.tree.put q (.file processed)) events) := by
  have proper : AllProper (ns ++ [n]) := hns.concat hn
  have named := (named_extend (s := o) proper (by simp)).noFinalSlash
  cases dir with
  | expand =>
    have noted := Run.note_apply (.preprocessing (extend s (ns ++ [n]))) w
    refine ⟨(w.after (.note (.preprocessing (extend s (ns ++ [n]))))).events, ?_⟩
    rw [alterFile, expandFile, bind_ok noted, bind_ok (readText_ok (w.after _) found decoded),
      relative_extend hs hns hn]
    exact writeText_ok (w.after _) encoded (write_absent _ named absent)
  | revert =>
    have noted := Run.note_apply (.postprocessing (extend o (ns ++ [n]))) w
    refine ⟨(w.after (.note (.postprocessing (extend o (ns ++ [n]))))).events, ?_⟩
    rw [alterFile, revertFile, bind_ok noted, bind_ok (readText_ok (w.after _) found decoded),
      relative_extend ho hns hn]
    exact writeText_ok (w.after _) encoded (write_absent _ named absent)

theorem processFile_hidden {w : World} (hidden : isHidden n = true) :
    processFile m dir s o (relative (extend s ns) s) n w = .ok () w := by
  have ignored : isIgnored w.disk (extend s (ns ++ [n])) n = true := by simp [isIgnored, hidden]
  rw [processFile_eq hs ho hns hn, bind_ok (Run.disk_apply w), if_pos ignored]
  rfl

theorem processFile_visible {w : World} {p q : Place} {t : Tree} {done : List (Place × Bytes)}
    {content processed : Bytes} (hd : w.disk.Sound) (source : Leads w.disk s p)
    (there : w.disk.tree.node? (p ++ (ns ++ [n])) = some (.file content))
    (fits : Fits (extend s (ns ++ [n]))) (target : Points w.disk o q)
    (fits' : Fits (extend o (ns ++ [n]))) (ht : t.Sound) (free : Free t q)
    (laid : Laid t w.disk.tree q done) (apart : ∀ e ∈ done, Apart e.1 (ns ++ [n]))
    (visible : isHidden n = false) (hr : result m dir (joined (ns ++ [n])) n content = some processed) :
    ∃ u events,
      processFile m dir s o (relative (extend s ns) s) n w = .ok () (w.turned u events) ∧
        Laid t u q (done ++ [(ns ++ [n], processed)]) := by
  have one : AllProper [n] := hn.single
  -- the directories are made first, and the file is still there afterwards
  have clear : Clear w.disk.tree [] (q ++ ns) := laid.clear_next ht free apart
  obtain ⟨v, made, opened, absent', next⟩ := laid.makePath hd target ht free hns hn apart
    (Or.inl rfl) (fits'.of_append one) fits'
  have found := source.find_present hd (by simp) fits there (by simp) true
  have found' := (opened.leads clear source).find_present (opened.disk hd clear) (by simp) fits
    (opened.keep clear there) (by simp) true
  have seen : isIgnored w.disk (extend s (ns ++ [n])) n = false := by
    simp [isIgnored, visible, Disk.isFile, Disk.node, found]
  have seen' : isProcessable { w.disk with tree := v } (extend s (ns ++ [n])) n = !isCopied n := by
    simp [isProcessable, isIgnored, visible, Disk.isFile, Disk.node, found']
  rw [processFile_eq hs ho hns hn, bind_ok (Run.disk_apply w), seen, if_neg (by simp),
    bind_ok (Run.files_ok made), bind_ok (Run.disk_apply _), seen']
  cases copied : isCopied n with
  | true =>
    rw [result, copied, if_pos rfl] at hr
    cases hr
    have named := (named_extend (s := o) (hns.append one) (by simp)).noFinalSlash
    refine ⟨_, w.events, ?_, next content⟩
    rw [if_neg (by simp)]
    exact Run.files_ok (copy_ok found' absent' named)
  | false =>
    rw [result, copied, if_neg (by simp)] at hr
    cases decoded : Utf8.decode content with
    | error f =>
      rw [decoded] at hr
      cases hr
    | ok text =>
      rw [decoded] at hr
      obtain ⟨events, run⟩ := alterFile_ok m dir hs ho hns hn
        { w with disk := { w.disk with tree := v } } found' absent' decoded (toOption_eq_some.mp hr)
      refine ⟨_, events, ?_, next _⟩
      rw [if_pos (by simp)]
      exact run

end File

/-! ### All files below a directory -/

def outcome (m : Macros) (dir : Direction) (t : Tree) (p : Place) (x : List String × String) :
    Option (Place × Bytes) :=
  if isHidden x.2 then none
  else
    ((contentAt t (p ++ (x.1 ++ [x.2]))).bind (result m dir (joined (x.1 ++ [x.2])) x.2)).map
      (fun c => (x.1 ++ [x.2], c))

theorem outcome_eq_some {m : Macros} {dir : Direction} {t : Tree} {p : Place}
    {x : List String × String} {e : Place × Bytes} :
    outcome m dir t p x = some e ↔ isHidden x.2 = false ∧ e.1 = x.1 ++ [x.2] ∧
      ∃ c, t.node? (p ++ e.1) = some (.file c) ∧ result m dir (joined e.1) x.2 c = some e.2 := by
  obtain ⟨q, c'⟩ := e
  rw [outcome]
  cases isHidden x.2 with
  | true => simp
  | false =>
    rw [if_neg (by simp), Option.map_eq_some_iff]
    constructor
    · rintro ⟨c', h, e⟩
      cases e
      obtain ⟨c, hc, hr⟩ := Option.bind_eq_some_iff.mp h
      exact ⟨rfl, rfl, c, contentAt_eq_some.mp hc, hr⟩
    · rintro ⟨-, rfl, c, hc, hr⟩
      exact ⟨c', Option.bind_eq_some_iff.mpr ⟨c, contentAt_eq_some.mpr hc, hr⟩, rfl⟩

def outcomes (m : Macros) (dir : Direction) (t : Tree) (p : Place) : List (Place × Bytes) :=
  (Run.visited t p pathLimit []).filterMap (outcome m dir t p)

def lastName (q : Place) : String := q.getLastD ""

theorem lastName_concat (ns : List String) (n : String) : lastName (ns ++ [n]) = n := by
  simp [lastName]

theorem mem_outcomes {m : Macros} {dir : Direction} {t : Tree} {s : String} {p q : Place} {c' : Bytes}
    (walkable : Run.Walkable t s p) (hx : t.node? p = some .directory) :
    (q, c') ∈ outcomes m dir t p ↔ ∃ c, t.node? (p ++ q) = some (.file c) ∧
      isHidden (lastName q) = false ∧ result m dir (joined q) (lastName q) c = some c' := by
  rw [outcomes, List.mem_filterMap]
  constructor
  · rintro ⟨⟨ns, n⟩, _, h⟩
    obtain ⟨hidden, place, c, hc, hr⟩ := outcome_eq_some.mp h
    have place : q = ns ++ [n] := place
    have last : lastName q = n := by rw [place, lastName_concat]
    rw [last]
    exact ⟨c, hc, hidden, hr⟩
  · rintro ⟨c, hc, hidden, hr⟩
    rcases List.eq_nil_or_concat q with rfl | ⟨ns, n, rfl⟩
    · rw [List.append_nil, hx] at hc
      cases hc
    · rw [List.concat_eq_append, lastName_concat] at *
      refine ⟨(ns, n), (Run.mem_visited_all walkable).mpr ⟨c, by rwa [List.append_assoc]⟩, ?_⟩
      exact outcome_eq_some.mpr ⟨hidden, rfl, c, hc, hr⟩

section Tree

variable {w : World} {s o : String} {p q : Place} {m : Macros} {dir : Direction}

theorem outcomes_apart {t : Tree} (ht : t.Sound) {before after : List (List String × String)}
    {ns : List String} {n : String} {c : Bytes} (distinct : (before ++ (ns, n) :: after).Nodup)
    (hc : t.node? (p ++ (ns ++ [n])) = some (.file c)) {e : Place × Bytes}
    (he : e ∈ before.filterMap (outcome m dir t p)) : Apart e.1 (ns ++ [n]) := by
  obtain ⟨⟨ms, k⟩, hk, hf⟩ := List.mem_filterMap.mp he
  obtain ⟨-, place, c₁, hc₁, -⟩ := outcome_eq_some.mp hf
  have hne : p ++ e.1 ≠ p ++ (ns ++ [n]) := by
    intro same
    rw [place] at same
    obtain ⟨rfl, last⟩ := List.append_inj' (List.append_cancel_left same) rfl
    cases last
    exact (List.nodup_append.mp distinct).2.2 _ hk _ List.mem_cons_self rfl
  have one := ht.not_prefix_of_files hc₁ hc hne
  have two := ht.not_prefix_of_files hc hc₁ hne.symm
  rw [List.prefix_append_right_inj] at one two
  exact ⟨one, two⟩

variable (hd : w.disk.Sound) (named : Named s) (walkable : Run.Walkable w.disk.tree s p)
  (source : Leads w.disk s p) (target : Points w.disk o q) (free : Free w.disk.tree q)
  (ready : ∀ ns n c, w.disk.tree.node? (p ++ (ns ++ [n])) = some (.file c) → isHidden n = false →
    (result m dir (joined (ns ++ [n])) n c).isSome ∧ Fits (extend o (ns ++ [n])))
include hd named walkable source target free ready

theorem processFile_step {u : Tree} {events : List Event} {before after : List (List String × String)}
    {x : List String × String} (whole : Run.visited w.disk.tree p pathLimit [] = before ++ x :: after)
    (laid : Laid w.disk.tree u q (before.filterMap (outcome m dir w.disk.tree p))) :
    ∃ v events', processFile m dir s o (relative (extend s x.1) s) x.2 (w.turned u events) =
        .ok () (w.turned v events') ∧
      Laid w.disk.tree v q ((before ++ [x]).filterMap (outcome m dir w.disk.tree p)) := by
  obtain ⟨ns, n⟩ := x
  have hm : (ns, n) ∈ Run.visited w.disk.tree p pathLimit [] := by rw [whole]; simp
  have distinct := Run.visited_nodup hd.tree p pathLimit []
  obtain ⟨c, hc⟩ := (Run.mem_visited_all walkable).mp hm
  rw [List.append_assoc] at hc
  rw [whole] at distinct
  have proper : AllProper (ns ++ [n]) := (hd.tree.proper _ _ hc).right
  rw [List.filterMap_append]
  cases hidden : isHidden n with
  | true =>
    refine ⟨u, events, processFile_hidden named target.named proper.left proper.last hidden, ?_⟩
    simpa [outcome, hidden] using laid
  | false =>
    obtain ⟨hr, fits⟩ := ready ns n c hc hidden
    obtain ⟨c', hr⟩ := Option.isSome_iff_exists.mp hr
    have new : outcome m dir w.disk.tree p (ns, n) = some (ns ++ [n], c') :=
      outcome_eq_some.mpr ⟨hidden, rfl, c, hc, hr⟩
    have there : u.node? (p ++ (ns ++ [n])) = some (.file c) := laid.keep hd.tree free hc
    obtain ⟨v, events', run, laid'⟩ := processFile_visible (w := w.turned u events) named
      target.named proper.left proper.last (laid.disk hd free) (laid.leads hd free source) there
      (walkable.fits _ _ hc) (laid.points hd free target) fits hd.tree free laid
      (fun e he => outcomes_apart hd.tree distinct hc he) hidden hr
    refine ⟨v, events', run, ?_⟩
    rwa [List.filterMap_cons, new, List.filterMap_nil]

/-- Processing a directory lays what becomes of its files below a free place. -/
theorem processTree_ok (apart : Apart p q) :
    ∃ u events, processTree m dir s o w = .ok () (w.turned u events) ∧
      Laid w.disk.tree u q (outcomes m dir w.disk.tree p) := by
  have key := Run.walkAll_ok walkable (fun top n => processFile m dir s o (relative top s) n)
    (fun done w' => ∃ u events, w' = w.turned u events ∧
      Laid w.disk.tree u q (done.filterMap (outcome m dir w.disk.tree p)))
    (by
      rintro done w' ⟨u, events, rfl, laid⟩
      exact ⟨laid.disk hd free, laid.leads hd free source, fun r => laid.outside (apart.append r)⟩)
    (by
      rintro before x after w' whole ⟨u, events, rfl, laid⟩
      obtain ⟨v, events', run, laid'⟩ :=
        processFile_step hd named walkable source target free ready whole laid
      exact ⟨_, run, v, events', rfl, laid'⟩)
    (source.directory hd) ⟨w.disk.tree, w.events, rfl, Laid.nil hd.tree q⟩
  obtain ⟨w', run, u, events, rfl, laid⟩ := key
  exact ⟨u, events, run, laid⟩

end Tree

end Processing

end SqlMigration
