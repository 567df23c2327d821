import SqlMigration.Proofs.Job.Layout
import SqlMigration.Proofs.Job.Polling
import SqlMigration.Proofs.Job.Transfer
import SqlMigration.Proofs.Macro.RoundTrip

/-!
# What a whole run delivers

A run with macros lays five times: the expanded files in the scratch directory,
then in the bucket, their copies beside them, the copies back in the scratch
directory, and what becomes of those in the output directory. Each stage names a
file by its own piece of path text. If the service copies the files as they are,
the names agree all the way through, and the output directory holds one file for
each visible file of the input.
-/

set_option autoImplicit false

namespace SqlMigration.Batch

open SqlMigration.Path Files Effect
open Processing (outcomes result isHidden isCopied lastName)

/-! ### The stages -/

section Stages

variable {b : Batch} {m : Macros} {w : World} {place : Place} (hm : b.macros = some m)
  (hd : w.disk.Sound) (placed : b.Placed w.disk place)
include hm hd

theorem preprocess_lays {q : Place} (named : Named (w.disk.absolute b.input))
    (walkable : Run.Walkable w.disk.tree (w.disk.absolute b.input) place)
    (source : Leads w.disk (w.disk.absolute b.input) place)
    (target : Points w.disk (w.disk.absolute b.localInput) q) (free : Free w.disk.tree q)
    (apart : Apart place q)
    (ready : ∀ ns n c, w.disk.tree.node? (place ++ (ns ++ [n])) = some (.file c) →
      isHidden n = false → (result m .expand (joined (ns ++ [n])) n c).isSome ∧
        Fits (extend (w.disk.absolute b.localInput) (ns ++ [n]))) :
    ∃ t events, b.preprocess w = .ok () (w.turned t events) ∧
      Laid w.disk.tree t q (outcomes m .expand w.disk.tree place) := by
  obtain ⟨t, events, run, laid⟩ := Processing.processTree_ok
    (w := w.after (.note .preprocessingStarted)) hd named walkable source target free ready apart
  refine ⟨t, events, ?_, laid⟩
  rw [preprocess, hm]
  dsimp only
  rw [bind_ok (Run.note_apply _ w), Processing.processDirectory, bind_ok (Run.disk_apply _)]
  exact run

include placed

theorem preprocess_ok (walkable : Run.Walkable w.disk.tree (w.disk.absolute b.input) place)
    (distinct : name b.input ≠ ".tmp_processed")
    (fresh : w.disk.tree.node? (scratchAt place) = none)
    (ready : ∀ ns n c, w.disk.tree.node? (place ++ (ns ++ [n])) = some (.file c) →
      isHidden n = false → (result m .expand (joined (ns ++ [n])) n c).isSome ∧
        Fits (extend (w.disk.absolute b.localInput) (ns ++ [n]))) :
    ∃ t events, b.preprocess w = .ok () (w.turned t events) ∧
      Laid w.disk.tree t (outgoingAt place) (outcomes m .expand w.disk.tree place) := by
  have isSome : b.macros.isSome = true := by rw [hm]; rfl
  have one : AllProper ["input"] := proper_input.single
  have target := placed.points_absolute hd one
  rw [← outgoing_eq isSome] at target
  exact preprocess_lays hm hd (placed.named_absolute hd) walkable (placed.leads_absolute hd) target
    (placed.free_scratch hd fresh ["input"]) (placed.apart_scratch distinct ["input"]) ready

theorem postprocess_ok {out : String} {top : Place} (hout : b.output = .path out)
    (walkable : Run.Walkable w.disk.tree (w.disk.absolute b.scratchOutput) (incomingAt place))
    (there : w.disk.tree.node? (incomingAt place) = some .directory)
    (target : Points w.disk (w.disk.absolute out) top) (free : Free w.disk.tree top)
    (apart : Apart (incomingAt place) top)
    (ready : ∀ ns n c, w.disk.tree.node? (incomingAt place ++ (ns ++ [n])) = some (.file c) →
      isHidden n = false → (result m .revert (joined (ns ++ [n])) n c).isSome ∧
        Fits (extend (w.disk.absolute out) (ns ++ [n]))) :
    ∃ t events, b.postprocess w = .ok () (w.turned t events) ∧
      Laid w.disk.tree t top (outcomes m .revert w.disk.tree (incomingAt place)) := by
  have one : AllProper ["output"] := proper_output.single
  have source := placed.points_absolute hd one
  rw [← incoming_eq] at source
  obtain ⟨t, events, run, laid⟩ := Processing.processTree_ok
    (w := w.after (.note .postprocessingStarted)) hd source.named walkable (source.leads hd there)
    target free ready apart
  refine ⟨t, events, ?_, laid⟩
  rw [postprocess, hm, hout]
  dsimp only
  rw [bind_ok (Run.note_apply _ w), Given.needed, bind_ok (pure_apply _ _),
    Processing.processDirectory, bind_ok (Run.disk_apply _)]
  exact run

omit hm in
theorem cleanUp_ok (fits : Fits b.scratch)
    (there : w.disk.tree.node? (scratchAt place) = some .directory)
    (kept : b.Placed { w.disk with tree := w.disk.tree.clear (scratchAt place) } place) :
    ∃ t events, b.cleanUp w = .ok () (w.turned t events) ∧
      ∀ p, ¬ scratchAt place <+: p → t.node? p = w.disk.tree.node? p := by
  have nil : AllProper [] := fun n hn => absurd hn List.not_mem_nil
  have text : join b.base ".tmp_processed" = b.scratch := rfl
  have leads : Leads w.disk b.scratch (scratchAt place) := by
    have := placed.points nil
    rw [List.append_nil, extend_cons, extend_nil, text] at this
    exact this.leads hd there
  have found : w.disk.exists? b.scratch = true := by
    refine leads.exists? ?_ fits
    rw [← text]
    exact (named_join proper_tmp).nonempty
  have removed : removeTree b.scratch w.disk =
      .ok () { w.disk with tree := without w.disk.tree (scratchAt place) } :=
    removeTree_ok (trimmed_parent b.input) proper_tmp placed.leads_parent kept.leads_parent fits there
  rw [cleanUp, bind_ok (Run.disk_apply w), found, Bool.and_true]
  cases b.settings.plan.cleanUp with
  | false => exact ⟨w.disk.tree, w.events, rfl, fun _ _ => rfl⟩
  | true =>
    refine ⟨without w.disk.tree (scratchAt place),
      ((w.after (.note (.cleaning b.scratch))).after (.note .cleaned)).events, ?_,
      fun p hp => node?_without _ hp⟩
    have gone := Run.files_ok (w := w.after (.note (.cleaning b.scratch))) removed
    rw [if_pos rfl, bind_ok (Run.note_apply _ w), bind_ok gone]
    rfl

end Stages

theorem shelf_job {s : Storage} {bucket path : String} {c : Converter}
    {files : List (Place × Bytes)} (nonempty : bucket ≠ "") (noSlash : '/' ∉ bucket.toList)
    (hp : path ≠ "") (relative : isAbsolute path = false) (same : ∀ n x, c.convert n x = x)
    (no : c.extra = []) (hb : bucket ∈ Table.keys s.buckets) (hn : (Table.keys s.buckets).Nodup)
    (ho : (Table.keys (s.objects bucket)).Nodup)
    (clean : ∀ name, Storage.startsWith path name = true →
      Table.get? (s.objects bucket) name = none)
    (proper : ∀ e ∈ files, AllProper e.1 ∧ e.1 ≠ []) (distinct : (files.map (·.1)).Nodup) :
    let after := c.act (join (join ("gs://" ++ bucket) path) "input")
      (join (join ("gs://" ++ bucket) path) "output")
      (s.storeAll bucket (Transfer.objectsOf (join path "input") files))
    Storage.Shelf (after.objects bucket) (join path "output") files ∧
      bucket ∈ Table.keys after.buckets ∧ (Table.keys (after.objects bucket)).Nodup := by
  intro after
  have keys := Storage.keys_storeAll hb (Transfer.objectsOf (join path "input") files)
  have objects : after.objects bucket = c.acted (join path "input") (join path "output")
      (Table.putAll (s.objects bucket) (Transfer.objectsOf (join path "input") files)) := by
    have inBucket : ∀ n, Proper n →
        Converter.below? bucket (join (join ("gs://" ++ bucket) path) n) = some (join path n) := by
      intro n hn
      have relative' : isAbsolute (join path n) = false := by rw [isAbsolute_join hn, relative]
      rw [join_assoc hp relative hn, Converter.below?_join bucket relative',
        Converter.endsWithSlash_bucket nonempty noSlash]
      rfl
    rw [Converter.objects_act c _ _ (keys ▸ hn) (keys ▸ hb), Converter.objects_actOn, if_pos rfl,
      inBucket "input" proper_input, inBucket "output" proper_output, Storage.objects_storeAll]
  have below : ∀ n name, Proper n → Storage.startsWith (join path n) name = true →
      Table.get? (s.objects bucket) name = none := fun n name hn h =>
    clean name (Storage.startsWith_trans (Converter.startsWith_join hn.not_isAbsolute) h)
  have shelf := Transfer.shelf_stored (fun e he => (proper e he).1) distinct
    (fun name => below "input" name proper_input)
  have stored : (Table.keys (Table.putAll (s.objects bucket)
      (Transfer.objectsOf (join path "input") files))).Nodup := Table.nodup_putAll ho _
  refine ⟨?_, ?_, ?_⟩
  · rw [objects]
    refine Converter.shelf_acted (named_join proper_input) (named_join proper_output) proper shelf same
      no stored ?_
    intro name hname
    -- nothing has been stored below the target path so far
    cases hg : Table.get? (Table.putAll (s.objects bucket)
      (Transfer.objectsOf (join path "input") files)) name with
    | none => rfl
    | some x =>
      rcases Table.mem_putAll (Table.mem_of_get? hg) with old | new
      · have gone := below "output" name proper_output hname
        rw [(Table.mem_iff_get? ho _ _).mp old] at gone
        cases gone
      · obtain ⟨e, he, eq⟩ := List.mem_map.mp new
        cases eq
        have under := Storage.startsWith_extend (join path "input") (proper e he).1
        rw [Converter.startsWith_join_apart proper_output proper_input (by decide) (by decide)
          hname] at under
        cases under
  · rw [Converter.keys_act, keys]
    exact hb
  · rw [objects]
    exact Converter.nodup_acted c _ _ stored

theorem create_eq (b : Batch) (source target : String) {w : World} {c : Converter}
    (hc : w.service.converter = some c) {job : String} (made : w.service.created = .ok job) :
    ∃ events, b.create source target w = .ok job (w.stored (c.act source target w.storage) events) := by
  refine ⟨((w.after (.requested (.create (b.request w.now source target)))).after
    (.answered (Message.textField "name" job))).events, ?_⟩
  rw [create, bind_ok (get_apply w), bind_ok (Run.emit_apply _ _), hc, made]
  rfl

theorem start_of_stages {b : Batch} {job link path : String}
    {w w₁ w₂ w₃ w₄ w₅ w₆ w₇ : World} (preprocessed : b.preprocess w = .ok () w₁)
    (hp : b.storagePath w₁.now w₁.uuid = path)
    (uploaded : Transfer.upload b.localInput b.bucket (join path "input")
      (w₁.after (.note .uploadStarted)) = .ok () w₂)
    (created : b.create (join (join ("gs://" ++ b.bucket) path) "input")
      (join (join ("gs://" ++ b.bucket) path) "output") (w₂.after (.note .jobStarted)) = .ok job w₃)
    (finished : b.wait job patience w₃ = .ok () w₄)
    (downloaded : Transfer.download b.localOutput b.bucket (join path "output")
      (w₄.after (.note .outputsSought)) = .ok () w₅)
    (postprocessed : b.postprocess w₅ = .ok () w₆)
    (cleaned : b.cleanUp (w₆.after (.note (.postprocessed b.output.text))) = .ok () w₇)
    (hl : b.link? job = some link) :
    b.start w = .ok () (((w₇.after (.note .finished)).after (.note (.details link))).after
      (.note .thanks)) := by
  have found : b.newStoragePath w₁ = .ok path w₁ := by
    rw [← hp]
    rfl
  have linked : b.link job (w₇.after (.note .finished)) = .ok link (w₇.after (.note .finished)) := by
    rw [Batch.link, hl]
    rfl
  rw [start, bind_ok preprocessed, bind_ok found, bind_ok (Run.note_apply _ _), bind_ok uploaded,
    bind_ok (Run.note_apply _ _), bind_ok created, bind_ok finished, bind_ok (Run.note_apply _ _),
    bind_ok downloaded, bind_ok postprocessed, bind_ok (Run.note_apply _ _), bind_ok cleaned,
    bind_ok (Run.note_apply _ _), bind_ok linked]
  rfl

/-! ### What a run needs -/

/-- A file below a place whose own name is not hidden. -/
def Visible (t : Tree) (place q : Place) (c : Bytes) : Prop :=
  t.node? (place ++ q) = some (.file c) ∧ isHidden (lastName q) = false

/-- The disk before a run that starts afresh: the input directory has no links in it or on the way to
it, there is no scratch directory, and the output directory can be made elsewhere. -/
structure Prepared (b : Batch) (m : Macros) (out : String) (d : Disk) (place top : Place) : Prop where
  macros : b.macros = some m
  output : b.output = .path out
  sound : d.Sound
  placed : b.Placed d place
  unlinked : Unlinked d.tree place
  distinct : name b.input ≠ ".tmp_processed"
  fresh : d.tree.node? (scratchAt place) = none
  creatable : Creatable d out top
  outside : ¬ scratchAt place <+: top
  inhabited : ∃ q c, Visible d.tree place q c

/-- The storage and the service of a run whose job copies the files as they are and is finished in
time. -/
structure Served (b : Batch) (w : World) : Prop where
  bucketName : b.bucket ≠ "" ∧ '/' ∉ b.bucket.toList
  accessible : b.bucket ∉ w.storage.forbidden
  buckets : (Table.keys w.storage.buckets).Nodup
  objects : (Table.keys (w.storage.objects b.bucket)).Nodup
  unused : ∀ o ∈ w.storage.objects b.bucket,
    Storage.startsWith (b.storagePath w.now w.uuid) o.1 = false
  creates : ∃ job, w.service.created = .ok job ∧ '/' ∈ job.toList
  copies : ∃ c, w.service.converter = some c ∧ (∀ n x, c.convert n x = x) ∧ c.extra = []
  finishes : ∃ (n : Nat) (last : JobState), w.service.reported n = .ok last ∧ last.isFinal = true ∧
    (∀ k, k < n → ∃ state, w.service.reported k = .ok state) ∧ n * pace w < patience

/-- The directories that a run writes files below, each as it is spelled there. -/
def routes (b : Batch) (d : Disk) (out : String) : List String :=
  [b.localInput, d.absolute b.localInput, b.scratchOutput, d.absolute b.scratchOutput, d.absolute out]

/-- The texts of the files can be read, macros and values can be written, and all paths of the run keep
to the limits for paths. -/
structure Readable (b : Batch) (m : Macros) (out : String) (d : Disk) (place : Place) : Prop where
  texts : ∀ q c, Visible d.tree place q c → isCopied (lastName q) = false →
    ∃ s, Utf8.decode c = .ok s
  values : ∀ q c, Visible d.tree place q c → isCopied (lastName q) = false →
    m.Whole (joined q) ∧ m.reversed.Whole (joined q)
  walked : ∀ q x, d.tree.node? (place ++ q) = some x → Fits (extend (d.absolute b.input) q)
  laid : ∀ q c, Visible d.tree place q c → ∀ s ∈ b.routes d out, Fits (extend s q)

/-! ### What a run leaves -/

/-- What the content of a visible file comes to in the end, if it can be written on the way. -/
def delivered (m : Macros) (q : Place) (c : Bytes) : Option Bytes :=
  if isCopied (lastName q) then some c
  else
    match Utf8.decode c with
    | .error _ => none
    | .ok s =>
      match (m.expand (joined q) (.ofChars (Newline.unify s))).chars with
      | .error _ => none
      | .ok sent => (m.unexpand (joined q) (.ofChars (Newline.unify sent))).encode.toOption

theorem result_revert {m : Macros} {q : Place} {c c₁ : Bytes}
    (h : result m .expand (joined q) (lastName q) c = some c₁) :
    result m .revert (joined q) (lastName q) c₁ = delivered m q c := by
  cases copied : isCopied (lastName q) with
  | true =>
    simp only [result, copied, if_true, Option.some.injEq] at h
    simp only [result, delivered, copied, if_true, h]
  | false =>
    obtain ⟨s, decoded, encoded⟩ := (Processing.result_eq_some_iff copied).mp h
    obtain ⟨sent, expanded, rfl⟩ := Text.encode_eq_ok_iff.mp encoded
    have chars : (m.expand (joined q) (.ofChars (Newline.unify s))).chars = .ok sent :=
      Text.chars_eq_ok_iff.mpr expanded
    rw [result, delivered, copied, if_neg (by simp), if_neg (by simp), Utf8.decode_encode, decoded]
    simp only [chars]
    rfl

section Readable

variable {b : Batch} {m : Macros} {out : String} {d : Disk} {place q : Place} {c : Bytes}

theorem Readable.result_isSome (h : b.Readable m out d place) (visible : Visible d.tree place q c) :
    (result m .expand (joined q) (lastName q) c).isSome = true :=
  Processing.result_isSome (h.texts q c visible) (fun read => (h.values q c visible read).1)

theorem Readable.delivered_isSome (h : b.Readable m out d place) (visible : Visible d.tree place q c) :
    (delivered m q c).isSome = true := by
  obtain ⟨c₁, expanded⟩ := Option.isSome_iff_exists.mp (h.result_isSome visible)
  rw [← result_revert expanded]
  refine Processing.result_isSome (fun read => ?_) (fun read => (h.values q c visible read).2)
  obtain ⟨_, _, encoded⟩ := (Processing.result_eq_some_iff read).mp expanded
  obtain ⟨sent, _, rfl⟩ := Text.encode_eq_ok_iff.mp encoded
  exact ⟨sent, Utf8.decode_encode sent⟩

theorem Readable.ready (h : b.Readable m out d place) (ns : List String) (n : String) (c : Bytes)
    (there : d.tree.node? (place ++ (ns ++ [n])) = some (.file c)) (visible : isHidden n = false) :
    (result m .expand (joined (ns ++ [n])) n c).isSome = true ∧
      Fits (extend (d.absolute b.localInput) (ns ++ [n])) := by
  have visible : Visible d.tree place (ns ++ [n]) c :=
    ⟨there, by rw [Processing.lastName_concat]; exact visible⟩
  have some := h.result_isSome visible
  rw [Processing.lastName_concat] at some
  exact ⟨some, h.laid _ c visible _ (by simp [routes])⟩

end Readable

section Run

variable {b : Batch} {m : Macros} {out : String} {d : Disk} {place top : Place}
  (prepared : b.Prepared m out d place top) (readable : b.Readable m out d place)
include prepared

theorem Prepared.apart_top (ns : List String) : Apart (scratchAt place ++ ns) top := by
  refine Apart.append ⟨prepared.outside, fun below => ?_⟩ ns
  have absent := (prepared.creatable.free prepared.sound).absent
  rcases List.prefix_concat_iff.mp below with same | below
  · exact prepared.outside (same ▸ List.prefix_refl _)
  · have dir := prepared.placed.directory_parent prepared.sound
    by_cases e : top = place.dropLast
    · rw [e, dir] at absent
      cases absent
    · rw [prepared.sound.tree.directory_of_prefix dir below e] at absent
      cases absent

theorem Prepared.free_outgoing : Free d.tree (outgoingAt place) :=
  prepared.placed.free_scratch prepared.sound prepared.fresh ["input"]

include readable

theorem Prepared.walkable : Run.Walkable d.tree (d.absolute b.input) place where
  sound := prepared.sound.tree
  nonempty := (prepared.placed.named_absolute prepared.sound).nonempty
  unlinked := prepared.unlinked
  fits := readable.walked

theorem Prepared.mem_outcomes {q : Place} {c₁ : Bytes} :
    (q, c₁) ∈ outcomes m .expand d.tree place ↔
      ∃ c, Visible d.tree place q c ∧ result m .expand (joined q) (lastName q) c = some c₁ := by
  rw [Processing.mem_outcomes (prepared.walkable readable) (prepared.placed.directory prepared.sound)]
  constructor
  · rintro ⟨c, hc, visible, hr⟩
    exact ⟨c, ⟨hc, visible⟩, hr⟩
  · rintro ⟨c, ⟨hc, visible⟩, hr⟩
    exact ⟨c, hc, visible, hr⟩

theorem Prepared.fits_outcome {e : Place × Bytes} (he : e ∈ outcomes m .expand d.tree place)
    {s : String} (hs : s ∈ b.routes d out) : Fits (extend s e.1) := by
  obtain ⟨c, visible, _⟩ := (prepared.mem_outcomes readable).mp he
  exact readable.laid e.1 c visible s hs

theorem Prepared.exists_outcome : ∃ e ∈ outcomes m .expand d.tree place, e.1 ≠ [] := by
  obtain ⟨q, c, visible⟩ := prepared.inhabited
  obtain ⟨c₁, hr⟩ := Option.isSome_iff_exists.mp (readable.result_isSome visible)
  refine ⟨(q, c₁), (prepared.mem_outcomes readable).mpr ⟨c, visible, hr⟩, ?_⟩
  rintro rfl
  have := visible.1
  rw [List.append_nil, prepared.placed.directory prepared.sound] at this
  cases this

theorem Prepared.fits_route {s : String} (hs : s ∈ b.routes d out) : Fits s := by
  obtain ⟨q, c, visible⟩ := prepared.inhabited
  have proper := (prepared.sound.tree.proper _ _ visible.1).right
  exact (readable.laid q c visible s hs).of_extend proper

theorem Prepared.fits_scratch : Fits b.scratch := by
  have isSome : b.macros.isSome = true := by rw [prepared.macros]; rfl
  have one : AllProper ["input"] := proper_input.single
  have fits := prepared.fits_route readable (s := b.localInput) (by simp [routes])
  rw [localInput, if_pos isSome, ← extend_nil (join b.scratch "input"), ← extend_cons] at fits
  exact fits.of_extend one

/-! #### After the expansion -/

section Expanded

variable {t₁ : Tree}
  (expanded : Laid d.tree t₁ (outgoingAt place) (outcomes m .expand d.tree place))
include expanded

omit readable in
theorem Prepared.sound_expanded : Disk.Sound { d with tree := t₁ } :=
  expanded.disk prepared.sound prepared.free_outgoing

omit readable in
theorem Prepared.placed_expanded : b.Placed { d with tree := t₁ } place :=
  prepared.placed.mono (fun _ _ hx => expanded.keep prepared.sound.tree prepared.free_outgoing hx)

theorem Prepared.directory_outgoing : t₁.node? (outgoingAt place) = some .directory := by
  obtain ⟨e, he, hne⟩ := prepared.exists_outcome readable
  exact expanded.above he (List.prefix_append _ _) (fun same => hne (List.self_eq_append_right.mp same))

theorem Prepared.walkable_outgoing : Run.Walkable t₁ (d.absolute b.localInput) (outgoingAt place) := by
  have isSome : b.macros.isSome = true := by rw [prepared.macros]; rfl
  have one : AllProper ["input"] := proper_input.single
  have target := prepared.placed.points_absolute prepared.sound one
  rw [← outgoing_eq isSome] at target
  exact Run.walkable_of_laid prepared.sound.tree prepared.free_outgoing expanded target.named
    (fun e he => prepared.fits_outcome readable he (by simp [routes]))

theorem Prepared.mem_outgoing {e : Place × Bytes} :
    e ∈ Run.filesBelow t₁ (outgoingAt place) ↔ e ∈ outcomes m .expand d.tree place := by
  rw [Run.mem_filesBelow (prepared.walkable_outgoing readable expanded)
    (prepared.directory_outgoing readable expanded)]
  exact expanded.file_iff prepared.sound.tree prepared.free_outgoing

omit readable in
theorem Prepared.free_incoming : Free t₁ (incomingAt place) := by
  refine expanded.free ?_ (prepared.placed.free_scratch prepared.sound prepared.fresh ["output"])
  rw [outgoingAt, incomingAt, Apart, List.prefix_append_right_inj, List.prefix_append_right_inj]
  decide

omit readable in
theorem Prepared.free_top : Free t₁ top :=
  expanded.free (prepared.apart_top ["input"]) (prepared.creatable.free prepared.sound)

/-! #### After the download -/

section Returned

variable {t₂ : Tree} {done : List (Place × Bytes)} (returned : Laid t₁ t₂ (incomingAt place) done)
  (same : ∀ e, e ∈ done ↔ e ∈ outcomes m .expand d.tree place)
include returned

omit readable in
theorem Prepared.keep_returned {p : Place} {x : Node} (hx : d.tree.node? p = some x) :
    t₂.node? p = some x :=
  returned.keep expanded.sound (prepared.free_incoming expanded)
    (expanded.keep prepared.sound.tree prepared.free_outgoing hx)

omit readable in
theorem Prepared.sound_returned : Disk.Sound { d with tree := t₂ } :=
  ⟨returned.sound, prepared.keep_returned expanded returned prepared.sound.here⟩

omit readable in
theorem Prepared.placed_returned : b.Placed { d with tree := t₂ } place :=
  prepared.placed.mono (fun _ _ hx => prepared.keep_returned expanded returned hx)

omit readable in
theorem Prepared.free_top_returned : Free t₂ top :=
  returned.free (prepared.apart_top ["output"]) (prepared.free_top expanded)

include same

omit expanded in
theorem Prepared.directory_incoming : t₂.node? (incomingAt place) = some .directory := by
  obtain ⟨e, he, hne⟩ := prepared.exists_outcome readable
  exact returned.above ((same e).mpr he) (List.prefix_append _ _)
    (fun h => hne (List.self_eq_append_right.mp h))

theorem Prepared.walkable_incoming :
    Run.Walkable t₂ (d.absolute b.scratchOutput) (incomingAt place) := by
  have one : AllProper ["output"] := proper_output.single
  have target := prepared.placed.points_absolute prepared.sound one
  rw [← incoming_eq] at target
  exact Run.walkable_of_laid expanded.sound (prepared.free_incoming expanded) returned target.named
    (fun e he => prepared.fits_outcome readable ((same e).mp he) (by simp [routes]))

theorem Prepared.file_incoming {q : Place} {c₁ : Bytes} :
    t₂.node? (incomingAt place ++ q) = some (.file c₁) ↔
      ∃ c, Visible d.tree place q c ∧ result m .expand (joined q) (lastName q) c = some c₁ := by
  rw [returned.file_iff expanded.sound (prepared.free_incoming expanded), same,
    prepared.mem_outcomes readable]

theorem Prepared.mem_reverted {q : Place} {c' : Bytes} :
    (q, c') ∈ outcomes m .revert t₂ (incomingAt place) ↔
      ∃ c, Visible d.tree place q c ∧ delivered m q c = some c' := by
  rw [Processing.mem_outcomes (prepared.walkable_incoming readable expanded returned same)
    (prepared.directory_incoming readable returned same)]
  constructor
  · rintro ⟨c₁, hc₁, _, hr⟩
    obtain ⟨c, visible, hr₁⟩ := (prepared.file_incoming readable expanded returned same).mp hc₁
    exact ⟨c, visible, by rw [← result_revert hr₁, hr]⟩
  · rintro ⟨c, visible, hr⟩
    obtain ⟨c₁, hr₁⟩ := Option.isSome_iff_exists.mp (readable.result_isSome visible)
    exact ⟨c₁, (prepared.file_incoming readable expanded returned same).mpr ⟨c, visible, hr₁⟩,
      visible.2, by rw [result_revert hr₁, hr]⟩

theorem Prepared.ready_returned (ns : List String) (n : String) (c₁ : Bytes)
    (there : t₂.node? (incomingAt place ++ (ns ++ [n])) = some (.file c₁)) :
    (result m .revert (joined (ns ++ [n])) n c₁).isSome = true ∧
      Fits (extend (d.absolute out) (ns ++ [n])) := by
  obtain ⟨c, visible, hr⟩ := (prepared.file_incoming readable expanded returned same).mp there
  have reverted := result_revert hr
  rw [Processing.lastName_concat] at reverted
  refine ⟨?_, readable.laid _ c visible _ (by simp [routes])⟩
  rw [reverted]
  exact readable.delivered_isSome visible

end Returned

end Expanded

end Run

structure Course (m : Macros) (d : Disk) (place top : Place) (sent back made final : Tree)
    (done : List (Place × Bytes)) : Prop where
  expanded : Laid d.tree sent (outgoingAt place) (outcomes m .expand d.tree place)
  returned : Laid sent back (incomingAt place) done
  same : ∀ e, e ∈ done ↔ e ∈ outcomes m .expand d.tree place
  reverted : Laid back made top (outcomes m .revert back (incomingAt place))
  cleaned : ∀ p, ¬ scratchAt place <+: p → final.node? p = made.node? p

def exchanged (w : World) (t : Tree) (storage : Storage) (clock : Rat) (service : Service)
    (events : List Event) : World :=
  { w with
    disk := { w.disk with tree := t }
    storage := storage
    clock := clock
    service := service
    events := events }

theorem exchange_ok {b : Batch} {w : World} {place : Place} (hm : b.macros.isSome = true)
    (served : b.Served w) {job : String} (made : w.service.created = .ok job) (sound : w.disk.Sound) (placed : b.Placed w.disk place)
    (there : w.disk.tree.node? (outgoingAt place) = some .directory)
    (walkable : Run.Walkable w.disk.tree (w.disk.absolute b.localInput) (outgoingAt place))
    (fits : Fits b.localInput) (free : Free w.disk.tree (incomingAt place))
    (fits' : ∀ e ∈ Run.filesBelow w.disk.tree (outgoingAt place), Fits (extend b.scratchOutput e.1)) :
    let path := b.storagePath w.now w.uuid
    ∃ w₂ w₃ w₄ back storage clock service events done,
      Transfer.upload b.localInput b.bucket (join path "input") (w.after (.note .uploadStarted)) =
        .ok () w₂ ∧
      b.create (join (join ("gs://" ++ b.bucket) path) "input")
        (join (join ("gs://" ++ b.bucket) path) "output") (w₂.after (.note .jobStarted)) =
        .ok job w₃ ∧
      b.wait job patience w₃ = .ok () w₄ ∧
      Transfer.download b.localOutput b.bucket (join path "output")
        (w₄.after (.note .outputsSought)) = .ok () (exchanged w back storage clock service events) ∧
      Laid w.disk.tree back (incomingAt place) done ∧
      ∀ e, e ∈ done ↔ e ∈ Run.filesBelow w.disk.tree (outgoingAt place) := by
  intro path
  have input : AllProper ["input"] := proper_input.single
  have output : AllProper ["output"] := proper_output.single
  have source := placed.points input
  have absolute := placed.points_absolute sound input
  have target := placed.points output
  rw [← outgoing_eq hm] at source absolute
  rw [← incoming_eq] at target
  have isDir := (source.leads sound there).isDirectory source.named.nonempty fits
  have compatible := Transfer.compatible_filesBelow sound.tree there
  have distinct := Run.filesBelow_nodup sound.tree (outgoingAt place)
  obtain ⟨s, events₂, uploaded, hb, hn, objects⟩ := Transfer.upload_ok
    (w := w.after (.note .uploadStarted)) b.bucket (join path "input") sound isDir rfl walkable
    (absolute.leads sound there) served.accessible served.buckets
  obtain ⟨c, hc, copies, noExtra⟩ := served.copies
  have unused : ∀ name, Storage.startsWith path name = true →
      Table.get? (s.objects b.bucket) name = none := by
    intro name hname
    rw [objects, Table.get?_eq_none_iff]
    intro there
    obtain ⟨o, ho, rfl⟩ := List.mem_map.mp there
    have := served.unused o ho
    rw [hname] at this
    cases this
  obtain ⟨shelf, present, keys⟩ := shelf_job served.bucketName.1 served.bucketName.2
    (b.storagePath_ne_empty _ _) (b.storagePath_relative _ _) copies noExtra hb hn
    (objects ▸ served.objects) unused compatible.proper distinct
  generalize hs₃ : c.act (join (join ("gs://" ++ b.bucket) path) "input")
    (join (join ("gs://" ++ b.bucket) path) "output") (s.storeAll b.bucket (Transfer.objectsOf
      (join path "input") (Run.filesBelow w.disk.tree (outgoingAt place)))) = s₃ at shelf present keys
  obtain ⟨events₃, created⟩ := b.create_eq (join (join ("gs://" ++ b.bucket) path) "input")
    (join (join ("gs://" ++ b.bucket) path) "output")
    (w := (w.stored (s.storeAll b.bucket (Transfer.objectsOf (join path "input")
      (Run.filesBelow w.disk.tree (outgoingAt place)))) events₂).after (.note .jobStarted)) hc made
  obtain ⟨n, last, found, final, answers, time⟩ := served.finishes
  obtain ⟨clock, service, events₄, finished⟩ := b.wait_ok job (by decide)
    (w.stored s₃ events₃) n answers found final time
  obtain ⟨back, events₅, done, downloaded, laid, same⟩ := Transfer.download_ok
    (w := (waited (w.stored s₃ events₃) clock service events₄).after (.note .outputsSought)) b.bucket
    (named_join proper_output) sound target free compatible shelf keys present fits'
  have localOutput : b.localOutput = .path b.scratchOutput := by rw [localOutput, if_pos hm]
  rw [← localOutput] at downloaded
  refine ⟨_, _, _, back, s₃, clock, service, events₅, done, uploaded, ?_, finished, downloaded, laid,
    same⟩
  rw [← hs₃]
  exact created

theorem Served.turned {b : Batch} {w : World} (h : b.Served w) (t : Tree) (events : List Event) :
    b.Served (w.turned t events) :=
  ⟨h.bucketName, h.accessible, h.buckets, h.objects, h.unused, h.creates, h.copies, h.finishes⟩

theorem start_course {b : Batch} {m : Macros} {out : String} {w : World} {place top : Place}
    (prepared : b.Prepared m out w.disk place top) (served : b.Served w)
    (readable : b.Readable m out w.disk place) :
    ∃ sent back made done w', b.start w = .ok () w' ∧
      Course m w.disk place top sent back made w'.disk.tree done := by
  have isSome : b.macros.isSome = true := by rw [prepared.macros]; rfl
  obtain ⟨job, made, named⟩ := served.creates
  obtain ⟨sent, events₁, preprocessed, expanded⟩ := preprocess_ok prepared.macros prepared.sound
    prepared.placed (prepared.walkable readable) prepared.distinct prepared.fresh readable.ready
  have outgoing : ∀ e, e ∈ Run.filesBelow sent (outgoingAt place) ↔
      e ∈ outcomes m .expand w.disk.tree place := fun e => prepared.mem_outgoing readable expanded
  obtain ⟨w₂, w₃, w₄, back, storage, clock, service, events₅, done, uploaded, created, finished,
      downloaded, returned, same⟩ :=
    exchange_ok (w := w.turned sent events₁) isSome (served.turned sent events₁) made
      (prepared.sound_expanded expanded) (prepared.placed_expanded expanded)
      (prepared.directory_outgoing readable expanded) (prepared.walkable_outgoing readable expanded)
      (prepared.fits_route readable (by simp [routes])) (prepared.free_incoming expanded)
      (fun e he => prepared.fits_outcome readable ((outgoing e).mp he) (by simp [routes]))
  have same : ∀ e, e ∈ done ↔ e ∈ outcomes m .expand w.disk.tree place :=
    fun e => (same e).trans (outgoing e)
  have free := prepared.free_top_returned expanded returned
  have sound₅ := prepared.sound_returned expanded returned
  have placed₅ := prepared.placed_returned expanded returned
  have target := (prepared.creatable.points prepared.sound).mono (e := { w.disk with tree := back }) rfl
    (fun _ _ hx => prepared.keep_returned expanded returned hx)
  obtain ⟨made, events₆, postprocessed, reverted⟩ := postprocess_ok
    (w := exchanged (w.turned sent events₁) back storage clock service events₅) prepared.macros sound₅
    placed₅ prepared.output (prepared.walkable_incoming readable expanded returned same)
    (prepared.directory_incoming readable returned same) target free (prepared.apart_top ["output"])
    (fun ns n c there _ => prepared.ready_returned readable expanded returned same ns n c there)
  have keep : ∀ p x, w.disk.tree.node? p = some x → made.node? p = some x := fun p x hx =>
    reverted.keep returned.sound free (prepared.keep_returned expanded returned hx)
  have scratch : made.node? (scratchAt place) = some .directory := by
    have there := prepared.directory_outgoing readable expanded
    have above := expanded.sound.above _ _ _ there
    exact reverted.keep returned.sound free
      (returned.keep expanded.sound (prepared.free_incoming expanded) above)
  -- what stood on the disk before is not in the scratch directory, so the way to it stays open
  have kept : b.Placed { w.disk with tree := made.clear (scratchAt place) } place := by
    refine prepared.placed.mono (fun p x hx => ?_)
    have notBelow : Tree.isBelow (scratchAt place) p = false := by
      rw [Bool.eq_false_iff]
      intro below
      have none := (prepared.placed.free_scratch prepared.sound prepared.fresh []).none_below
        prepared.sound.tree (by simpa using (Tree.isBelow_iff.mp below).1)
      rw [hx] at none
      cases none
    rw [Tree.node?_clear, notBelow]
    exact keep p x hx
  obtain ⟨final, events₇, cleaned, rest⟩ := cleanUp_ok
    (w := ((exchanged (w.turned sent events₁) back storage clock service events₅).turned made
      events₆).after (.note (.postprocessed b.output.text))) (reverted.disk sound₅ free)
    (prepared.placed.mono keep) (prepared.fits_scratch readable) scratch kept
  have linked : ∃ link, b.link? job = some link := by
    rw [link?, if_pos named]
    exact ⟨_, rfl⟩
  obtain ⟨link, linked⟩ := linked
  exact ⟨sent, back, made, done, _, start_of_stages preprocessed rfl uploaded created finished downloaded
    postprocessed cleaned linked, expanded, returned, same, reverted, rest⟩

/-- A text that the macros give back, and in which they leave no other line breaks, arrives as it was
but for its line breaks. -/
theorem delivered_of_aligned {m : Macros} {q : Place} {c : Bytes} {s : List Char}
    (copied : isCopied (lastName q) = false) (decoded : Utf8.decode c = .ok s)
    (whole : m.Whole (joined q)) (reversible : m.Reversible (joined q))
    (aligned : m.Aligned (joined q) (.ofChars (Newline.unify s)))
    (lines : .char '\r' ∉ (m.expand (joined q) (.ofChars (Newline.unify s))).toList) :
    delivered m q c = some (Utf8.encode (Newline.unify s)) := by
  have back := Macros.unexpand_of_takesBack reversible (aligned.takesBack reversible)
  obtain ⟨sent, expanded⟩ := (whole.expand (Text.whole_ofChars (Newline.unify s))).eq_ofChars
  have unified : Newline.unify sent = sent := by
    refine Newline.unifyFrom_eq_self (fun mem => lines ?_)
    rw [expanded]
    exact List.mem_map_of_mem mem
  rw [delivered, copied, if_neg (by simp), decoded]
  simp only [Text.chars_eq_ok_iff.mpr expanded, unified, ← expanded, back]
  rw [Text.encode_eq_ok_iff.mpr ⟨_, rfl, rfl⟩]
  rfl

/-- A run that starts afresh and whose job copies the files as they are ends well. The output
directory then holds one file for each visible file of the input, at the same path below it, and the
directories that lead to these files. -/
theorem start_delivers {b : Batch} {m : Macros} {out : String} {w : World} {place top : Place}
    (prepared : b.Prepared m out w.disk place top) (served : b.Served w)
    (readable : b.Readable m out w.disk place) :
    ∃ w', b.start w = .ok () w' ∧
      (∀ q c', w'.disk.tree.node? (top ++ q) = some (.file c') ↔
        ∃ c, Visible w.disk.tree place q c ∧ delivered m q c = some c') ∧
      (∀ q, w'.disk.tree.node? (top ++ q) = some .directory ↔
        ∃ r c, Visible w.disk.tree place r c ∧ q <+: r ∧ q ≠ r) ∧
      Unlinked w'.disk.tree top ∧
      ∀ q c s, Visible w.disk.tree place q c → isCopied (lastName q) = false →
        Utf8.decode c = .ok s → m.Reversible (joined q) →
        m.Aligned (joined q) (.ofChars (Newline.unify s)) →
        .char '\r' ∉ (m.expand (joined q) (.ofChars (Newline.unify s))).toList →
        w'.disk.tree.node? (top ++ q) = some (.file (Utf8.encode (Newline.unify s))) := by
  obtain ⟨sent, back, made, done, w', run, course⟩ := start_course prepared served readable
  have free := prepared.free_top_returned course.expanded course.returned
  have sound := course.returned.sound
  have stays : ∀ q, w'.disk.tree.node? (top ++ q) = made.node? (top ++ q) := by
    intro q
    refine course.cleaned _ (fun below => ?_)
    have apart := prepared.apart_top []
    rw [List.append_nil] at apart
    exact (apart.symm.append q).2 below
  have mem : ∀ q c', (q, c') ∈ outcomes m .revert back (incomingAt place) ↔
      ∃ c, Visible w.disk.tree place q c ∧ delivered m q c = some c' := fun q c' =>
    prepared.mem_reverted readable course.expanded course.returned course.same
  have files : ∀ q c', w'.disk.tree.node? (top ++ q) = some (.file c') ↔
      ∃ c, Visible w.disk.tree place q c ∧ delivered m q c = some c' := by
    intro q c'
    rw [stays, course.reverted.file_iff sound free, mem]
  refine ⟨w', run, files, ?_, ?_, ?_⟩
  · intro q
    rw [stays, course.reverted.directory_iff sound free]
    constructor
    · rintro ⟨⟨r, c'⟩, he, below⟩
      obtain ⟨c, visible, _⟩ := (mem r c').mp he
      exact ⟨r, c, visible, below⟩
    · rintro ⟨r, c, visible, below⟩
      obtain ⟨c', hc'⟩ := Option.isSome_iff_exists.mp (readable.delivered_isSome visible)
      exact ⟨(r, c'), (mem r c').mpr ⟨c, visible, hc'⟩, below⟩
  · intro q target
    rw [stays]
    exact course.reverted.unlinked sound free q target
  · intro q c s visible copied decoded reversible aligned lines
    have whole := (readable.values q c visible copied).1
    exact (files q _).mpr ⟨c, visible, delivered_of_aligned copied decoded whole reversible aligned lines⟩

/-! ### Small runs -/

def sampleMacros : Macros := [("*.sql", [("$T", "orders")])]

def sample : Batch where
  settings := ⟨⟨"1", "bkt"⟩, ⟨.teradata, "us", none, none, true⟩⟩
  input := "in"
  output := .path "out/x"
  macros := some sampleMacros
  mapping := none

def quiet (t : Tree) : World where
  disk := ⟨t, ["w"]⟩
  home := "/home"
  storage := ⟨[("bkt", [("old", [1])])], []⟩
  service := ⟨some ⟨fun _ content => content, []⟩, .ok "projects/1/locations/us/workflows/wf-1",
    [.ok .running, .ok .completed], .ok []⟩
  shell := ⟨"", ""⟩
  now := ⟨⟨2022, 6, 7⟩, 8, 9⟩
  uuid := "0000"
  clock := 1000
  lag := 0
  events := []

theorem prepared_sample {t : Tree} (sound : t.Sound) (input : t.node? ["w", "in"] = some .directory)
    (unlinked : Unlinked t ["w", "in"]) (fresh : t.node? ["w", ".tmp_processed"] = none)
    (absent : t.node? ["w", "out"] = none) (inhabited : ∃ q c, Visible t ["w", "in"] q c) :
    sample.Prepared sampleMacros "out/x" (quiet t).disk ["w", "in"] ["w", "out", "x"] where
  macros := rfl
  output := rfl
  sound := ⟨sound, sound.above ["w"] "in" _ input⟩
  placed := by
    have parts : parts sample.input = ["in"] := by decide
    have start : startFrom ["w"] sample.input = ["w"] := by decide
    refine ⟨?_, by decide, by decide⟩
    change follow t true 0 (startFrom ["w"] sample.input) _ = _
    have there : t.node? (["w"] ++ ["in"]) = some .directory := input
    rw [parts, start, IsName.follow_cons ⟨by decide, by decide, by decide⟩, there]
    exact follow_nil _ _ _ _
  unlinked := unlinked
  distinct := by decide
  fresh := fresh
  creatable := by
    have start : startFrom ["w"] "out/x" = ["w"] := by decide
    refine ⟨by decide, by decide, [], ["w"], "out", ["x"], by decide, ?_, absent, rfl⟩
    change follow t true linkLimit (startFrom ["w"] "out/x") _ = _
    rw [start, follow_nil]
  outside := by decide
  inhabited := inhabited

theorem served_sample (t : Tree) : sample.Served (quiet t) := by
  have empty : sample.Served (quiet .empty) :=
    { bucketName := by decide
      accessible := by decide
      buckets := by decide
      objects := by decide
      unused := by decide
      creates := ⟨_, rfl, by decide⟩
      copies := ⟨_, rfl, fun _ _ => rfl, rfl⟩
      finishes := ⟨1, .completed, rfl, rfl, fun k hk => ⟨.running, by rw [Nat.lt_one_iff.mp hk]; rfl⟩,
        by norm_num [pace, quiet, patience, pause]⟩ }
  exact empty.turned t []

def nested : Tree :=
  ⟨[(["w"], .directory), (["w", "in"], .directory), (["w", "in", ".git"], .file [1]),
    (["w", "in", "a.sql"], .file (Utf8.encode "$T\r".toList)), (["w", "in", "d"], .directory),
    (["w", "in", "d", "b.sql"], .file (Utf8.encode "from $T;\r\n".toList)),
    (["w", "in", "d", "c.ZIP"], .file [0x50, 0xff])]⟩

theorem prepared_nested :
    sample.Prepared sampleMacros "out/x" (quiet nested).disk ["w", "in"] ["w", "out", "x"] := by
  refine prepared_sample (Tree.sound_of_entries (by decide) (by decide)) rfl ?_ rfl rfl
    ⟨["a.sql"], _, rfl, by decide⟩
  intro q target there
  have := Tree.mem_entries (by simp) there
  simp [nested] at this

theorem readable_nested : sample.Readable sampleMacros "out/x" (quiet nested).disk ["w", "in"] where
  texts := by
    intro q c visible copied
    have root : ["w", "in"] ≠ ([] : Place) := by simp
    have known := Tree.forall_below root
      (P := fun q x => x = .directory ∨ (isHidden (lastName q) || isCopied (lastName q)) = true ∨
        ∃ s ∈ ["$T\r", "from $T;\r\n"], x = .file (Utf8.encode s.toList))
      (by decide +kernel) q _ visible.1
    rcases known with h | h | ⟨s, _, h⟩
    · cases h
    · rw [visible.2, copied] at h
      cases h
    · cases h
      exact ⟨_, Utf8.decode_encode _⟩
  values := fun q _ _ _ =>
    ⟨Macros.whole_of_values (by decide) (joined q), Macros.whole_of_values (by decide +kernel) (joined q)⟩
  walked := Tree.forall_below (by simp) (by decide +kernel)
  laid := fun q _ visible => Tree.forall_below (by simp)
    (P := fun q _ => ∀ s ∈ sample.routes (quiet nested).disk "out/x", Fits (extend s q))
    (by decide +kernel) q _ visible.1

theorem start_delivers_nested :
    ∃ w', sample.start (quiet nested) = .ok () w' ∧
      w'.disk.tree.node? ["w", "out", "x", "a.sql"] = some (.file (Utf8.encode "$T\n".toList)) ∧
      w'.disk.tree.node? ["w", "out", "x", "d", "b.sql"] =
        some (.file (Utf8.encode "from $T;\n".toList)) ∧
      w'.disk.tree.node? ["w", "out", "x", "d", "c.ZIP"] = some (.file [0x50, 0xff]) ∧
      ∀ c, w'.disk.tree.node? ["w", "out", "x", ".git"] ≠ some (.file c) := by
  obtain ⟨w', run, files, _⟩ := start_delivers prepared_nested (served_sample nested) readable_nested
  refine ⟨w', run, (files ["a.sql"] _).mpr ⟨_, ⟨rfl, by decide⟩, by decide⟩,
    (files ["d", "b.sql"] _).mpr ⟨_, ⟨rfl, by decide⟩, by decide⟩,
    (files ["d", "c.ZIP"] _).mpr ⟨_, ⟨rfl, by decide⟩, by decide⟩, ?_⟩
  intro c there
  obtain ⟨_, visible, _⟩ := (files [".git"] c).mp there
  exact absurd visible.2 (by decide)

def unreadable : Tree :=
  ⟨[(["w"], .directory), (["w", "in"], .directory), (["w", "in", "a.sql"], .file [0x41, 0xff])]⟩

theorem start_fails_unreadable :
    sample.Prepared sampleMacros "out/x" (quiet unreadable).disk ["w", "in"] ["w", "out", "x"] ∧
      sample.Served (quiet unreadable) ∧
      ∃ e w', sample.start (quiet unreadable) = .error e w' ∧
        w'.disk.tree.node? ["w", "out"] = none ∧ w'.storage.objects "bkt" = [("old", [1])] := by
  refine ⟨prepared_sample (Tree.sound_of_entries (by decide) (by decide +kernel)) rfl ?_ rfl rfl
    ⟨["a.sql"], _, rfl, by decide⟩, served_sample unreadable, ?_⟩
  · intro q target there
    have := Tree.mem_entries (by simp) there
    simp [unreadable] at this
  · obtain ⟨e, w', stopped, left⟩ := error_of_run' (x := sample.start) (s := quiet unreadable)
      (f := fun w => (w.disk.tree.node? ["w", "out"], w.storage.objects "bkt"))
      (b := (none, [("old", [1])])) (by decide +kernel)
    exact ⟨e, w', stopped, congrArg Prod.fst left, congrArg Prod.snd left⟩

end SqlMigration.Batch
