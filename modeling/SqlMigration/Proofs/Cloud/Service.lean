import SqlMigration.Cloud.Service
import SqlMigration.Proofs.Cloud.Storage

/-!
# What the service does to the objects

A job changes each bucket by itself. In the bucket of the job the objects below
the source path are copied to below the target path, under the same names.
-/

set_option autoImplicit false

namespace SqlMigration.Converter

open SqlMigration.Path Storage

def moved (src dst name : String) : String := dst ++ rest src name

def copyIn (c : Converter) (src dst : String) (os : Table String Bytes) (name : String) :
    Table String Bytes :=
  Table.put os (moved src dst name)
    (c.convert (rest src name) ((Table.get? os name).getD []))

def acted (c : Converter) (src dst : String) (os : Table String Bytes) : Table String Bytes :=
  let names := ((os.filter (fun o => startsWith (src ++ "/") o.1)).mergeSort nameLE).map (·.1)
  Table.putAll (names.foldl (c.copyIn src dst) os) (c.extra.map (fun e => (dst ++ e.1, e.2)))

section Objects

variable (c : Converter) (bucket : String)

theorem objects_copy (src dst name : String) (s : Storage) (b : String) :
    (c.copy bucket src dst name s).objects b =
      if bucket = b then c.copyIn src dst (s.objects bucket) name else s.objects b :=
  objects_store s bucket b _ _

theorem objects_copies (src dst : String) (names : List String) (s : Storage) (b : String) :
    (names.foldl (fun s name => c.copy bucket src dst name s) s).objects b =
      if bucket = b then names.foldl (c.copyIn src dst) (s.objects bucket) else s.objects b := by
  induction names generalizing s with
  | nil => simp +contextual
  | cons n names ih =>
    rw [List.foldl_cons, ih, objects_copy, objects_copy, if_pos rfl, List.foldl_cons]
    split <;> rfl

theorem objects_extras (dst : String) (extra : List (String × Bytes)) (s : Storage) (b : String) :
    (extra.foldl (fun s e => s.store bucket (dst ++ e.1) e.2) s).objects b =
      if bucket = b then Table.putAll (s.objects bucket) (extra.map (fun e => (dst ++ e.1, e.2)))
      else s.objects b := by
  induction extra generalizing s with
  | nil =>
    rw [List.foldl_nil, List.map_nil]
    split
    · next h => rw [h]; rfl
    · rfl
  | cons e extra ih =>
    rw [List.foldl_cons, ih, objects_store, objects_store, if_pos rfl]
    split <;> rfl

theorem objects_actOn (source target : String) (s : Storage) (b : String) :
    (c.actOn source target bucket s).objects b =
      if bucket = b then
        match below? bucket source, below? bucket target with
        | some src, some dst => c.acted src dst (s.objects bucket)
        | _, _ => s.objects bucket
      else s.objects b := by
  unfold actOn
  cases hs : below? bucket source with
  | none => simp +contextual
  | some src =>
    cases hd : below? bucket target with
    | none => simp +contextual
    | some dst =>
      dsimp only
      rw [objects_extras, objects_copies, objects_copies, if_pos rfl]
      split <;> rfl

theorem keys_copies {s : Storage} (h : bucket ∈ Table.keys s.buckets) (src dst : String)
    (names : List String) :
    Table.keys (names.foldl (fun s name => c.copy bucket src dst name s) s).buckets =
      Table.keys s.buckets := by
  induction names generalizing s with
  | nil => rfl
  | cons n names ih =>
    have same : Table.keys (c.copy bucket src dst n s).buckets = Table.keys s.buckets :=
      keys_store h _ _
    rw [List.foldl_cons, ih (same ▸ h), same]

theorem keys_extras {s : Storage} (h : bucket ∈ Table.keys s.buckets) (dst : String)
    (extra : List (String × Bytes)) :
    Table.keys (extra.foldl (fun s e => s.store bucket (dst ++ e.1) e.2) s).buckets =
      Table.keys s.buckets := by
  induction extra generalizing s with
  | nil => rfl
  | cons e extra ih =>
    have same := keys_store h (dst ++ e.1) e.2
    rw [List.foldl_cons, ih (same ▸ h), same]

theorem keys_actOn {s : Storage} (h : bucket ∈ Table.keys s.buckets) (source target : String) :
    Table.keys (c.actOn source target bucket s).buckets = Table.keys s.buckets := by
  unfold actOn
  split
  · have same := keys_copies c bucket h
    rw [keys_extras]
    · exact same _ _ _
    · rw [same]
      exact h
  · rfl

end Objects

theorem objects_act (c : Converter) (source target : String) {s : Storage}
    (hn : (Table.keys s.buckets).Nodup) {bucket : String} (hb : bucket ∈ Table.keys s.buckets) :
    (c.act source target s).objects bucket = (c.actOn source target bucket s).objects bucket := by
  have others : ∀ (bs : List String) (s : Storage), bucket ∉ bs →
      (bs.foldl (fun s b => c.actOn source target b s) s).objects bucket = s.objects bucket := by
    intro bs
    induction bs with
    | nil => exact fun _ _ => rfl
    | cons b bs ih =>
      intro s hm
      rw [List.mem_cons, not_or] at hm
      rw [List.foldl_cons, ih _ hm.2, objects_actOn, if_neg (fun e => hm.1 e.symm)]
  have perm := List.mergeSort_perm (Table.keys s.buckets) textLE
  obtain ⟨before, after, e⟩ := List.append_of_mem (perm.mem_iff.mpr hb)
  have distinct := perm.nodup_iff.mpr hn
  rw [e, List.nodup_append] at distinct
  have early : bucket ∉ before := fun h => distinct.2.2 _ h _ List.mem_cons_self rfl
  have late : bucket ∉ after := (List.nodup_cons.mp distinct.2.1).1
  rw [act, e, List.foldl_append, List.foldl_cons, others after _ late, objects_actOn, objects_actOn,
    others before _ early]

theorem keys_act (c : Converter) (source target : String) (s : Storage) :
    Table.keys (c.act source target s).buckets = Table.keys s.buckets := by
  have all : ∀ (bs : List String) (s : Storage), (∀ b ∈ bs, b ∈ Table.keys s.buckets) →
      Table.keys (bs.foldl (fun s b => c.actOn source target b s) s).buckets =
        Table.keys s.buckets := by
    intro bs
    induction bs with
    | nil => exact fun _ _ => rfl
    | cons b bs ih =>
      intro s hm
      have same := keys_actOn c b (hm b List.mem_cons_self) source target
      rw [List.foldl_cons, ih _ (fun a ha => same ▸ hm a (List.mem_cons_of_mem _ ha)), same]
  exact all _ s (fun b hb => (List.mergeSort_perm _ textLE).mem_iff.mp hb)

/-! ### Copies below the target path -/

/-- Copies that do not fall upon one another are made from what was there before. -/
theorem copies_eq_putAll (c : Converter) {src dst : String} {names : List String}
    (free : ∀ a ∈ names, ∀ b ∈ names, moved src dst a ≠ b) (os : Table String Bytes) :
    names.foldl (c.copyIn src dst) os =
      Table.putAll os (names.map (fun n =>
        (moved src dst n, c.convert (rest src n) ((Table.get? os n).getD [])))) := by
  have go : ∀ (more : List String) (u : Table String Bytes), (∀ n ∈ more, n ∈ names) →
      (∀ n ∈ names, Table.get? u n = Table.get? os n) →
      more.foldl (c.copyIn src dst) u =
        Table.putAll u (more.map (fun n =>
          (moved src dst n, c.convert (rest src n) ((Table.get? os n).getD [])))) := by
    intro more
    induction more with
    | nil => exact fun _ _ _ => rfl
    | cons n more ih =>
      intro u hm same
      have hn := hm n List.mem_cons_self
      rw [List.foldl_cons, ih, copyIn, same n hn]
      · rfl
      · exact fun a ha => hm a (List.mem_cons_of_mem _ ha)
      · intro a ha
        rw [copyIn, Table.get?_put, if_neg (free n hn a ha), same a ha]
  exact go names os (fun _ h => h) (fun _ _ => rfl)

theorem moved_extend {src dst : String} (hs : Named src) (hd : Named dst) {q : Place}
    (hq : AllProper q) (hne : q ≠ []) : moved src dst (extend src q) = extend dst q := by
  apply String.toList_inj.mp
  rw [moved, rest, hs.extend_eq hq hne, hd.extend_eq hq hne]
  simp only [String.toList_append, String.toList_ofList]
  rw [List.append_assoc, ← String.length_toList, List.drop_left, ← List.append_assoc]

section Shelf

variable {src dst : String} {os : Table String Bytes} {files : List (Place × Bytes)}
  (hs : Named src) (hd : Named dst) (proper : ∀ e ∈ files, AllProper e.1 ∧ e.1 ≠ [])
  (shelf : Shelf os src files)
include hs proper shelf

theorem mem_sources (name : String) :
    name ∈ ((os.filter (fun o => startsWith (src ++ "/") o.1)).mergeSort nameLE).map (·.1) ↔
      ∃ e ∈ files, name = extend src e.1 := by
  have slash : startsWith src (src ++ "/") = true := by
    rw [startsWith_iff, String.toList_append]
    exact List.prefix_append _ _
  constructor
  · intro h
    obtain ⟨⟨a, c⟩, hm, rfl⟩ := List.mem_map.mp h
    rw [List.mem_mergeSort, List.mem_filter] at hm
    have below := startsWith_trans slash hm.2
    cases hg : Table.get? os a with
    | none => exact absurd (List.mem_map.mpr ⟨_, hm.1, rfl⟩) ((Table.get?_eq_none_iff _ _).mp hg)
    | some c' =>
      obtain ⟨q, hq, e⟩ := (shelf a c' below).mp hg
      exact ⟨_, hq, e⟩
  · rintro ⟨⟨q, c⟩, he, rfl⟩
    obtain ⟨hq, hne⟩ := proper _ he
    have there := (shelf (extend src q) c (startsWith_extend _ hq)).mpr ⟨q, he, rfl⟩
    refine List.mem_map.mpr ⟨(extend src q, c), ?_, rfl⟩
    rw [List.mem_mergeSort, List.mem_filter]
    refine ⟨Table.mem_of_get? there, ?_⟩
    rw [startsWith_iff, hs.extend_eq hq hne]
    simp only [String.toList_append]
    exact List.prefix_append _ _

include hd

/-- A service that changes nothing has the same files below the target path as below the source. -/
theorem shelf_acted {c : Converter} (same : ∀ n x, c.convert n x = x) (no : c.extra = [])
    (hn : (Table.keys os).Nodup)
    (empty : ∀ name, startsWith dst name = true → Table.get? os name = none) :
    Shelf (c.acted src dst os) dst files := by
  have sources := mem_sources hs proper shelf
  have there : ∀ e ∈ files, Table.get? os (extend src e.1) = some e.2 := fun e he =>
    (shelf _ e.2 (startsWith_extend _ (proper e he).1)).mpr ⟨e.1, he, rfl⟩
  have target : ∀ e ∈ files, moved src dst (extend src e.1) = extend dst e.1 := fun e he =>
    moved_extend hs hd (proper e he).1 (proper e he).2
  have distinct : (((os.filter (fun o => startsWith (src ++ "/") o.1)).mergeSort nameLE).map
      (·.1)).Nodup :=
    ((List.mergeSort_perm _ _).map _).nodup_iff.mpr (Table.nodup_filter hn _)
  rw [acted, no]
  simp only [List.map_nil, Table.putAll_nil]
  generalize ((os.filter (fun o => startsWith (src ++ "/") o.1)).mergeSort nameLE).map (·.1) = names
    at sources distinct
  have free : ∀ a ∈ names, ∀ b ∈ names, moved src dst a ≠ b := by
    intro a ha b hb e
    obtain ⟨f, hf, rfl⟩ := (sources a).mp ha
    obtain ⟨g, hg, rfl⟩ := (sources b).mp hb
    have gone := empty _ (startsWith_extend _ (proper f hf).1)
    rw [← target f hf, e, there g hg] at gone
    cases gone
  have apart : (Table.keys (names.map (fun n =>
      (moved src dst n, c.convert (rest src n) ((Table.get? os n).getD []))))).Nodup := by
    rw [Table.keys, List.map_map]
    refine distinct.map_on ?_
    intro a ha b hb e
    obtain ⟨f, hf, rfl⟩ := (sources a).mp ha
    obtain ⟨g, hg, rfl⟩ := (sources b).mp hb
    have e : moved src dst (extend src f.1) = moved src dst (extend src g.1) := e
    rw [target f hf, target g hg] at e
    rw [extend_inj (proper f hf).1 (proper g hg).1 e]
  rw [copies_eq_putAll c free]
  intro name x hname
  rw [Table.get?_putAll apart, empty name hname, Option.or_none, ← Table.mem_iff_get? apart,
    List.mem_map]
  constructor
  · rintro ⟨n, hn, e⟩
    obtain ⟨f, hf, rfl⟩ := (sources n).mp hn
    rw [target f hf, there f hf, same] at e
    cases e
    exact ⟨f.1, hf, rfl⟩
  · rintro ⟨q, hq, rfl⟩
    refine ⟨extend src q, (sources _).mpr ⟨_, hq, rfl⟩, ?_⟩
    rw [target _ hq, there _ hq, same]
    rfl

end Shelf

theorem nodup_acted (c : Converter) (src dst : String) {os : Table String Bytes}
    (h : (Table.keys os).Nodup) : (Table.keys (c.acted src dst os)).Nodup := by
  have copies : ∀ (names : List String) (os : Table String Bytes), (Table.keys os).Nodup →
      (Table.keys (names.foldl (c.copyIn src dst) os)).Nodup := by
    intro names
    induction names with
    | nil => exact fun _ h => h
    | cons n names ih => exact fun os h => ih _ (Table.nodup_put h _ _)
  exact Table.nodup_putAll (copies _ _ h) _

/-! ### The paths of a job -/

theorem below?_join (bucket : String) {u : String} (relative : isAbsolute u = false) :
    below? bucket (join ("gs://" ++ bucket) u) =
      if endsWithSlash ("gs://" ++ bucket) then none else some u := by
  have front : ∀ v : String, ("gs://" ++ bucket ++ "/" ++ v).toList =
      ("gs://" ++ bucket ++ "/").toList ++ v.toList := fun v => String.toList_append
  have ne : "gs://" ++ bucket ≠ "" := by
    intro e
    have := congrArg String.toList e
    simp at this
  cases ends : endsWithSlash ("gs://" ++ bucket) with
  | true =>
    have apart : startsWith ("gs://" ++ bucket ++ "/") (join ("gs://" ++ bucket) u) = false := by
      rw [Bool.eq_false_iff]
      intro h
      rw [startsWith_iff, toList_join relative, gap, if_pos (Or.inr ends), List.append_nil,
        String.toList_append, List.prefix_append_right_inj] at h
      have first := List.head?_eq_some_iff.mpr ⟨_, h.choose_spec.symm⟩
      rw [isAbsolute, first] at relative
      cases relative
    simp only [below?, apart, if_true, Bool.false_eq_true, if_false]
  | false =>
    have whole : join ("gs://" ++ bucket) u = "gs://" ++ bucket ++ "/" ++ u :=
      Named.join_eq ⟨ne, ends⟩ relative
    have starts : startsWith ("gs://" ++ bucket ++ "/") ("gs://" ++ bucket ++ "/" ++ u) = true := by
      rw [startsWith_iff, front]
      exact List.prefix_append _ _
    simp only [below?, whole, starts, if_true, Bool.false_eq_true, if_false]
    rw [front, ← String.length_toList, List.drop_left, String.ofList_toList]

theorem endsWithSlash_bucket {bucket : String} (nonempty : bucket ≠ "")
    (noSlash : '/' ∉ bucket.toList) : endsWithSlash ("gs://" ++ bucket) = false := by
  have chars : bucket.toList ≠ [] := mt String.toList_eq_nil_iff.mp nonempty
  rw [endsWithSlash, decide_eq_false_iff_not, String.toList_append,
    List.getLast?_append_of_ne_nil _ chars]
  exact fun h => noSlash (List.mem_of_getLast? h)

theorem startsWith_join_apart {path m n name : String} (hm : Proper m) (hn : Proper n)
    (apart : ¬ m.toList <+: n.toList) (apart' : ¬ n.toList <+: m.toList)
    (h : startsWith (join path m) name = true) : startsWith (join path n) name = false := by
  rw [Bool.eq_false_iff]
  intro h'
  rw [startsWith_iff, toList_join hm.not_isAbsolute] at h
  rw [startsWith_iff, toList_join hn.not_isAbsolute] at h'
  rcases List.prefix_or_prefix_of_prefix h h' with k | k
  · exact apart ((List.prefix_append_right_inj _).mp k)
  · exact apart' ((List.prefix_append_right_inj _).mp k)

theorem startsWith_join {path n : String} (hn : isAbsolute n = false) :
    startsWith path (join path n) = true := by
  rw [startsWith_iff, toList_join hn, List.append_assoc]
  exact List.prefix_append _ _

end SqlMigration.Converter
