import SqlMigration.Cloud.Storage
import SqlMigration.Proofs.Files.Joined
import SqlMigration.Proofs.Tables

/-!
# Objects of a bucket

Storing changes the objects of one bucket only. Files are kept in a bucket under
their names joined to a stem, and a listing by the stem brings them back.
-/

set_option autoImplicit false

namespace SqlMigration.Storage

open SqlMigration.Path

theorem objects_store (s : Storage) (bucket b name : String) (content : Bytes) :
    (s.store bucket name content).objects b =
      if bucket = b then Table.put (s.objects bucket) name content else s.objects b := by
  rw [objects, store, Table.get?_put]
  split <;> rfl

def storeAll (s : Storage) (bucket : String) (pairs : List (String × Bytes)) : Storage :=
  pairs.foldl (fun s e => s.store bucket e.1 e.2) s

theorem storeAll_concat (s : Storage) (bucket : String) (pairs : List (String × Bytes))
    (e : String × Bytes) :
    s.storeAll bucket (pairs ++ [e]) = (s.storeAll bucket pairs).store bucket e.1 e.2 := by
  simp [storeAll]

theorem objects_storeAll (s : Storage) (bucket : String) (pairs : List (String × Bytes)) :
    (s.storeAll bucket pairs).objects bucket = Table.putAll (s.objects bucket) pairs := by
  induction pairs generalizing s with
  | nil => rfl
  | cons e pairs ih =>
    change ((s.store bucket e.1 e.2).storeAll bucket pairs).objects bucket = _
    rw [ih, objects_store, if_pos rfl]
    rfl

theorem keys_store {s : Storage} {bucket : String} (h : bucket ∈ Table.keys s.buckets) (name : String)
    (content : Bytes) : Table.keys (s.store bucket name content).buckets = Table.keys s.buckets := by
  rw [store, Table.keys_put, if_pos h]

theorem keys_storeAll {s : Storage} {bucket : String} (h : bucket ∈ Table.keys s.buckets)
    (pairs : List (String × Bytes)) :
    Table.keys (s.storeAll bucket pairs).buckets = Table.keys s.buckets := by
  induction pairs generalizing s with
  | nil => rfl
  | cons e pairs ih =>
    have same := keys_store h e.1 e.2
    change Table.keys ((s.store bucket e.1 e.2).storeAll bucket pairs).buckets = _
    rw [ih (same ▸ h), same]

theorem present_iff (s : Storage) (bucket : String) :
    (Table.get? s.buckets bucket).isNone = false ↔ bucket ∈ Table.keys s.buckets := by
  cases h : Table.get? s.buckets bucket with
  | none => simpa using (Table.get?_eq_none_iff _ _).mp h
  | some os =>
    simp only [Option.isNone_some, true_iff]
    exact List.mem_map.mpr ⟨_, Table.mem_of_get? h, rfl⟩

theorem forbidden_storeAll (s : Storage) (bucket : String) (pairs : List (String × Bytes)) :
    (s.storeAll bucket pairs).forbidden = s.forbidden := by
  induction pairs generalizing s with
  | nil => rfl
  | cons e pairs ih => exact ih (s.store bucket e.1 e.2)

theorem get?_storeAll (s : Storage) {bucket b : String} (h : b ≠ bucket) (pairs : List (String × Bytes)) :
    Table.get? (s.storeAll bucket pairs).buckets b = Table.get? s.buckets b := by
  induction pairs generalizing s with
  | nil => rfl
  | cons e pairs ih =>
    exact (ih (s.store bucket e.1 e.2)).trans (Table.get?_put_of_ne _ _ h.symm)

def opened (s : Storage) (bucket : String) : Storage :=
  if bucket ∈ Table.keys s.buckets then s else s.createBucket bucket

theorem keys_opened (s : Storage) (bucket : String) : Table.keys (s.opened bucket).buckets =
    if bucket ∈ Table.keys s.buckets then Table.keys s.buckets else Table.keys s.buckets ++ [bucket] := by
  rw [opened]
  split
  · rfl
  · next missing => rw [createBucket, Table.keys_put, if_neg missing]

theorem mem_keys_opened (s : Storage) (bucket : String) : bucket ∈ Table.keys (s.opened bucket).buckets := by
  rw [keys_opened]
  split
  · next there => exact there
  · simp

theorem nodup_opened {s : Storage} (h : (Table.keys s.buckets).Nodup) (bucket : String) :
    (Table.keys (s.opened bucket).buckets).Nodup := by
  rw [opened]
  split
  · exact h
  · exact Table.nodup_put h _ _

theorem objects_opened (s : Storage) (bucket : String) :
    (s.opened bucket).objects bucket = s.objects bucket := by
  rw [opened]
  split
  · rfl
  · next missing =>
    rw [objects, objects, createBucket, Table.get?_put_self,
      (Table.get?_eq_none_iff _ _).mpr missing]
    rfl

theorem get?_opened (s : Storage) {bucket b : String} (h : b ≠ bucket) :
    Table.get? (s.opened bucket).buckets b = Table.get? s.buckets b := by
  rw [opened]
  split
  · rfl
  · exact Table.get?_put_of_ne _ _ h.symm

theorem startsWith_iff {stem name : String} :
    startsWith stem name = true ↔ stem.toList <+: name.toList := by
  rw [startsWith, List.isPrefixOf_iff_prefix]

theorem startsWith_trans {a b c : String} (hab : startsWith a b = true)
    (hbc : startsWith b c = true) : startsWith a c = true := by
  rw [startsWith_iff] at *
  exact hab.trans hbc

theorem startsWith_extend (stem : String) {ns : List String} (h : AllProper ns) :
    startsWith stem (extend stem ns) = true := by
  rw [startsWith_iff]
  induction ns generalizing stem with
  | nil => exact List.prefix_refl _
  | cons n ns ih =>
    rw [extend_cons]
    refine List.IsPrefix.trans ?_ (ih (join stem n) h.tail)
    rw [toList_join h.head.not_isAbsolute, List.append_assoc]
    exact List.prefix_append _ _

/-- Below a stem the objects are exactly the given files. -/
def Shelf (os : Table String Bytes) (stem : String) (files : List (Place × Bytes)) : Prop :=
  ∀ name c, startsWith stem name = true →
    (Table.get? os name = some c ↔ ∃ q, (q, c) ∈ files ∧ name = extend stem q)

theorem mem_listing {s : Storage} {bucket stem : String} {e : String × Bytes} :
    e ∈ s.listing bucket stem ↔ e ∈ s.objects bucket ∧ startsWith stem e.1 = true := by
  rw [listing, List.mem_mergeSort, List.mem_filter]

theorem listing_of_list {s : Storage} {bucket stem : String} {objects : List (String × Bytes)}
    (h : s.list bucket stem = .ok objects) : s.listing bucket stem = objects := by
  rw [list] at h
  split at h
  · cases h
  · exact Except.ok.inj h

theorem listing_perm (s : Storage) (bucket stem : String) :
    (s.listing bucket stem).Perm ((s.objects bucket).filter (fun o => startsWith stem o.1)) :=
  List.mergeSort_perm _ _

theorem nodup_listing {s : Storage} {bucket : String} (h : (Table.keys (s.objects bucket)).Nodup)
    (stem : String) : ((s.listing bucket stem).map (·.1)).Nodup :=
  ((listing_perm s bucket stem).map _).nodup_iff.mpr (Table.nodup_filter h _)

end SqlMigration.Storage
