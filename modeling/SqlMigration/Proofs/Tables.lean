import Mathlib.Data.List.Induction
import Mathlib.Data.List.Nodup
import SqlMigration.Table

/-!
# Keys and look-ups of tables

A table without repeated keys is determined by its look-ups, and every way of
storing keeps it free of repeated keys. Storing many pairs one after another
binds each key to the last of its values.
-/

set_option autoImplicit false

namespace SqlMigration.Table

variable {α β : Type} [DecidableEq α]

theorem get?_put (t : Table α β) (k l : α) (v : β) :
    get? (put t k v) l = if k = l then some v else get? t l := by
  split
  · next h => rw [← h, get?_put_self]
  · next h => exact get?_put_of_ne t v h

theorem get?_filter (t : Table α β) (keep : α → Bool) (k : α) :
    get? (t.filter (fun p => keep p.1)) k = if keep k then get? t k else none := by
  induction t with
  | nil => simp [get?]
  | cons p t ih =>
    obtain ⟨a, b⟩ := p
    by_cases ha : a = k
    · subst ha
      cases hk : keep a <;> simp [hk, get?] at ih ⊢
      exact ih
    · cases hk : keep a <;> simp [hk, get?, ha, ih]

theorem get?_remove (t : Table α β) (k l : α) :
    get? (remove t k) l = if l = k then none else get? t l := by
  have h := get?_filter t (fun a => decide (a ≠ k)) l
  rw [remove, h]
  by_cases hl : l = k <;> simp [hl]

theorem get?_eq_none_iff (t : Table α β) (k : α) : get? t k = none ↔ k ∉ keys t := by
  induction t with
  | nil => simp [get?, keys]
  | cons p t ih =>
    obtain ⟨a, b⟩ := p
    simp only [keys] at ih
    by_cases h : a = k
    · simp [get?, keys, h]
    · have hk : ¬ k = a := fun e => h e.symm
      simp [get?, keys, h, hk, ih]

theorem mem_of_get? {t : Table α β} {k : α} {v : β} (h : get? t k = some v) : (k, v) ∈ t := by
  induction t with
  | nil => simp [get?] at h
  | cons p t ih =>
    obtain ⟨a, b⟩ := p
    by_cases ha : a = k
    · subst ha
      simp only [get?, if_true, Option.some.injEq] at h
      simp [h]
    · simp only [get?, if_neg ha] at h
      exact List.mem_cons_of_mem _ (ih h)

theorem get?_of_mem {t : Table α β} (hn : (keys t).Nodup) {k : α} {v : β} (h : (k, v) ∈ t) :
    get? t k = some v := by
  induction t with
  | nil => simp at h
  | cons p t ih =>
    obtain ⟨a, b⟩ := p
    obtain ⟨ha, ht⟩ := List.nodup_cons.mp hn
    rcases List.mem_cons.mp h with e | hm
    · cases e
      simp [get?]
    · have hk : a ≠ k := by
        rintro rfl
        exact ha (List.mem_map.mpr ⟨_, hm, rfl⟩)
      simp only [get?, if_neg hk]
      exact ih ht hm

theorem mem_iff_get? {t : Table α β} (hn : (keys t).Nodup) (k : α) (v : β) :
    (k, v) ∈ t ↔ get? t k = some v :=
  ⟨get?_of_mem hn, mem_of_get?⟩

theorem nodup_put {t : Table α β} (hn : (keys t).Nodup) (k : α) (v : β) :
    (keys (put t k v)).Nodup := by
  rw [keys_put]
  split
  · exact hn
  · next h =>
    rw [List.nodup_append]
    refine ⟨hn, List.nodup_singleton k, ?_⟩
    intro a ha b hb e
    rw [List.mem_singleton] at hb
    exact h (hb ▸ e ▸ ha)

omit [DecidableEq α] in
theorem nodup_filter {t : Table α β} (hn : (keys t).Nodup) (keep : α × β → Bool) :
    (keys (t.filter keep)).Nodup :=
  hn.sublist (List.filter_sublist.map _)

theorem mem_put {t : Table α β} {k : α} {v : β} {p : α × β} (h : p ∈ put t k v) :
    p = (k, v) ∨ p ∈ t := by
  induction t with
  | nil => exact Or.inl (by simpa [put] using h)
  | cons q t ih =>
    obtain ⟨a, b⟩ := q
    by_cases ha : a = k
    · rw [put, if_pos ha, List.mem_cons] at h
      rcases h with h | h
      · exact Or.inl (by rw [h, ha])
      · exact Or.inr (List.mem_cons_of_mem _ h)
    · rw [put, if_neg ha, List.mem_cons] at h
      rcases h with h | h
      · exact Or.inr (by simp [h])
      · exact (ih h).imp id (List.mem_cons_of_mem _)

@[simp]
theorem putAll_nil (t : Table α β) : putAll t [] = t := rfl

theorem putAll_append (t : Table α β) (ps qs : List (α × β)) :
    putAll t (ps ++ qs) = putAll (putAll t ps) qs := by
  simp [putAll]

theorem mem_putAll {t : Table α β} {ps : List (α × β)} {p : α × β} (h : p ∈ putAll t ps) :
    p ∈ t ∨ p ∈ ps := by
  induction ps generalizing t with
  | nil => exact Or.inl h
  | cons q ps ih =>
    rcases ih (t := put t q.1 q.2) h with h | h
    · rcases mem_put h with h | h
      · exact Or.inr (by simp [h])
      · exact Or.inl h
    · exact Or.inr (List.mem_cons_of_mem _ h)

theorem mem_keys_putAll (t : Table α β) (ps : List (α × β)) (k : α) :
    k ∈ keys (putAll t ps) ↔ k ∈ keys t ∨ k ∈ ps.map (·.1) := by
  induction ps generalizing t with
  | nil => simp [putAll]
  | cons q ps ih =>
    change k ∈ keys (putAll (put t q.1 q.2) ps) ↔ _
    rw [ih, keys_put]
    by_cases hq : q.1 ∈ keys t
    · rw [if_pos hq, List.map_cons, List.mem_cons]
      constructor
      · exact fun h => h.imp id Or.inr
      · rintro (h | rfl | h)
        · exact Or.inl h
        · exact Or.inl hq
        · exact Or.inr h
    · rw [if_neg hq, List.mem_append, List.mem_singleton, List.map_cons, List.mem_cons, or_assoc]

theorem nodup_putAll {t : Table α β} (hn : (keys t).Nodup) (ps : List (α × β)) :
    (keys (putAll t ps)).Nodup := by
  induction ps generalizing t with
  | nil => exact hn
  | cons q ps ih => exact ih (nodup_put hn q.1 q.2)

theorem get?_putAll {ps : Table α β} (hn : (keys ps).Nodup) (t : Table α β) (k : α) :
    get? (putAll t ps) k = (get? ps k).or (get? t k) := by
  induction ps generalizing t with
  | nil => rfl
  | cons q ps ih =>
    obtain ⟨a, b⟩ := q
    obtain ⟨ha, hp⟩ := List.nodup_cons.mp hn
    change get? (putAll (put t a b) ps) k = _
    rw [ih hp, get?_put, get?]
    split
    · next e =>
      rw [(get?_eq_none_iff ps k).mpr (e ▸ ha)]
      rfl
    · rfl

/-! ### Tables of pairs -/

theorem ofPairs_concat (ps : List (α × β)) (q : α × β) :
    ofPairs (ps ++ [q]) = put (ofPairs ps) q.1 q.2 := by
  simp [ofPairs, putAll]

/-- The keys stand in the order in which they first arrive. -/
theorem keys_ofPairs (ps : List (α × β)) : keys (ofPairs ps) = (ps.map (·.1)).eraseDups := by
  induction ps using List.reverseRecOn with
  | nil => rfl
  | append_singleton ps q ih =>
    rw [ofPairs_concat, keys_put, ih, List.map_append, List.map_singleton, List.eraseDups_append]
    by_cases known : q.1 ∈ ps.map (·.1)
    · rw [if_pos (List.mem_eraseDups.mpr known)]
      simp [List.removeAll, known]
    · rw [if_neg (mt List.mem_eraseDups.mp known)]
      simp [List.removeAll, known, List.eraseDups_cons]

theorem put_of_notMem {t : Table α β} {k : α} (absent : k ∉ keys t) (v : β) : put t k v = t ++ [(k, v)] := by
  induction t with
  | nil => rfl
  | cons p t ih =>
    obtain ⟨a, b⟩ := p
    obtain ⟨differ, rest⟩ := List.ne_and_not_mem_of_not_mem_cons absent
    rw [put, if_neg (Ne.symm differ), ih rest, List.cons_append]

theorem ofPairs_of_nodup {ps : List (α × β)} (distinct : (keys ps).Nodup) : ofPairs ps = ps := by
  induction ps using List.reverseRecOn with
  | nil => rfl
  | append_singleton ps q ih =>
    rw [keys, List.map_append] at distinct
    have apart := List.nodup_append'.mp distinct
    rw [ofPairs_concat, ih apart.1]
    exact put_of_notMem (fun there => apart.2.2 there (List.mem_singleton_self _)) q.2

/-- The value that arrives last counts. -/
theorem get?_ofPairs (ps : List (α × β)) (k : α) :
    get? (ofPairs ps) k = (ps.reverse.find? (fun p => p.1 = k)).map (·.2) := by
  induction ps using List.reverseRecOn with
  | nil => rfl
  | append_singleton ps q ih =>
    rw [ofPairs_concat, get?_put, ih, List.reverse_append, List.reverse_singleton, List.singleton_append,
      List.find?_cons]
    by_cases h : q.1 = k <;> simp [h]

theorem put_put_self (t : Table α β) (k : α) (v w : β) : put (put t k v) k w = put t k w := by
  induction t with
  | nil => simp [put]
  | cons p t ih =>
    obtain ⟨a, b⟩ := p
    by_cases h : a = k <;> simp [put, h, ih]

/-- A key that is there keeps its place, so it may be stored before another one or after it. -/
theorem put_put_of_ne {t : Table α β} {k l : α} (there : k ∈ keys t) (differ : l ≠ k) (v x : β) :
    put (put t l x) k v = put (put t k v) l x := by
  induction t with
  | nil => cases there
  | cons p t ih =>
    obtain ⟨a, b⟩ := p
    by_cases hk : a = k
    · subst hk
      simp [put, differ.symm]
    · have later : k ∈ keys t := (List.mem_cons.mp there).resolve_left (fun e => hk e.symm)
      by_cases hl : a = l
      · subst hl
        simp [put, hk]
      · simp [put, hk, hl, ih later]

theorem mem_keys_put {t : Table α β} {k l : α} {v : β} : k ∈ keys (put t l v) ↔ k ∈ keys t ∨ k = l := by
  rw [keys_put]
  split
  · next there =>
    refine ⟨Or.inl, ?_⟩
    rintro (h | rfl)
    · exact h
    · exact there
  · rw [List.mem_append, List.mem_singleton]

theorem put_putAll {t s : Table α β} {k : α} (there : k ∈ keys t) (absent : k ∉ keys s) (v : β) :
    put (putAll t s) k v = putAll (put t k v) s := by
  induction s generalizing t with
  | nil => rfl
  | cons p s ih =>
    obtain ⟨a, b⟩ := p
    have differ : a ≠ k := by
      rintro rfl
      exact absent List.mem_cons_self
    have absent' : k ∉ keys s := fun h => absent (List.mem_cons_of_mem _ h)
    change put (putAll (put t a b) s) k v = putAll (put (put t k v) a b) s
    rw [ih (mem_keys_put.mpr (Or.inl there)) absent', put_put_of_ne there differ]

theorem putAll_put {s : Table α β} (distinct : (keys s).Nodup) (t : Table α β) (k : α) (v : β) :
    putAll t (put s k v) = put (putAll t s) k v := by
  induction s generalizing t with
  | nil => rfl
  | cons p s ih =>
    obtain ⟨a, b⟩ := p
    obtain ⟨absent, distinct⟩ := List.nodup_cons.mp distinct
    change putAll t (if a = k then (a, v) :: s else (a, b) :: put s k v) = put (putAll (put t a b) s) k v
    split
    · next same =>
      subst same
      rw [put_putAll (mem_keys_put.mpr (Or.inr rfl)) absent, put_put_self]
      rfl
    · exact ih distinct (put t a b)

theorem putAll_ofPairs (t : Table α β) (ps : List (α × β)) : putAll t (ofPairs ps) = putAll t ps := by
  induction ps using List.reverseRecOn with
  | nil => rfl
  | append_singleton ps q ih =>
    have distinct : (keys (ofPairs ps)).Nodup := nodup_putAll (t := []) List.nodup_nil ps
    rw [ofPairs_concat, putAll_put distinct, ih, putAll_append]
    rfl

/-! ### Renamed keys -/

section Rename

variable {γ : Type}

def rename (f : α → γ) (t : Table α β) : Table γ β := t.map (fun p => (f p.1, p.2))

omit [DecidableEq α] in
theorem keys_rename (f : α → γ) (t : Table α β) : keys (rename f t) = (keys t).map f := by
  simp [keys, rename]

variable [DecidableEq γ] {f : α → γ} (injective : ∀ a b, f a = f b → a = b)
include injective

theorem get?_rename (t : Table α β) (k : α) : get? (rename f t) (f k) = get? t k := by
  induction t with
  | nil => rfl
  | cons p t ih =>
    obtain ⟨a, b⟩ := p
    change (if f a = f k then some b else get? (rename f t) (f k)) = if a = k then some b else get? t k
    by_cases h : a = k
    · rw [if_pos h, if_pos (h ▸ rfl)]
    · rw [if_neg h, if_neg (fun e => h (injective a k e)), ih]

theorem put_rename (t : Table α β) (k : α) (v : β) :
    put (rename f t) (f k) v = rename f (put t k v) := by
  induction t with
  | nil => rfl
  | cons p t ih =>
    obtain ⟨a, b⟩ := p
    change (if f a = f k then (f a, v) :: rename f t else (f a, b) :: put (rename f t) (f k) v) =
      rename f (if a = k then (a, v) :: t else (a, b) :: put t k v)
    by_cases h : a = k
    · rw [if_pos h, if_pos (h ▸ rfl)]
      rfl
    · rw [if_neg h, if_neg (fun e => h (injective a k e)), ih]
      rfl

theorem putAll_rename (t ps : Table α β) :
    putAll (rename f t) (rename f ps) = rename f (putAll t ps) := by
  induction ps generalizing t with
  | nil => rfl
  | cons p ps ih =>
    change putAll (put (rename f t) (f p.1) p.2) (rename f ps) = _
    rw [put_rename injective, ih]
    rfl

end Rename

end SqlMigration.Table
