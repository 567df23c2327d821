import Mathlib.Data.List.Perm.Basic
import SqlMigration.Proofs.Schema.Records

/-!
# The order of keys

Two values may differ in nothing but the order of the keys in their mappings. A
relation says so when it is kept on the way into the values, so that it also
speaks of values that are parts of themselves. What records, lists and scalars
give and what is wrong with them does not depend on the order of keys; only the
text that a complaint quotes may. The members of a set have no order of their
own, and in another order they give the same up to that order.
-/

set_option autoImplicit false

namespace SqlMigration

def Value.halves? (v : Value) : Option (Value × Value) :=
  match v.layer with
  | .pair a b => some (a, b)
  | _ => none

theorem Value.halves?_eq_some {v a b : Value} : v.halves? = some (a, b) ↔ v.layer = .pair a b := by
  rw [halves?]
  cases v.layer <;> simp

/-- The same keys in any order, with related values under each. -/
def SameEntries (R : Value → Value → Prop) (es fs : List (Scalar × Value)) : Prop :=
  (es.map Prod.fst).Perm (fs.map Prod.fst) ∧ ∀ k x y, (k, x) ∈ es → (k, y) ∈ fs → R x y

/-- Related values differ at most in the order of keys, and what is inside them is related. -/
structure Reordering (R : Value → Value → Prop) : Prop where
  scalar {v w : Value} (h : R v w) : v.scalar? = w.scalar?
  items {v w : Value} (h : R v w) : Option.Rel (List.Forall₂ R) v.items? w.items?
  halves {v w : Value} (h : R v w) :
    Option.Rel (fun p q => R p.1 q.1 ∧ R p.2 q.2) v.halves? w.halves?
  entries {v w : Value} (h : R v w) : Option.Rel (SameEntries R) v.entries? w.entries?

def Reordered (v w : Value) : Prop := ∃ R, Reordering R ∧ R v w

/-- Related values differ at most in the order of keys, of members and of items. -/
structure Stirring (R : Value → Value → Prop) : Prop where
  scalar {v w : Value} (h : R v w) : v.scalar? = w.scalar?
  items {v w : Value} (h : R v w) :
    Option.Rel (fun is js => ∃ ks, List.Forall₂ R is ks ∧ ks.Perm js) v.items? w.items?
  entries {v w : Value} (h : R v w) : Option.Rel (SameEntries R) v.entries? w.entries?

def Stirred (v w : Value) : Prop := ∃ R, Stirring R ∧ R v w

/-- The same complaint, but for a text that it quotes. -/
inductive Complaint.Like : Complaint → Complaint → Prop
  | same (c : Complaint) : Like c c
  | noConversion (shown shown' : Option Text) : Like (.noConversion shown) (.noConversion shown')

section Options

variable {α β : Type} {r : α → β → Prop} {o : Option α} {p : Option β}

theorem related_flip {q : β → α → Prop} (h : Option.Rel r o p) (imp : ∀ a b, r a b → q b a) :
    Option.Rel q p o := by
  cases h with
  | none => exact .none
  | some same => exact .some (imp _ _ same)

theorem related_imp {q : α → β → Prop} (h : Option.Rel r o p) (imp : ∀ a b, r a b → q a b) :
    Option.Rel q o p := by
  cases h with
  | none => exact .none
  | some same => exact .some (imp _ _ same)

theorem related_some {a : α} (h : Option.Rel r o p) (there : o = some a) : ∃ b, p = some b ∧ r a b := by
  cases h with
  | none => cases there
  | some same =>
    cases there
    exact ⟨_, rfl, same⟩

theorem related_none (h : Option.Rel r o p) (absent : o = none) : p = none := by
  cases h with
  | none => rfl
  | some same => cases absent

theorem related_getElem? {as : List α} {bs : List β} (h : List.Forall₂ r as bs) (i : Nat) :
    Option.Rel r as[i]? bs[i]? := by
  induction h generalizing i with
  | nil => exact .none
  | cons first _ ih =>
    cases i with
    | zero => exact .some first
    | succ i => exact ih i

end Options

theorem SameEntries.flip {R : Value → Value → Prop} {es fs : List (Scalar × Value)} (h : SameEntries R es fs) :
    SameEntries (flip R) fs es :=
  ⟨h.1.symm, fun k x y hx hy => h.2 k y x hy hx⟩

theorem Reordering.flip {R : Value → Value → Prop} (h : Reordering R) : Reordering (flip R) where
  scalar r := (h.scalar r).symm
  items r := related_flip (h.items r) fun _ _ same => same.flip
  halves r := related_flip (h.halves r) fun _ _ same => same
  entries r := related_flip (h.entries r) fun _ _ same => same.flip

theorem Reordering.stirring {R : Value → Value → Prop} (h : Reordering R) : Stirring R where
  scalar := h.scalar
  items r := related_imp (h.items r) fun _ js same => ⟨js, same, .refl js⟩
  entries := h.entries

namespace SameEntries

variable {R : Value → Value → Prop} {es fs : List (Scalar × Value)}

theorem field?_none (h : SameEntries R es fs) {name : String} (absent : Value.field? es name = none) :
    Value.field? fs name = none := by
  rw [Value.field?_eq_none_iff] at absent ⊢
  exact fun there => absent (h.1.mem_iff.mpr there)

theorem field?_some (h : SameEntries R es fs) {name : String} {x : Value}
    (stored : Value.field? es name = some x) : ∃ y, Value.field? fs name = some y ∧ R x y := by
  cases other : Value.field? fs name with
  | none => cases stored.symm.trans (h.flip.field?_none other)
  | some y => exact ⟨y, rfl, h.2 _ x y (Value.mem_of_field? stored) (Value.mem_of_field? other)⟩

theorem mem (h : SameEntries R es fs) {k : Scalar} {x : Value} (there : (k, x) ∈ es) :
    ∃ y, (k, y) ∈ fs ∧ R x y := by
  obtain ⟨⟨k, y⟩, there', rfl⟩ := List.mem_map.mp (h.1.mem_iff.mp (List.mem_map_of_mem (f := Prod.fst) there))
  exact ⟨y, there', h.2 _ x y there there'⟩

theorem only (h : SameEntries R es fs) {names : List String} (known : Schema.Only names es) :
    Schema.Only names fs := by
  rintro ⟨k, y⟩ there
  obtain ⟨x, there', _⟩ := h.flip.mem there
  exact known (k, x) there'

end SameEntries

theorem Reordering.part {R : Value → Value → Prop} (h : Reordering R) {v w x : Value} (r : R v w)
    (part : v.HasPart x) : ∃ y, w.HasPart y ∧ (R x y ∨ ∃ k, x = .scalar k ∧ y = .scalar k) := by
  induction part with
  | self => exact ⟨w, .self, Or.inl r⟩
  | @key x _ k es _ inside mem ih =>
    obtain ⟨y, part, r' | ⟨_, rfl, _⟩⟩ := ih
    · obtain ⟨fs, inside', same⟩ := related_some (h.entries r') inside
      obtain ⟨z, mem', _⟩ := same.mem mem
      exact ⟨_, .key part inside' mem', Or.inr ⟨k, rfl, rfl⟩⟩
    · cases inside
  | @entry x _ k es _ inside mem ih =>
    obtain ⟨y, part, r' | ⟨_, rfl, _⟩⟩ := ih
    · obtain ⟨fs, inside', same⟩ := related_some (h.entries r') inside
      obtain ⟨z, mem', r''⟩ := same.mem mem
      exact ⟨z, .entry part inside' mem', Or.inl r''⟩
    · cases inside
  | @item x _ items _ inside mem ih =>
    obtain ⟨y, part, r' | ⟨_, rfl, _⟩⟩ := ih
    · obtain ⟨items', inside', same⟩ := related_some (h.items r') inside
      obtain ⟨i, there⟩ := List.mem_iff_getElem?.mp mem
      obtain ⟨z, there', r''⟩ := related_some (related_getElem? same i) there
      exact ⟨z, .item part inside' (List.mem_of_getElem? there'), Or.inl r''⟩
    · cases inside
  | @first x a b _ inside ih =>
    obtain ⟨y, part, r' | ⟨_, rfl, _⟩⟩ := ih
    · obtain ⟨⟨c, d⟩, inside', same⟩ := related_some (h.halves r') (Value.halves?_eq_some.mpr inside)
      exact ⟨c, .first part (Value.halves?_eq_some.mp inside'), Or.inl same.1⟩
    · cases inside
  | @second x a b _ inside ih =>
    obtain ⟨y, part, r' | ⟨_, rfl, _⟩⟩ := ih
    · obtain ⟨⟨c, d⟩, inside', same⟩ := related_some (h.halves r') (Value.halves?_eq_some.mpr inside)
      exact ⟨d, .second part (Value.halves?_eq_some.mp inside'), Or.inl same.2⟩
    · cases inside

theorem Reordering.scalar_part {R : Value → Value → Prop} (h : Reordering R) {v w x : Value} (r : R v w)
    (part : v.HasPart x) : ∃ y, w.HasPart y ∧ y.scalar? = x.scalar? := by
  obtain ⟨y, part', r' | ⟨k, rfl, rfl⟩⟩ := h.part r part
  · exact ⟨y, part', (h.scalar r').symm⟩
  · exact ⟨_, part', rfl⟩

/-! ### Heaps whose places belong together -/

/-- Two parts differ at most in the order of keys, where it is given which places belong together. -/
def Part.alike (together : List (Nat × Nat)) : Part → Part → Bool
  | .scalar s, .scalar t => s = t
  | .list is, .list js => is.all₂ (fun i j => (i, j) ∈ together) js
  | .pairs ps, .pairs qs => ps.all₂ (fun p q => (p.1, q.1) ∈ together && (p.2, q.2) ∈ together) qs
  | .set ms, .set ns => ms = ns
  | .map es, .map fs =>
    (es.map Prod.fst).isPerm (fs.map Prod.fst) &&
      es.all (fun e => fs.all (fun f => e.1 ≠ f.1 || (e.2, f.2) ∈ together))
  | _, _ => false

/-- Two values are at places that belong together, and so is all that is inside them. -/
def Value.alike (together : List (Nat × Nat)) : Value → Value → Bool
  | .place h i, .place h' j =>
    (i, j) ∈ together && together.all (fun p => Part.alike together (h.part p.1) (h'.part p.2))
  | _, _ => false

/-- Values at places that belong together, pairs of such values, and scalars that are the same. -/
inductive Value.Together (h h' : Heap) (together : List (Nat × Nat)) : Value → Value → Prop
  | place {i j : Nat} (mem : (i, j) ∈ together) : Together h h' together (.place h i) (.place h' j)
  | pair {i j k l : Nat} (first : (i, j) ∈ together) (second : (k, l) ∈ together) :
      Together h h' together (.pair (.place h i) (.place h k)) (.pair (.place h' j) (.place h' l))
  | scalar (s : Scalar) : Together h h' together (.scalar s) (.scalar s)

section Heaps

variable {h h' : Heap} {together : List (Nat × Nat)}

theorem sameEntries_of_alike {es fs : List (Scalar × Nat)}
    (alike : Part.alike together (.map es) (.map fs) = true) :
    SameEntries (Value.Together h h' together) (es.map (fun e => (e.1, .place h e.2)))
      (fs.map (fun f => (f.1, .place h' f.2))) := by
  rw [Part.alike, Bool.and_eq_true, List.isPerm_iff] at alike
  constructor
  · rw [List.map_map, List.map_map]
    exact alike.1
  · intro k x y hx hy
    obtain ⟨e, there, eq⟩ := List.mem_map.mp hx
    obtain ⟨f, there', eq'⟩ := List.mem_map.mp hy
    obtain ⟨key, rfl⟩ := Prod.mk.inj eq
    obtain ⟨key', rfl⟩ := Prod.mk.inj eq'
    have either := List.all_eq_true.mp (List.all_eq_true.mp alike.2 e there) f there'
    exact .place (by simpa [key, key'] using either)

theorem items_of_alike {α : Type} {r : α → α → Bool} {as bs : List α} {f g : α → Value}
    (alike : as.all₂ r bs = true)
    (related : ∀ a b, r a b = true → Value.Together h h' together (f a) (g b)) :
    List.Forall₂ (Value.Together h h' together) (as.map f) (bs.map g) := by
  have each := (List.all₂_eq_true as bs).mp alike
  exact List.forall₂_map_left_iff.mpr (List.forall₂_map_right_iff.mpr (each.imp related))

theorem Value.Together.inside
    (alike : ∀ p ∈ together, Part.alike together (h.part p.1) (h'.part p.2) = true) {v w : Value}
    (r : Value.Together h h' together v w) :
    v.scalar? = w.scalar? ∧ Option.Rel (List.Forall₂ (Value.Together h h' together)) v.items? w.items? ∧
      Option.Rel (fun p q => Value.Together h h' together p.1 q.1 ∧ Value.Together h h' together p.2 q.2)
        v.halves? w.halves? ∧
      Option.Rel (SameEntries (Value.Together h h' together)) v.entries? w.entries? := by
  cases r with
  | scalar s => exact ⟨rfl, .none, .none, .none⟩
  | pair first second => exact ⟨rfl, .none, .some ⟨.place first, .place second⟩, .none⟩
  | @place i j mem =>
    have parts := alike _ mem
    simp only [scalar?, items?, halves?, entries?, layer]
    generalize h.part i = a at parts
    generalize h'.part j = b at parts
    -- parts of two kinds are never alike
    cases a <;> cases b <;> try cases parts
    case scalar.scalar s t =>
      cases of_decide_eq_true parts
      exact ⟨rfl, .none, .none, .none⟩
    case list.list is js =>
      exact ⟨rfl, .some (items_of_alike parts fun _ _ mem => .place (of_decide_eq_true mem)), .none, .none⟩
    case pairs.pairs ps qs =>
      refine ⟨rfl, .some (items_of_alike parts fun p q both => ?_), .none, .none⟩
      obtain ⟨first, second⟩ := (Bool.and_eq_true _ _).mp both
      exact .pair (of_decide_eq_true first) (of_decide_eq_true second)
    case set.set ms ns =>
      cases of_decide_eq_true parts
      have same : List.Forall₂ (Value.Together h h' together) (ms.map .scalar) (ms.map .scalar) :=
        List.forall₂_same.mpr (List.forall_mem_map.mpr fun s _ => .scalar s)
      exact ⟨rfl, .some same, .none, .none⟩
    case map.map es fs => exact ⟨rfl, .none, .none, .some (sameEntries_of_alike parts)⟩

theorem reordered_of_alike {v w : Value} (alike : v.alike together w = true) : Reordered v w := by
  cases v <;> cases w <;> try cases alike
  case place.place h i h' j =>
    obtain ⟨here, all⟩ := (Bool.and_eq_true _ _).mp alike
    have inside {x y : Value} (r : Value.Together h h' together x y) :=
      Value.Together.inside (List.all_eq_true.mp all) r
    have reordering : Reordering (Value.Together h h' together) :=
      ⟨fun r => (inside r).1, fun r => (inside r).2.1, fun r => (inside r).2.2.1, fun r => (inside r).2.2.2⟩
    exact ⟨_, reordering, .place (of_decide_eq_true here)⟩

theorem reordered_of_readings {ε : Type} {first second : Except ε Value}
    (alike : (first.toOption.bind fun v => second.toOption.map (v.alike together)) = some true) :
    ∃ v w, first = .ok v ∧ second = .ok w ∧ Reordered v w := by
  cases first with
  | error e => cases alike
  | ok v =>
    cases second with
    | error e => cases alike
    | ok w => exact ⟨v, w, rfl, rfl, reordered_of_alike (Option.some.inj alike)⟩

end Heaps

namespace Schema

/-- What a value gives, related values give. -/
def Keeps {α : Type} (R : Value → Value → Prop) (gives : Value → α → Prop) : Prop :=
  ∀ v w, R v w → ∀ a, gives v a → gives w a

/-- What is wrong with a value is wrong with related values, in the same place. -/
def Carries (R : Value → Value → Prop) (flaw : Flaw) : Prop :=
  ∀ v w, R v w → ∀ way c, flaw v way c → ∃ d, flaw w way d ∧ c.Like d

section Order

variable {R : Value → Value → Prop}

section Stirring

variable (h : Stirring R)

include h

theorem isNull_eq {v w : Value} (r : R v w) : isNull w = isNull v := by
  rw [isNull, isNull, h.scalar r]

/-! ### What values give -/

section Gives

variable {α : Type} {gives : Value → α → Prop}

theorem keeps_text : Keeps R IsText := by
  intro v w r s given
  rw [IsText, ← h.scalar r]
  exact given

theorem keeps_flag : Keeps R IsFlag := by
  intro v w r b given
  rw [IsFlag, ← h.scalar r]
  exact given

omit h in
theorem keeps_items (keeps : Keeps R gives) {items items' : List Value} {as : List α}
    (same : List.Forall₂ R items items') (each : List.Forall₂ gives items as) :
    List.Forall₂ gives items' as := by
  rw [List.forall₂_iff_get] at same each ⊢
  refine ⟨same.1.symm.trans each.1, fun i hi hi' => ?_⟩
  have there : i < items.length := same.1 ▸ hi
  exact keeps _ _ (same.2 i there hi) _ (each.2 i there hi')

theorem stirs_list (keeps : Keeps R gives) {v w : Value} (r : R v w) {as : List α}
    (given : ListGives gives v as) : ∃ bs, as.Perm bs ∧ ListGives gives w bs := by
  obtain ⟨items, inside, each⟩ := given
  obtain ⟨items', inside', ks, same, perm⟩ := related_some (h.items r) inside
  obtain ⟨bs, each', perm'⟩ := List.perm_comp_forall₂ perm.symm (keeps_items keeps same each)
  exact ⟨bs, perm'.symm, items', inside', each'⟩

end Gives

section Fields

variable {α : Type} {gives : Value → α → Prop} {es fs : List (Scalar × Value)} {name : String}

omit h in
theorem keeps_stored {holds : Value → Prop} (keeps : ∀ v w, R v w → holds v → holds w)
    (same : SameEntries R es fs) (given : Stored es name holds) : Stored fs name holds := by
  obtain ⟨x, stored, holds⟩ := given
  obtain ⟨y, stored', r⟩ := same.field?_some stored
  exact ⟨y, stored', keeps x y r holds⟩

omit h in
theorem keeps_storedOr {fallback a : α} (keeps : Keeps R gives) (same : SameEntries R es fs)
    (given : StoredOr fallback es name gives a) : StoredOr fallback fs name gives a := by
  rcases given with ⟨absent, rfl⟩ | given
  · exact Or.inl ⟨same.field?_none absent, rfl⟩
  · exact Or.inr (keeps_stored (fun v w r => keeps v w r a) same given)

theorem keeps_storedOrNull {o : Option α} (keeps : Keeps R gives) (same : SameEntries R es fs)
    (given : StoredOrNull es name gives o) : StoredOrNull fs name gives o := by
  cases o with
  | none =>
    intro y stored
    obtain ⟨x, stored', r⟩ := same.flip.field?_some stored
    rw [isNull_eq h r]
    exact given x stored'
  | some a => exact keeps_stored (fun v w r => keeps v w r a) same given

theorem stirs_storedOrNull {o : Option (List α)} (keeps : Keeps R gives) (same : SameEntries R es fs)
    (given : StoredOrNull es name (ListGives gives) o) :
    ∃ o', Option.Rel List.Perm o o' ∧ StoredOrNull fs name (ListGives gives) o' := by
  cases o with
  | none =>
    refine ⟨none, .none, fun y stored => ?_⟩
    obtain ⟨x, stored', r⟩ := same.flip.field?_some stored
    rw [isNull_eq h r]
    exact given x stored'
  | some as =>
    obtain ⟨x, stored, given⟩ := given
    obtain ⟨y, stored', r⟩ := same.field?_some stored
    obtain ⟨bs, perm, given'⟩ := stirs_list h keeps r given
    exact ⟨some bs, .some perm, y, stored', given'⟩

end Fields

end Stirring

variable (h : Reordering R)

include h

theorem keeps_list {α : Type} {gives : Value → α → Prop} (keeps : Keeps R gives) :
    Keeps R (ListGives gives) := by
  rintro v w r as ⟨items, inside, each⟩
  obtain ⟨items', inside', same⟩ := related_some (h.items r) inside
  exact ⟨items', inside', keeps_items keeps same each⟩

/-! ### What is wrong with values -/

theorem carries_text : Carries R TextFlaw := by
  rintro v w r way c (⟨unspelled, unwritten⟩ | ⟨written, unreadable⟩)
  · rw [Value.NotBinary] at unwritten
    rw [h.scalar r] at unwritten
    simp only [h.scalar r] at unspelled
    exact ⟨_, .notText unspelled unwritten, .same _⟩
  · exact ⟨_, .notUtf8 (h.scalar r ▸ written) unreadable, .same _⟩

theorem carries_flag : Carries R FlagFlaw := by
  rintro v w r way c ⟨other⟩
  exact ⟨_, .notFlag fun b given => other b (keeps_flag h.flip.stirring w v r b given), .same _⟩

variable {flaw : Flaw}

theorem carries_nullOr (carries : Carries R flaw) : Carries R (NullOr flaw) := by
  rintro v w r way c (null | ⟨nonnull, wrong⟩)
  · exact ⟨_, .null ((isNull_eq h.stirring r).trans null), .same _⟩
  · obtain ⟨d, wrong', like⟩ := carries v w r way c wrong
    exact ⟨d, .within ((isNull_eq h.stirring r).trans nonnull) wrong', like⟩

theorem carries_list (carries : Carries R flaw) : Carries R (ListFlaw flaw) := by
  rintro v w r way c (none | ⟨inside, there, wrong⟩)
  · exact ⟨_, .notList (related_none (h.items r) none), .same _⟩
  · obtain ⟨items', inside', same⟩ := related_some (h.items r) inside
    obtain ⟨y, there', r'⟩ := related_some (related_getElem? same _) there
    obtain ⟨d, wrong', like⟩ := carries_nullOr h carries _ y r' _ c wrong
    exact ⟨d, .member inside' there' wrong', like⟩

theorem carries_broken {rule : Rule} (carries : Carries R rule.flaw) {es fs : List (Scalar × Value)}
    (same : SameEntries R es fs) {way : List Scalar} {c : Complaint} (broken : rule.Broken es way c) :
    ∃ d, rule.Broken fs way d ∧ c.Like d := by
  rcases broken with ⟨needed, absent⟩ | ⟨stored, null, refused⟩ | ⟨stored, nonnull, wrong⟩
  · exact ⟨_, .missing needed (same.field?_none absent), .same _⟩
  · obtain ⟨y, stored', r⟩ := same.field?_some stored
    exact ⟨_, .null stored' ((isNull_eq h.stirring r).trans null) refused, .same _⟩
  · obtain ⟨y, stored', r⟩ := same.field?_some stored
    obtain ⟨d, wrong', like⟩ := carries _ y r _ c wrong
    exact ⟨d, .within stored' ((isNull_eq h.stirring r).trans nonnull) wrong', like⟩

theorem carries_record {rules : List Rule} (carries : ∀ rule ∈ rules, Carries R rule.flaw) :
    Carries R (RecordFlaw rules) := by
  rintro v w r way c (none | ⟨inside, mem, broken⟩ | ⟨inside, mem, unknown⟩)
  · exact ⟨_, .notRecord (related_none (h.entries r) none), .same _⟩
  · obtain ⟨fs, inside', same⟩ := related_some (h.entries r) inside
    obtain ⟨d, broken', like⟩ := carries_broken h (carries _ mem) same broken
    exact ⟨d, .field inside' mem broken', like⟩
  · obtain ⟨fs, inside', same⟩ := related_some (h.entries r) inside
    obtain ⟨y, mem', _⟩ := same.mem mem
    exact ⟨_, .unknown inside' mem' unknown, .same _⟩

end Order

end Schema

end SqlMigration
