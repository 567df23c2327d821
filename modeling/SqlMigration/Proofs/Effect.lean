/-!
# Computations that may stop

Laws for computations with a state that may stop on the way: what follows a
success goes on from the state it has left, what follows a failure is not done.
A loop keeps what each of its rounds keeps.
-/

set_option autoImplicit false

namespace SqlMigration.Effect

variable {ε σ α β : Type}

theorem bind_eq_ok {x : Except ε α} {f : α → Except ε β} {b : β} (h : x >>= f = .ok b) :
    ∃ a, x = .ok a ∧ f a = .ok b := by
  cases x with
  | error e => cases h
  | ok a => exact ⟨a, rfl, h⟩

theorem bind_eq_error {x : Except ε α} {f : α → Except ε β} {e : ε} (h : x >>= f = .error e) :
    x = .error e ∨ ∃ a, x = .ok a ∧ f a = .error e := by
  cases x with
  | error e' =>
    cases h
    exact Or.inl rfl
  | ok a => exact Or.inr ⟨a, rfl, h⟩

theorem mapError_eq_ok {ε' : Type} {x : Except ε α} {f : ε → ε'} {a : α} :
    x.mapError f = .ok a ↔ x = .ok a := by
  cases x with
  | error e => constructor <;> intro h <;> cases h
  | ok b => constructor <;> intro h <;> cases h <;> rfl

theorem toOption_eq_some {x : Except ε α} {a : α} : x.toOption = some a ↔ x = .ok a := by
  cases x with
  | error e => constructor <;> intro h <;> cases h
  | ok b => constructor <;> intro h <;> cases h <;> rfl

theorem ok_of_toOption_map {x : Except ε α} {f : α → β} {b : β} (h : x.toOption.map f = some b) :
    ∃ a, x = .ok a ∧ f a = b := by
  cases x with
  | error e => cases h
  | ok a => exact ⟨a, rfl, Option.some.inj h⟩

theorem bind_ok {x : EStateM ε σ α} {f : α → EStateM ε σ β} {s s' : σ} {a : α}
    (h : x s = .ok a s') : (x >>= f) s = f a s' := by
  change EStateM.bind x f s = _
  simp only [EStateM.bind, h]

theorem bind_error {x : EStateM ε σ α} {f : α → EStateM ε σ β} {s s' : σ} {e : ε}
    (h : x s = .error e s') : (x >>= f) s = .error e s' := by
  change EStateM.bind x f s = _
  simp only [EStateM.bind, h]

theorem bind_same {x y : EStateM ε σ α} {f : α → EStateM ε σ β} {s : σ} (h : x s = y s) :
    (x >>= f) s = (y >>= f) s := by
  change EStateM.bind x f s = EStateM.bind y f s
  simp only [EStateM.bind, h]

theorem ok_of_bind {x : EStateM ε σ α} {f : α → EStateM ε σ β} {s s'' : σ} {b : β}
    (h : (x >>= f) s = .ok b s'') : ∃ a s', x s = .ok a s' ∧ f a s' = .ok b s'' := by
  cases hx : x s with
  | ok a s' => exact ⟨a, s', rfl, by rw [← h, bind_ok hx]⟩
  | error e s' =>
    rw [bind_error hx] at h
    cases h

theorem tryCatch_ok {x : EStateM ε σ α} {f : ε → EStateM ε σ α} {s s' : σ} {a : α}
    (h : x s = .ok a s') : tryCatch x f s = .ok a s' := by
  change EStateM.tryCatch x f s = _
  delta EStateM.tryCatch
  dsimp only
  rw [h]

theorem tryCatch_error {x : EStateM ε σ α} {f : ε → EStateM ε σ α} {s s' : σ} {e : ε}
    (h : x s = .error e s') : tryCatch x f s = f e s' := by
  change EStateM.tryCatch x f s = _
  delta EStateM.tryCatch
  dsimp only
  rw [h]
  exact rfl

@[simp]
theorem pure_apply (a : α) (s : σ) : (pure a : EStateM ε σ α) s = .ok a s := rfl

@[simp]
theorem get_apply (s : σ) : (get : EStateM ε σ σ) s = .ok s s := rfl

@[simp]
theorem modify_apply (f : σ → σ) (s : σ) : (modify f : EStateM ε σ PUnit) s = .ok ⟨⟩ (f s) := rfl

theorem run'_eq (x : EStateM ε σ α) (s : σ) :
    x.run' s = match x s with
      | .ok a _ => some a
      | .error _ _ => none := rfl

theorem ok_of_run'_value {x : EStateM ε σ α} {f : α → σ → β} {s : σ} {b : β}
    (h : EStateM.run' (do let a ← x; return f a (← get)) s = some b) :
    ∃ a s', x s = .ok a s' ∧ f a s' = b := by
  rw [run'_eq] at h
  cases hx : x s with
  | ok a s' =>
    rw [bind_ok hx] at h
    exact ⟨a, s', rfl, Option.some.inj h⟩
  | error e s' =>
    rw [bind_error hx] at h
    cases h

theorem ok_of_run' {x : EStateM ε σ α} {f : σ → β} {s : σ} {b : β}
    (h : EStateM.run' (do let _ ← x; return f (← get)) s = some b) :
    ∃ a s', x s = .ok a s' ∧ f s' = b :=
  ok_of_run'_value (f := fun _ => f) h

theorem error_of_run'_value {x : EStateM ε σ α} {f : ε → σ → β} {s : σ} {b : β}
    (h : EStateM.run' (tryCatch (do let _ ← x; return none) (fun e => return some (f e (← get)))) s =
      some (some b)) : ∃ e s', x s = .error e s' ∧ f e s' = b := by
  rw [run'_eq] at h
  cases hx : x s with
  | ok a s' =>
    have kept : (do let _ ← x; return none : EStateM ε σ (Option β)) s = .ok none s' := bind_ok hx
    rw [tryCatch_ok kept] at h
    cases h
  | error e s' =>
    rw [tryCatch_error (bind_error hx)] at h
    exact ⟨e, s', rfl, Option.some.inj (Option.some.inj h)⟩

theorem error_of_run' {x : EStateM ε σ α} {f : σ → β} {s : σ} {b : β}
    (h : EStateM.run' (tryCatch (do let _ ← x; return none) (fun _ => return some (f (← get)))) s =
      some (some b)) : ∃ e s', x s = .error e s' ∧ f s' = b :=
  error_of_run'_value (f := fun _ => f) h

/-- A loop in which every round succeeds and takes the invariant for what is done so far to the
invariant for one item more. -/
theorem forM_ok {f : α → EStateM ε σ PUnit} (xs : List α) (I : List α → σ → Prop)
    (step : ∀ before x after s, xs = before ++ x :: after → I before s →
      ∃ s', f x s = .ok ⟨⟩ s' ∧ I (before ++ [x]) s')
    {s : σ} (h : I [] s) : ∃ s', xs.forM f s = .ok ⟨⟩ s' ∧ I xs s' := by
  have go : ∀ ys before s, xs = before ++ ys → I before s →
      ∃ s', ys.forM f s = .ok ⟨⟩ s' ∧ I xs s' := by
    intro ys
    induction ys with
    | nil =>
      intro before s e hb
      rw [List.append_nil] at e
      exact ⟨s, rfl, e ▸ hb⟩
    | cons y ys ih =>
      intro before s e hb
      obtain ⟨t, ht, hi⟩ := step before y ys s e hb
      obtain ⟨u, hu, hx⟩ := ih (before ++ [y]) t (by rw [e, List.append_assoc]; rfl) hi
      refine ⟨u, ?_, hx⟩
      change (f y >>= fun _ => ys.forM f) s = _
      rw [bind_ok ht, hu]
  exact go xs [] s rfl h

theorem forM_error {f : α → EStateM ε σ PUnit} {before : List α} {x : α} (after : List α) {s s' t : σ}
    {e : ε} (done : before.forM f s = .ok ⟨⟩ s') (stopped : f x s' = .error e t) :
    (before ++ x :: after).forM f s = .error e t := by
  have split : (before ++ x :: after).forM f = (before.forM f >>= fun _ => (x :: after).forM f) :=
    List.forM_append
  rw [split, bind_ok done]
  exact bind_error stopped

/-! ### Two runs side by side -/

/-- Two results: the same value or the same failure, in states that are related. -/
inductive Alike (R : σ → σ → Prop) : EStateM.Result ε σ α → EStateM.Result ε σ α → Prop where
  | ok (a : α) {s t : σ} (h : R s t) : Alike R (.ok a s) (.ok a t)
  | error (e : ε) {s t : σ} (h : R s t) : Alike R (.error e s) (.error e t)

theorem Alike.imp {R Q : σ → σ → Prop} {x y : EStateM.Result ε σ α} (h : Alike R x y)
    (k : ∀ s t, R s t → Q s t) : Alike Q x y := by
  cases h with
  | ok a h => exact .ok a (k _ _ h)
  | error e h => exact .error e (k _ _ h)

theorem Alike.bind {R : σ → σ → Prop} {x y : EStateM ε σ α} {f g : α → EStateM ε σ β} {s t : σ}
    (h : Alike R (x s) (y t)) (k : ∀ a s' t', R s' t' → Alike R (f a s') (g a t')) :
    Alike R ((x >>= f) s) ((y >>= g) t) := by
  generalize hs : x s = r at h
  generalize ht : y t = q at h
  cases h with
  | ok a h' =>
    rw [bind_ok hs, bind_ok ht]
    exact k a _ _ h'
  | error e h' =>
    rw [bind_error hs, bind_error ht]
    exact .error e h'

/-- From related states two computations come to results that are alike. -/
def Parallel (R : σ → σ → Prop) (x y : EStateM ε σ α) : Prop :=
  ∀ s t, R s t → Alike R (x s) (y t)

namespace Parallel

variable {R : σ → σ → Prop} {x y : EStateM ε σ α}

theorem pure (a : α) : Parallel R (pure a : EStateM ε σ α) (pure a) := fun _ _ h => .ok a h

theorem throw (e : ε) : Parallel R (throw e : EStateM ε σ α) (throw e) := fun _ _ h => .error e h

theorem bind_post {f g : α → EStateM ε σ β} {P : α → Prop} (hx : Parallel R x y)
    (post : ∀ s t a s', R s t → x s = .ok a s' → P a) (h : ∀ a, P a → Parallel R (f a) (g a)) :
    Parallel R (x >>= f) (y >>= g) := by
  intro s t hst
  have first := hx s t hst
  generalize hs : x s = r at first
  generalize ht : y t = q at first
  cases first with
  | ok a h' =>
    rw [bind_ok hs, bind_ok ht]
    exact h a (post s t a _ hst hs) _ _ h'
  | error e h' =>
    rw [bind_error hs, bind_error ht]
    exact .error e h'

theorem bind {f g : α → EStateM ε σ β} (hx : Parallel R x y) (h : ∀ a, Parallel R (f a) (g a)) :
    Parallel R (x >>= f) (y >>= g) :=
  hx.bind_post (P := fun _ => True) (fun _ _ _ _ _ _ => trivial) (fun a _ => h a)

theorem tryCatch {f g : ε → EStateM ε σ α} (hx : Parallel R x y) (h : ∀ e, Parallel R (f e) (g e)) :
    Parallel R (tryCatch x f) (tryCatch y g) := by
  intro s t hst
  have first := hx s t hst
  generalize hs : x s = r at first
  generalize ht : y t = q at first
  cases first with
  | ok a h' =>
    rw [tryCatch_ok hs, tryCatch_ok ht]
    exact .ok a h'
  | error e h' =>
    rw [tryCatch_error hs, tryCatch_error ht]
    exact h e _ _ h'

theorem ite {c : Prop} [Decidable c] {x' y' : EStateM ε σ α} (yes : c → Parallel R x y)
    (no : ¬ c → Parallel R x' y') : Parallel R (if c then x else x') (if c then y else y') := by
  split
  · next h => exact yes h
  · next h => exact no h

theorem get_bind {f g : σ → EStateM ε σ α} (h : ∀ s t, R s t → Parallel R (f s) (g t)) :
    Parallel R (get >>= f) (get >>= g) :=
  fun s t hst => h s t hst s t hst

theorem modify {f g : σ → σ} (h : ∀ s t, R s t → R (f s) (g t)) :
    Parallel R (modify f : EStateM ε σ PUnit) (modify g) := by
  intro s t hst
  rw [modify_apply, modify_apply]
  exact .ok _ (h s t hst)

theorem forM {f g : α → EStateM ε σ PUnit} (xs : List α) (h : ∀ x ∈ xs, Parallel R (f x) (g x)) :
    Parallel R (xs.forM f) (xs.forM g) := by
  induction xs with
  | nil => exact Parallel.pure PUnit.unit
  | cons x xs ih =>
    exact Parallel.bind (h x List.mem_cons_self) (fun _ => ih (fun y hy => h y (List.mem_cons_of_mem _ hy)))

end Parallel

/-! ### What a computation keeps -/

/-- The state in which a computation ends, whether it has succeeded or not. -/
def final : EStateM.Result ε σ α → σ
  | .ok _ s => s
  | .error _ s => s

theorem Alike.final {R : σ → σ → Prop} {x y : EStateM.Result ε σ α} (h : Alike R x y) :
    R (final x) (final y) := by
  cases h with
  | ok a h => exact h
  | error e h => exact h

theorem Alike.bind_final {γ : Type} {R Q : σ → σ → Prop} {x y : EStateM ε σ α} {f : α → EStateM ε σ β}
    {g : α → EStateM ε σ γ} {s t : σ} (h : Alike R (x s) (y t)) (stop : ∀ s t, R s t → Q s t)
    (k : ∀ a s' t', R s' t' → Q (Effect.final (f a s')) (Effect.final (g a t'))) :
    Q (Effect.final ((x >>= f) s)) (Effect.final ((y >>= g) t)) := by
  generalize hs : x s = r at h
  generalize ht : y t = q at h
  cases h with
  | ok a h' =>
    rw [bind_ok hs, bind_ok ht]
    exact k a _ _ h'
  | error e h' =>
    rw [bind_error hs, bind_error ht]
    exact stop _ _ h'

/-- If a property holds at the start, it holds at the end. -/
def Keeps (I : σ → Prop) (x : EStateM ε σ α) : Prop := ∀ s, I s → I (final (x s))

namespace Keeps

variable {I : σ → Prop} {x : EStateM ε σ α}

theorem of_ok (h : Keeps I x) {s s' : σ} {a : α} (hs : I s) (hx : x s = .ok a s') : I s' := by
  have kept := h s hs
  rwa [hx] at kept

theorem of_error (h : Keeps I x) {s s' : σ} {e : ε} (hs : I s) (hx : x s = .error e s') : I s' := by
  have kept := h s hs
  rwa [hx] at kept

theorem pure (a : α) : Keeps I (pure a : EStateM ε σ α) := fun _ hs => hs

theorem throw (e : ε) : Keeps I (throw e : EStateM ε σ α) := fun _ hs => hs

theorem bind_post {f : α → EStateM ε σ β} (hx : Keeps I x)
    (h : ∀ s a s', I s → x s = .ok a s' → I (final (f a s'))) : Keeps I (x >>= f) := by
  intro s hs
  cases hr : x s with
  | ok a s' =>
    rw [bind_ok hr]
    exact h s a s' hs hr
  | error e s' =>
    rw [bind_error hr]
    exact hx.of_error hs hr

theorem bind {f : α → EStateM ε σ β} (hx : Keeps I x) (h : ∀ a, Keeps I (f a)) :
    Keeps I (x >>= f) :=
  hx.bind_post (fun _ a s' hs hr => h a s' (hx.of_ok hs hr))

theorem tryCatch {f : ε → EStateM ε σ α} (hx : Keeps I x) (h : ∀ e, Keeps I (f e)) :
    Keeps I (tryCatch x f) := by
  intro s hs
  cases hr : x s with
  | ok a s' =>
    rw [tryCatch_ok hr]
    exact hx.of_ok hs hr
  | error e s' =>
    rw [tryCatch_error hr]
    exact h e s' (hx.of_error hs hr)

theorem ite {c : Prop} [Decidable c] {y : EStateM ε σ α} (yes : c → Keeps I x) (no : ¬ c → Keeps I y) :
    Keeps I (if c then x else y) := by
  split
  · next h => exact yes h
  · next h => exact no h

theorem get_bind {f : σ → EStateM ε σ α} (h : ∀ s, I s → I (final (f s s))) : Keeps I (get >>= f) :=
  fun s hs => h s hs

theorem modify {f : σ → σ} (h : ∀ s, I s → I (f s)) :
    Keeps I (modify f : EStateM ε σ PUnit) :=
  fun s hs => h s hs

theorem forM {f : α → EStateM ε σ PUnit} (xs : List α) (h : ∀ x ∈ xs, Keeps I (f x)) :
    Keeps I (xs.forM f) := by
  induction xs with
  | nil => exact Keeps.pure PUnit.unit
  | cons x xs ih =>
    exact Keeps.bind (h x List.mem_cons_self) (fun _ => ih (fun y hy => h y (List.mem_cons_of_mem _ hy)))

theorem forM_reaches {J : σ → Prop} {f : α → EStateM ε σ PUnit} {xs : List α} {x : α} (hx : x ∈ xs)
    (keeps : ∀ y ∈ xs, Keeps I (f y)) (stays : ∀ y ∈ xs, Keeps J (f y))
    (hit : ∀ s s', I s → f x s = .ok ⟨⟩ s' → J s') {s s' : σ} (hs : I s)
    (run : xs.forM f s = .ok ⟨⟩ s') : J s' := by
  induction xs generalizing s with
  | nil => cases hx
  | cons y ys ih =>
    obtain ⟨_, t, first, rest⟩ := ok_of_bind (x := f y) (f := fun _ => ys.forM f) run
    have others : ∀ {P : σ → Prop}, (∀ z ∈ y :: ys, Keeps P (f z)) → ∀ z ∈ ys, Keeps P (f z) :=
      fun h z hz => h z (List.mem_cons_of_mem _ hz)
    rcases List.mem_cons.mp hx with rfl | later
    · exact (Keeps.forM ys (others stays)).of_ok (hit s t hs first) rest
    · exact ih later (others keeps) (others stays) ((keeps y List.mem_cons_self).of_ok hs first) rest

end Keeps

/-! ### Computations that do the same -/

/-- From every state with a property two computations do the same. -/
def Agree (I : σ → Prop) (x y : EStateM ε σ α) : Prop := ∀ s, I s → x s = y s

namespace Agree

variable {I : σ → Prop} {x y : EStateM ε σ α}

theorem refl (x : EStateM ε σ α) : Agree I x x := fun _ _ => rfl

theorem bind {f g : α → EStateM ε σ β} (keeps : Keeps I x) (hx : Agree I x y)
    (h : ∀ a, Agree I (f a) (g a)) : Agree I (x >>= f) (y >>= g) := by
  intro s hs
  have same := hx s hs
  cases hr : x s with
  | ok a s' =>
    rw [bind_ok hr, bind_ok (same ▸ hr)]
    exact h a s' (keeps.of_ok hs hr)
  | error e s' => rw [bind_error hr, bind_error (same ▸ hr)]

theorem ite {c : Prop} [Decidable c] {x' y' : EStateM ε σ α} (yes : c → Agree I x y)
    (no : ¬ c → Agree I x' y') : Agree I (if c then x else x') (if c then y else y') := by
  split
  · next h => exact yes h
  · next h => exact no h

theorem forM {f g : α → EStateM ε σ PUnit} (xs : List α) (keeps : ∀ a ∈ xs, Keeps I (f a))
    (h : ∀ a ∈ xs, Agree I (f a) (g a)) : Agree I (xs.forM f) (xs.forM g) := by
  induction xs with
  | nil => exact refl _
  | cons a xs ih =>
    exact bind (keeps a List.mem_cons_self) (h a List.mem_cons_self) (fun _ =>
      ih (fun b hb => keeps b (List.mem_cons_of_mem _ hb)) (fun b hb => h b (List.mem_cons_of_mem _ hb)))

theorem forM_flatMap {γ : Type} {f : α → EStateM ε σ PUnit} {g : α → List γ} {h : γ → EStateM ε σ PUnit}
    (xs : List α) (keeps : ∀ a ∈ xs, Keeps I (f a)) (same : ∀ a ∈ xs, Agree I (f a) ((g a).forM h)) :
    Agree I (xs.forM f) ((xs.flatMap g).forM h) := by
  induction xs with
  | nil => exact refl _
  | cons a xs ih =>
    have split : ((a :: xs).flatMap g).forM h = ((g a).forM h >>= fun _ => (xs.flatMap g).forM h) :=
      List.forM_append
    rw [split]
    exact bind (keeps a List.mem_cons_self) (same a List.mem_cons_self) (fun _ =>
      ih (fun b hb => keeps b (List.mem_cons_of_mem _ hb)) (fun b hb => same b (List.mem_cons_of_mem _ hb)))

end Agree

/-! ### What a computation leads to -/

/-- If a property holds at the start, a computation that succeeds ends with one property, and a
computation that fails with another. -/
def Takes (I : σ → Prop) (J : α → σ → Prop) (K : σ → Prop) (x : EStateM ε σ α) : Prop :=
  ∀ s, I s → match x s with
    | .ok a s' => J a s'
    | .error _ s' => K s'

namespace Takes

variable {I K : σ → Prop} {J : α → σ → Prop} {x : EStateM ε σ α}

theorem intro (ok : ∀ s a s', I s → x s = .ok a s' → J a s')
    (error : ∀ s e s', I s → x s = .error e s' → K s') : Takes I J K x := by
  intro s hs
  cases hr : x s with
  | ok a s' => exact ok s a s' hs hr
  | error e s' => exact error s e s' hs hr

theorem final_iff : Takes I (fun _ => K) K x ↔ ∀ s, I s → K (final (x s)) := by
  refine forall₂_congr (fun s _ => ?_)
  cases x s <;> exact Iff.rfl

theorem throw (e : ε) (h : ∀ s, I s → K s) : Takes I J K (throw e : EStateM ε σ α) := h

theorem bind {L : β → σ → Prop} {f : α → EStateM ε σ β} (hx : Takes I J K x)
    (h : ∀ a, Takes (J a) L K (f a)) : Takes I L K (x >>= f) := by
  intro s hs
  have first := hx s hs
  cases hr : x s with
  | ok a s' =>
    rw [hr] at first
    rw [bind_ok hr]
    exact h a s' first
  | error e s' =>
    rw [hr] at first
    rw [bind_error hr]
    exact first

theorem bind_value {P : α → Prop} {J : σ → Prop} {L : β → σ → Prop} {f : α → EStateM ε σ β}
    (hx : Takes I (fun a s => P a ∧ J s) K x) (h : ∀ a, P a → Takes J L K (f a)) :
    Takes I L K (x >>= f) :=
  hx.bind (fun a s hs => h a hs.1 s hs.2)

end Takes

theorem Keeps.takes {I K : σ → Prop} {x : EStateM ε σ α} (h : Keeps I x) (stop : ∀ s, I s → K s) :
    Takes I (fun _ => I) K x :=
  Takes.intro (fun _ _ _ hs hr => h.of_ok hs hr) (fun _ _ _ hs hr => stop _ (h.of_error hs hr))

/-! ### How a computation ends -/

/-- A result that is a success of one kind or a failure of another. -/
inductive Ends (J : α → σ → Prop) (E : ε → σ → Prop) : EStateM.Result ε σ α → Prop where
  | ok {a : α} {s : σ} (h : J a s) : Ends J E (.ok a s)
  | error {e : ε} {s : σ} (h : E e s) : Ends J E (.error e s)

namespace Ends

variable {J : α → σ → Prop} {E : ε → σ → Prop}

theorem imp {L : α → σ → Prop} {F : ε → σ → Prop} {r : EStateM.Result ε σ α} (h : Ends J E r)
    (ok : ∀ a s, J a s → L a s) (error : ∀ e s, E e s → F e s) : Ends L F r := by
  cases h with
  | ok h => exact .ok (ok _ _ h)
  | error h => exact .error (error _ _ h)

theorem bind {L : β → σ → Prop} {x : EStateM ε σ α} {f : α → EStateM ε σ β} {s : σ}
    (hx : Ends J E (x s)) (h : ∀ a s', J a s' → Ends L E (f a s')) : Ends L E ((x >>= f) s) := by
  generalize hr : x s = r at hx
  cases hx with
  | ok ha =>
    rw [bind_ok hr]
    exact h _ _ ha
  | error he =>
    rw [bind_error hr]
    exact .error he

theorem tryCatch {F : ε → σ → Prop} {x : EStateM ε σ α} {f : ε → EStateM ε σ α} {s : σ}
    (hx : Ends J F (x s)) (h : ∀ e s', F e s' → Ends J E (f e s')) : Ends J E (tryCatch x f s) := by
  generalize hr : x s = r at hx
  cases hx with
  | ok ha =>
    rw [tryCatch_ok hr]
    exact .ok ha
  | error he =>
    rw [tryCatch_error hr]
    exact h _ _ he

theorem forM {f : α → EStateM ε σ PUnit} (xs : List α) (I : List α → σ → Prop)
    (step : ∀ before x after s, xs = before ++ x :: after → I before s →
      Ends (fun _ => I (before ++ [x])) E (f x s))
    {s : σ} (h : I [] s) : Ends (fun _ => I xs) E (xs.forM f s) := by
  have go : ∀ ys before s, xs = before ++ ys → I before s → Ends (fun _ => I xs) E (ys.forM f s) := by
    intro ys
    induction ys with
    | nil =>
      intro before s e hb
      rw [List.append_nil] at e
      exact .ok (e ▸ hb)
    | cons y ys ih =>
      intro before s e hb
      exact (step before y ys s e hb).bind
        (fun _ s' => ih (before ++ [y]) s' (by rw [e, List.append_assoc]; rfl))
  exact go xs [] s rfl h

end Ends

end SqlMigration.Effect
