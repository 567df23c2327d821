import Mathlib.Algebra.Order.Floor.Semiring
import Mathlib.Data.Rat.Floor
import SqlMigration.Proofs.Job.Order

/-!
# The deadline of a wait

A wait may take a certain number of looks at its job, told by the time limit and
by how long one look takes. It makes all of them and gives up, unless one of them
finds the job in a final state or is refused; the last one counts like the others.
-/

set_option autoImplicit false

namespace SqlMigration

open Effect

/-! ### What the looks are told -/

theorem Service.reported_of_getElem? {s : Service} {k : ℕ} {x : Except Refusal JobState}
    (h : s.states[k]? = some x) : s.reported k = x := by
  induction k generalizing s with
  | zero => rw [reported, state, List.headD_eq_head?_getD, List.head?_eq_getElem?, h, Option.getD_some]
  | succ k ih =>
    have rest : s.afterState.states[k]? = some x := by
      rcases hs : s.states with _ | ⟨a, _ | ⟨b, more⟩⟩
      · simp [hs] at h
      · simp [hs] at h
      · simpa [afterState, hs] using h
    exact ih rest

theorem Service.exists_reported (answers : ℕ → Except Refusal JobState) (n : ℕ) :
    ∃ s : Service, ∀ k < n, s.reported k = answers k := by
  refine ⟨⟨none, .ok "", (List.range n).map answers, .ok []⟩, fun k hk => ?_⟩
  exact reported_of_getElem? (by simp [hk])

def Event.isSleep : Event → Bool
  | .slept _ => true
  | _ => false

namespace Batch

/-- An answer after which a wait goes on. -/
def Open (answer : Except Refusal JobState) : Prop :=
  ∃ state, answer = .ok state ∧ state ≠ .completed ∧ state ≠ .paused

theorem open_iff {answer : Except Refusal JobState} :
    Open answer ↔ ∃ state, answer = .ok state ∧ state.isFinal = false := by
  refine exists_congr (fun state => and_congr_right (fun _ => ?_))
  rw [← not_or, ← state.isFinal_iff, Bool.not_eq_true]

theorem Open.not_final {answer : Except Refusal JobState} (h : Open answer) :
    ¬ (answer = .ok .completed ∨ answer = .ok .paused) := by
  obtain ⟨state, rfl, h₁, h₂⟩ := h
  rintro (h | h)
  · exact h₁ (Except.ok.inj h)
  · exact h₂ (Except.ok.inj h)

theorem open_or_final_or_refused (answer : Except Refusal JobState) :
    Open answer ∨ (answer = .ok .completed ∨ answer = .ok .paused) ∨ ∃ r, answer = .error r := by
  cases answer with
  | error r => exact Or.inr (Or.inr ⟨r, rfl⟩)
  | ok state =>
    cases final : state.isFinal with
    | false => exact Or.inl (open_iff.mpr ⟨state, rfl, final⟩)
    | true => exact Or.inr (Or.inl ((state.isFinal_iff.mp final).imp (congrArg _) (congrArg _)))

theorem open_or_first (answers : ℕ → Except Refusal JobState) (n : ℕ) :
    (∀ k < n, Open (answers k)) ∨ ∃ i < n, (∀ k < i, Open (answers k)) ∧
      ((answers i = .ok .completed ∨ answers i = .ok .paused) ∨ ∃ r, answers i = .error r) := by
  induction n with
  | zero => exact Or.inl (fun k hk => absurd hk (Nat.not_lt_zero k))
  | succ n ih =>
    rcases ih with going | ⟨i, hi, first⟩
    · rcases open_or_final_or_refused (answers n) with more | ended
      · exact Or.inl (fun k hk => (Nat.lt_succ_iff_lt_or_eq.mp hk).elim (going k) (fun e => e ▸ more))
      · exact Or.inr ⟨n, Nat.lt_succ_self n, going, ended⟩
    · exact Or.inr ⟨i, Nat.lt_succ_of_lt hi, first⟩

/-! ### Look after look -/

def lookLog (job : String) (answer : Except Refusal JobState) (seconds : Int) : List Event :=
  [.slept pause, .note (.workflowSought job), .requested (.get job)] ++ told answer seconds

def spent (w : World) (n : ℕ) : Int := (n * pace w).floor

theorem spent_zero (w : World) : spent w 0 = 0 := by
  rw [spent, Nat.cast_zero, zero_mul]
  rfl

def watched (w : World) (job : String) (n : ℕ) : World :=
  { w with
    clock := w.clock + n * pace w
    service := Service.afterState^[n] w.service
    events := w.events ++ (List.range n).flatMap (fun k =>
      lookLog job (w.service.reported k) (spent w (k + 1))) }

theorem watched_zero (w : World) (job : String) : watched w job 0 = w := by
  simp [watched]

theorem countP_lookLog (p : Event → Bool) (quiet : ∀ state seconds, p (.note (.status state seconds)) = false)
    (job : String) (answer : Except Refusal JobState) (seconds : Int) :
    (lookLog job answer seconds).countP p =
      [.slept pause, .note (.workflowSought job), .requested (.get job)].countP p := by
  rw [lookLog, List.countP_append]
  cases answer with
  | ok state => rw [told, List.countP_singleton, quiet, if_neg Bool.false_ne_true, Nat.add_zero]
  | error r => rfl

theorem countP_looks (p : Event → Bool) (quiet : ∀ state seconds, p (.note (.status state seconds)) = false)
    (job : String) (answers : ℕ → Except Refusal JobState) (seconds : ℕ → Int) (n : ℕ) :
    ((List.range n).flatMap fun k => lookLog job (answers k) (seconds k)).countP p =
      n * [.slept pause, .note (.workflowSought job), .requested (.get job)].countP p := by
  induction n with
  | zero => rw [Nat.zero_mul, List.range_zero, List.flatMap_nil, List.countP_nil]
  | succ n ih =>
    rw [List.range_succ, List.flatMap_append, List.countP_append, ih, List.flatMap_singleton,
      countP_lookLog p quiet, Nat.succ_mul]

theorem watched_log (w : World) (job : String) (n : ℕ) :
    ∃ trace, (watched w job n).events = w.events ++ trace ∧ trace.countP Event.isSleep = n ∧
      looksIn trace = n := by
  refine ⟨_, rfl, ?_, ?_⟩
  · rw [countP_looks _ fun _ _ => rfl]
    exact Nat.mul_one n
  · rw [looksIn, countP_looks _ fun _ _ => rfl]
    exact Nat.mul_one n

theorem pace_eq (w : World) : pace w = 5 + w.lag := by
  rw [pace, pause, Nat.cast_ofNat]

section Looks

variable {w : World} (lag : 0 ≤ w.lag) (job : String)
include lag

theorem pace_ge : 5 ≤ pace w := by
  rw [pace_eq]
  linarith

theorem pace_pos : 0 < pace w := lt_of_lt_of_le (by norm_num) (pace_ge lag)

theorem elapsed_watched (n : ℕ) : elapsed w.clock (watched w job n).clock = spent w n := by
  have nonneg : 0 ≤ n * pace w := mul_nonneg (Nat.cast_nonneg n) (pace_pos lag).le
  have since : (watched w job n).clock - w.clock = n * pace w := by
    rw [watched]
    ring
  rw [elapsed, since, if_pos nonneg, spent]

theorem looked_watched (n : ℕ) : looked (watched w job n) job w.clock = watched w job (n + 1) := by
  have clock : (watched w job n).clock + pause + w.lag = (watched w job (n + 1)).clock := by
    simp only [watched, pace]
    push_cast
    ring
  have answer : (watched w job n).service.state = w.service.reported n :=
    (Service.reported_eq w.service n).symm
  have seconds := elapsed_watched lag job (n + 1)
  rw [looked]
  change ({ w with
    clock := (watched w job n).clock + pause + w.lag
    service := (Service.afterState^[n] w.service).afterState
    events := (watched w job n).events ++ [.slept pause] ++ [.note (.workflowSought job)] ++
      [.requested (.get job)] ++ told (watched w job n).service.state
        (elapsed w.clock ((watched w job n).clock + pause + w.lag)) } : World) = _
  rw [clock, answer, seconds, ← Function.iterate_succ_apply' Service.afterState]
  simp only [watched, List.range_succ, List.flatMap_append, List.flatMap_singleton, lookLog,
    List.append_assoc, List.cons_append, List.nil_append]

variable (b : Batch) {limit : Int}

theorem poll_step {n : ℕ} (early : spent w n < limit) (fuel : ℕ) :
    b.poll job limit w.clock (fuel + 1) (spent w n) (watched w job n) =
      match w.service.reported n with
      | .error r => .error (.failure (.service r)) (watched w job (n + 1))
      | .ok state =>
        if state.isFinal then .ok () (watched w job (n + 1))
        else b.poll job limit w.clock fuel (spent w (n + 1)) (watched w job (n + 1)) := by
  have seconds : elapsed w.clock ((watched w job n).clock + pause + (watched w job n).lag) =
      spent w (n + 1) := by
    rw [← elapsed_watched lag job (n + 1), ← looked_watched lag job n]
    rfl
  rw [poll_succ b job w.clock fuel early, looked_watched lag, seconds, Service.reported_eq]
  rfl

/-- As long as there is time and the answers are open, look follows look. -/
theorem poll_run (n : ℕ) (early : ∀ k < n, spent w k < limit)
    (going : ∀ k < n, Open (w.service.reported k)) (fuel : ℕ) :
    b.poll job limit w.clock (n + fuel) 0 w =
      b.poll job limit w.clock fuel (spent w n) (watched w job n) := by
  induction n generalizing fuel with
  | zero => rw [Nat.zero_add, spent_zero, watched_zero]
  | succ n ih =>
    have before := ih (fun k hk => early k (Nat.lt_succ_of_lt hk))
      (fun k hk => going k (Nat.lt_succ_of_lt hk)) (fuel + 1)
    obtain ⟨state, answer, unfinished⟩ := open_iff.mp (going n (Nat.lt_succ_self n))
    have last := poll_step lag job b (early n (Nat.lt_succ_self n)) fuel
    simp only [answer, unfinished, Bool.false_eq_true, if_false] at last
    rw [Nat.add_assoc, Nat.add_comm 1 fuel, before, last]

end Looks

theorem poll_late (b : Batch) {job link : String} (named : b.link? job = some link) {limit : Int}
    (start : Rat) (fuel : ℕ) {seconds : Int} (late : limit ≤ seconds) (w : World) :
    b.poll job limit start fuel seconds w =
      .error (.exit ⟨none, "", ""⟩) (w.after (.note (.stillRunning seconds link))) := by
  have gives : poll.giveUp b job seconds w =
      .error (.exit ⟨none, "", ""⟩) (w.after (.note (.stillRunning seconds link))) := by
    rw [poll.giveUp, Batch.link, named]
    rfl
  cases fuel with
  | zero => exact gives
  | succ fuel => rw [poll, if_neg (Int.not_lt.mpr late), gives]

/-! ### How many looks there are -/

def allowed (limit : Int) (w : World) : ℕ := (limit / pace w).ceil.toNat

section Allowed

variable {w : World} (lag : 0 ≤ w.lag) (limit : Int)
include lag

theorem le_spent_iff (n : ℕ) : limit ≤ spent w n ↔ allowed limit w ≤ n := by
  have pos := pace_pos lag
  rw [spent, Rat.le_floor_iff, ← div_le_iff₀ pos, allowed, Int.toNat_le, Rat.ceil_le_iff]
  norm_cast

theorem isLeast_allowed : IsLeast {n : ℕ | limit ≤ spent w n} (allowed limit w) :=
  ⟨(le_spent_iff lag limit _).mpr le_rfl, fun n hn => (le_spent_iff lag limit n).mp hn⟩

theorem allowed_le : allowed limit w ≤ ⌈(limit : ℚ) / 5⌉₊ := by
  have up : (limit : ℚ) / 5 ≤ ⌈(limit : ℚ) / 5⌉₊ := Nat.le_ceil _
  have nonneg : (0 : ℚ) ≤ ⌈(limit : ℚ) / 5⌉₊ := Nat.cast_nonneg _
  rw [← le_spent_iff lag, spent, Rat.le_floor_iff]
  calc (limit : ℚ) ≤ ⌈(limit : ℚ) / 5⌉₊ * 5 := (div_le_iff₀ (by norm_num)).mp up
    _ ≤ ⌈(limit : ℚ) / 5⌉₊ * pace w := mul_le_mul_of_nonneg_left (pace_ge lag) nonneg

theorem allowed_le_looks : allowed limit w ≤ looks limit w := by
  have pos : (0 : Rat) < (pause : Rat) + w.lag := pace_pos lag
  rw [looks, if_pos pos, allowed, pace]
  omega

end Allowed

section Wait

variable (b : Batch) {job : String} {limit : Int} {w : World} (lag : 0 ≤ w.lag)
  {answers : ℕ → Except Refusal JobState}
  (given : ∀ k < allowed limit w, w.service.reported k = answers k) {fuel : ℕ}
  (enough : allowed limit w ≤ fuel)
include lag given enough

theorem poll_reaches {i : ℕ} (within : i < allowed limit w) (first : ∀ k < i, Open (answers k)) :
    ∃ more, b.poll job limit w.clock fuel 0 w =
      match answers i with
      | .error r => .error (.failure (.service r)) (watched w job (i + 1))
      | .ok state =>
        if state.isFinal then .ok () (watched w job (i + 1))
        else b.poll job limit w.clock more (spent w (i + 1)) (watched w job (i + 1)) := by
  have early : ∀ k < i + 1, spent w k < limit := fun k hk =>
    Int.not_le.mp (fun late => absurd ((le_spent_iff lag limit k).mp late) (by omega))
  have going : ∀ k < i, Open (w.service.reported k) := by
    intro k hk
    rw [given k (hk.trans within)]
    exact first k hk
  obtain ⟨more, rfl⟩ := Nat.exists_eq_add_of_lt (Nat.lt_of_lt_of_le within enough)
  refine ⟨more, ?_⟩
  rw [Nat.add_assoc, poll_run lag job b i (fun k hk => early k (Nat.lt_succ_of_lt hk)) going,
    poll_step lag job b (early i (Nat.lt_succ_self i)), given i within]

theorem poll_finds {i : ℕ} (within : i < allowed limit w) (first : ∀ k < i, Open (answers k))
    (found : answers i = .ok .completed ∨ answers i = .ok .paused) :
    b.poll job limit w.clock fuel 0 w = .ok () (watched w job (i + 1)) := by
  obtain ⟨more, run⟩ := poll_reaches b lag given enough within first
  rcases found with found | found <;> rw [run, found] <;> rfl

theorem poll_refused {i : ℕ} (within : i < allowed limit w) (first : ∀ k < i, Open (answers k))
    {r : Refusal} (refused : answers i = .error r) :
    b.poll job limit w.clock fuel 0 w = .error (.failure (.service r)) (watched w job (i + 1)) := by
  obtain ⟨more, run⟩ := poll_reaches b lag given enough within first
  rw [run, refused]

theorem poll_exits {link : String} (named : b.link? job = some link)
    (going : ∀ k < allowed limit w, Open (answers k)) :
    b.poll job limit w.clock fuel 0 w = .error (.exit ⟨none, "", ""⟩)
      ((watched w job (allowed limit w)).after
        (.note (.stillRunning (spent w (allowed limit w)) link))) := by
  have early : ∀ k < allowed limit w, spent w k < limit := fun k hk =>
    Int.not_le.mp (fun late => absurd ((le_spent_iff lag limit k).mp late) (Nat.not_le.mpr hk))
  obtain ⟨more, rfl⟩ := Nat.exists_eq_add_of_le enough
  rw [poll_run lag job b _ early (fun k hk => (given k hk).symm ▸ going k hk)]
  exact poll_late b named _ _ ((le_spent_iff lag limit _).mpr le_rfl) _

/-- Fuel for the looks that the limit allows is as good as more. -/
theorem poll_fuel {link : String} (named : b.link? job = some link) {more : ℕ} (plenty : allowed limit w ≤ more) :
    b.poll job limit w.clock fuel 0 w = b.poll job limit w.clock more 0 w := by
  rcases open_or_first answers (allowed limit w) with going | ⟨i, hi, first, found | ⟨r, refused⟩⟩
  · rw [poll_exits b lag given enough named going, poll_exits b lag given plenty named going]
  · rw [poll_finds b lag given enough hi first found, poll_finds b lag given plenty hi first found]
  · rw [poll_refused b lag given enough hi first refused, poll_refused b lag given plenty hi first refused]

theorem poll_ok_iff {link : String} (named : b.link? job = some link) :
    (∃ v, b.poll job limit w.clock fuel 0 w = .ok () v) ↔
      ∃ i < allowed limit w, (answers i = .ok .completed ∨ answers i = .ok .paused) ∧
        ∀ k < i, ∃ state, answers k = .ok state := by
  rcases open_or_first answers (allowed limit w) with going | ⟨i, hi, first, found | ⟨r, refused⟩⟩
  · refine iff_of_false ?_ ?_
    · rintro ⟨v, ok⟩
      rw [poll_exits b lag given enough named going] at ok
      cases ok
    · rintro ⟨i, hi, found, _⟩
      exact (going i hi).not_final found
  · exact iff_of_true ⟨_, poll_finds b lag given enough hi first found⟩
      ⟨i, hi, found, fun k hk => (first k hk).imp (fun _ h => h.1)⟩
  · refine iff_of_false ?_ ?_
    · rintro ⟨v, ok⟩
      rw [poll_refused b lag given enough hi first refused] at ok
      cases ok
    · rintro ⟨j, hj, found, before⟩
      rcases lt_trichotomy j i with less | rfl | more
      · exact (first j less).not_final found
      · simp [refused] at found
      · obtain ⟨state, told⟩ := before i more
        rw [refused] at told
        cases told

end Wait

/-- A wait makes the looks that its limit allows, and none after one that finds the job completed or paused
or is refused. It ends well if there is a look of the first kind, be it the last one, and none of the second
before it; it fails with a refusal, and gives up when the time is over. The number of looks is the least with
which the time is over, whatever answers the looks are given, and fuel for that many is as good as more. -/
theorem wait_until_deadline (b : Batch) {job : String} (named : '/' ∈ job.toList) (limit : Int) {w : World}
    (lag : 0 ≤ w.lag) (answers : ℕ → Except Refusal JobState) :
    ∃ N : ℕ, IsLeast {n : ℕ | limit ≤ (n * (5 + w.lag)).floor} N ∧ (limit ≤ 0 → N = 0) ∧
      N ≤ ⌈(limit : ℚ) / 5⌉₊ ∧ (∃ s : Service, ∀ k < N, s.reported k = answers k) ∧
      (∀ n, ∃ trace, (watched w job n).events = w.events ++ trace ∧ trace.countP Event.isSleep = n ∧
        looksIn trace = n) ∧
      ((∀ k < N, w.service.reported k = answers k) →
        (∀ fuel, N ≤ fuel → b.poll job limit w.clock fuel 0 w = b.wait job limit w) ∧
        ((∃ v, b.wait job limit w = .ok () v) ↔
          ∃ i < N, (answers i = .ok .completed ∨ answers i = .ok .paused) ∧
            ∀ k < i, ∃ state, answers k = .ok state) ∧
        (∀ i < N, (∀ k < i, Open (answers k)) →
          (answers i = .ok .completed ∨ answers i = .ok .paused →
            b.wait job limit w = .ok () (watched w job (i + 1))) ∧
          ∀ r, answers i = .error r →
            b.wait job limit w = .error (.failure (.service r)) (watched w job (i + 1))) ∧
        ((∀ k < N, Open (answers k)) →
          ∃ link, b.link? job = some link ∧ b.wait job limit w = .error (.exit ⟨none, "", ""⟩)
            ((watched w job N).after (.note (.stillRunning (N * (5 + w.lag)).floor link))))) := by
  have least : IsLeast {n : ℕ | limit ≤ (n * (5 + w.lag)).floor} (allowed limit w) := by
    simpa only [spent, pace_eq] using isLeast_allowed lag limit
  have past : limit ≤ 0 → allowed limit w = 0 := fun past =>
    Nat.le_zero.mp ((le_spent_iff lag limit 0).mp (spent_zero w ▸ past))
  obtain ⟨link, hlink⟩ : ∃ link, b.link? job = some link := by
    rw [link?, if_pos named]
    exact ⟨_, rfl⟩
  refine ⟨allowed limit w, least, past, allowed_le lag limit, Service.exists_reported answers _,
    watched_log w job, fun given => ?_⟩
  have waits : b.wait job limit w = b.poll job limit w.clock (looks limit w) 0 w := rfl
  have enough := allowed_le_looks lag limit
  rw [waits]
  refine ⟨fun fuel hf => poll_fuel b lag given hf hlink enough, poll_ok_iff b lag given enough hlink,
    fun i hi first => ⟨fun found => poll_finds b lag given enough hi first found,
      fun r refused => poll_refused b lag given enough hi first refused⟩, fun going => ⟨link, hlink, ?_⟩⟩
  rw [poll_exits b lag given enough hlink going, spent, pace_eq]

def vigil : World :=
  { World.ofDisk ⟨⟨[]⟩, []⟩ with
    service := ⟨none, .ok "", [.ok .running, .ok .draft, .ok .paused], .ok []⟩
    lag := 1 / 4 }

theorem wait_until_deadline_vigil :
    IsLeast {n : ℕ | (12 : Int) ≤ (n * (5 + vigil.lag)).floor} 3 ∧
      ∃ v, (errand "in").wait "jobs/1" 12 vigil = .ok () v ∧ v.events.countP Event.isSleep = 3 ∧
        looksIn v.events = 3 ∧ v.clock = 63 / 4 := by
  have three : IsLeast {n : ℕ | (12 : Int) ≤ (n * (5 + vigil.lag)).floor} 3 := by
    have few : ∀ n < 3, ¬ (12 : Int) ≤ ((n : ℕ) * (5 + vigil.lag)).floor := by decide +kernel
    exact ⟨by decide +kernel, fun n hn => Nat.le_of_not_lt (fun less => few n less hn)⟩
  obtain ⟨N, least, _, _, _, log, rest⟩ := wait_until_deadline (errand "in")
    (by decide : '/' ∈ "jobs/1".toList) 12 (w := vigil) (by decide +kernel) vigil.service.reported
  obtain rfl := least.unique three
  obtain ⟨_, _, found, _⟩ := rest (fun _ _ => rfl)
  obtain ⟨trace, events, sleeps, looks⟩ := log 3
  have none : (watched vigil "jobs/1" 3).events = trace := events
  have going : ∀ k < 2, Open (vigil.service.reported k) := by
    intro k hk
    match k, hk with
    | 0, _ => exact ⟨.running, rfl, by decide, by decide⟩
    | 1, _ => exact ⟨.draft, rfl, by decide, by decide⟩
  exact ⟨three, _, (found 2 (by decide) going).1 (Or.inr rfl), none ▸ sleeps, none ▸ looks,
    by decide +kernel⟩

end Batch

end SqlMigration
