import Mathlib.Algebra.Order.Ring.Rat
import Mathlib.Tactic.Linarith
import Mathlib.Tactic.Ring
import SqlMigration.Job.Batch
import SqlMigration.Proofs.Job.Processing

/-!
# Waiting for a job

A wait ends well as soon as a look that is begun within the time limit finds the
job in a final state. The looks that are granted suffice for that.
-/

set_option autoImplicit false

namespace SqlMigration

open Effect

/-- The answer to the look after `n` others. -/
def Service.reported (s : Service) : Nat → Except Refusal JobState
  | 0 => s.state
  | n + 1 => s.afterState.reported n

theorem Service.reported_early (s : Service) (n : Nat) :
    ∃ k, k ≤ n ∧ k ≤ s.states.length ∧ s.reported k = s.reported n := by
  induction n generalizing s with
  | zero => exact ⟨0, Nat.le_refl 0, Nat.zero_le _, rfl⟩
  | succ n ih =>
    obtain ⟨k, hkn, hk, e⟩ := ih s.afterState
    match hs : s.states with
    | [] =>
      have same : s.afterState = s := by simp [afterState, hs]
      obtain ⟨j, hj, hl, e'⟩ := ih s
      rw [hs] at hl
      exact ⟨j, Nat.le_succ_of_le hj, hl, by rw [e', reported, same]⟩
    | [x] =>
      have same : s.afterState = s := by simp [afterState, hs]
      obtain ⟨j, hj, hl, e'⟩ := ih s
      rw [hs] at hl
      exact ⟨j, Nat.le_succ_of_le hj, hl, by rw [e', reported, same]⟩
    | x :: y :: rest =>
      have fewer : s.afterState.states = y :: rest := by simp [afterState, hs]
      rw [fewer] at hk
      exact ⟨k + 1, Nat.succ_le_succ hkn, Nat.succ_le_succ hk, e⟩

namespace Batch

def pace (w : World) : Rat := (pause : Rat) + w.lag

theorem elapsed_lt_iff {start now : Rat} {limit : Int} (h : 0 < limit) :
    elapsed start now < limit ↔ now - start < (limit : Rat) := by
  rw [elapsed]
  split
  · exact Rat.floor_lt_iff
  · next neg =>
    have below : now - start < 0 := not_le.mp neg
    have up : (0 : Int) ≤ (-(now - start)).floor := by
      rw [Rat.le_floor_iff]
      push_cast
      linarith
    have limit' : (0 : Rat) < limit := by exact_mod_cast h
    constructor
    · intro _
      linarith
    · intro _
      omega

def asked (w : World) (job : String) : World :=
  { w with
    service := w.service.afterState
    events := w.events ++ [.note (.workflowSought job)] ++ [.requested (.get job)] }

theorem getWorkflow_ok (job : String) {w : World} {state : JobState} (h : w.service.state = .ok state) :
    getWorkflow job w = .ok ⟨job, state⟩ (asked w job) := by
  have answer : (Run.ofExcept (w.service.state.mapError .service) : Run JobState) (asked w job) =
      .ok state (asked w job) := by
    rw [h]
    rfl
  exact bind_ok (f := fun state => (pure ⟨job, state⟩ : Run Workflow)) answer

theorem getWorkflow_error (job : String) {w : World} {r : Refusal} (h : w.service.state = .error r) :
    getWorkflow job w = .error (.failure (.service r)) (asked w job) := by
  have answer : (Run.ofExcept (w.service.state.mapError .service) : Run JobState) (asked w job) =
      .error (.failure (.service r)) (asked w job) := by
    rw [h]
    rfl
  exact bind_error (f := fun state => (pure ⟨job, state⟩ : Run Workflow)) answer

/-- The note on an answer. A refusal has none. -/
def told (answer : Except Refusal JobState) (seconds : Int) : List Event :=
  match answer with
  | .ok state => [.note (.status state seconds)]
  | .error _ => []

def looked (w : World) (job : String) (start : Rat) : World :=
  { w with
    clock := w.clock + pause + w.lag
    service := w.service.afterState
    events := w.events ++ [.slept pause] ++ [.note (.workflowSought job)] ++ [.requested (.get job)]
      ++ told w.service.state (elapsed start (w.clock + pause + w.lag)) }

/-- A look ends the wait if it is refused or finds a final state. -/
theorem poll_succ (b : Batch) (job : String) {limit : Int} (start : Rat) (fuel : Nat) {seconds : Int}
    (h : seconds < limit) (w : World) :
    b.poll job limit start (fuel + 1) seconds w =
      match w.service.state with
      | .error r => .error (.failure (.service r)) (looked w job start)
      | .ok state =>
        if state.isFinal then .ok () (looked w job start)
        else b.poll job limit start fuel (elapsed start (w.clock + pause + w.lag)) (looked w job start) := by
  let slept : World := { w with clock := w.clock + pause + w.lag, events := w.events ++ [.slept pause] }
  rw [poll, if_pos h]
  change (getWorkflow job >>= fun found => do
    Run.note (.status found.state (elapsed start (w.clock + pause + w.lag)))
    if found.state.isFinal then pure ()
    else b.poll job limit start fuel (elapsed start (w.clock + pause + w.lag)) : Run Unit) slept = _
  rcases answer : w.service.state with r | state
  · have silent : looked w job start = asked slept job := by
      simp [looked, asked, slept, told, answer]
    rw [silent]
    exact bind_error (getWorkflow_error job (w := slept) answer)
  · have noted : looked w job start = { asked slept job with
        events := (asked slept job).events ++ [.note (.status state (elapsed start slept.clock))] } := by
      simp [looked, asked, slept, told, answer]
    rw [bind_ok (getWorkflow_ok job (w := slept) answer), noted]
    change (if state.isFinal = true then pure ()
      else b.poll job limit start fuel (elapsed start (w.clock + pause + w.lag)) : Run Unit) _ =
      if state.isFinal = true then _ else _
    split <;> rfl

def waited (w : World) (clock : Rat) (service : Service) (events : List Event) : World :=
  { w with clock := clock, service := service, events := events }

theorem poll_ok (b : Batch) (job : String) {limit : Int} (hl : 0 < limit) (start : Rat) (n : Nat)
    {fuel : Nat} (enough : n < fuel) {seconds : Int} (early : seconds < limit) (w : World)
    (answers : ∀ k, k < n → ∃ state, w.service.reported k = .ok state)
    {last : JobState} (found : w.service.reported n = .ok last) (final : last.isFinal = true)
    (time : ∀ k, k ≤ n → w.clock + k * pace w - start < (limit : Rat)) :
    ∃ clock service events, b.poll job limit start fuel seconds w =
      .ok () (waited w clock service events) := by
  induction n generalizing w fuel seconds with
  | zero =>
    obtain ⟨fuel, rfl⟩ := Nat.exists_eq_add_of_lt enough
    have now : w.service.state = .ok last := found
    rw [Nat.zero_add, poll_succ b job start fuel early, now]
    exact ⟨_, _, _, if_pos final⟩
  | succ n ih =>
    obtain ⟨fuel, rfl⟩ := Nat.exists_eq_add_of_lt (Nat.zero_lt_of_lt enough)
    rw [Nat.zero_add] at enough ⊢
    obtain ⟨state, now⟩ : ∃ state, w.service.state = .ok state := answers 0 (Nat.succ_pos n)
    rw [poll_succ b job start fuel early, now]
    dsimp only
    split
    · exact ⟨_, _, _, rfl⟩
    · have clock : (looked w job start).clock = w.clock + pause + w.lag := rfl
      have same : pace (looked w job start) = pace w := rfl
      have later : ∀ k, k ≤ n → (looked w job start).clock + k * pace (looked w job start) - start <
          (limit : Rat) := by
        intro k hk
        have := time (k + 1) (Nat.succ_le_succ hk)
        rw [same, clock]
        rw [pace] at this ⊢
        push_cast at this
        linarith
      have soon : elapsed start (w.clock + pause + w.lag) < limit := by
        rw [elapsed_lt_iff hl]
        have := later 0 (Nat.zero_le n)
        rw [clock] at this
        push_cast at this
        linarith
      obtain ⟨clock, service, events, run⟩ :=
        ih (Nat.lt_of_succ_lt_succ enough) soon (looked w job start)
          (fun k hk => answers (k + 1) (Nat.succ_lt_succ hk)) found later
      exact ⟨clock, service, events, run⟩

theorem wait_ok (b : Batch) (job : String) {limit : Int} (hl : 0 < limit) (w : World) (n : Nat)
    (answers : ∀ k, k < n → ∃ state, w.service.reported k = .ok state)
    {last : JobState} (found : w.service.reported n = .ok last) (final : last.isFinal = true)
    (time : n * pace w < (limit : Rat)) :
    ∃ clock service events, b.wait job limit w = .ok () (waited w clock service events) := by
  obtain ⟨k, hkn, hk, same⟩ := w.service.reported_early n
  have enough : k < looks limit w := by
    rw [looks]
    omega
  have positive : (0 : Rat) < limit := by exact_mod_cast hl
  have soon : ∀ i, i ≤ k → w.clock + i * pace w - w.clock < (limit : Rat) := by
    intro i hi
    have hin : (i : Rat) ≤ n := by exact_mod_cast Nat.le_trans hi hkn
    have nonneg : (0 : Rat) ≤ i := by exact_mod_cast Nat.zero_le i
    rcases le_total 0 (pace w) with hp | hp
    · have := mul_le_mul_of_nonneg_right hin hp
      linarith
    · have := mul_nonpos_of_nonneg_of_nonpos nonneg hp
      linarith
  exact poll_ok b job hl w.clock k enough hl w (fun i hi => answers i (Nat.lt_of_lt_of_le hi hkn))
    (same ▸ found) final soon

end Batch

end SqlMigration
