import SqlMigration.Job.World
import SqlMigration.Proofs.Effect

/-!
# What runs keep

A property of the world that is kept by what a run does step by step is kept by
the run. A walk keeps what each of its visits keeps.
-/

set_option autoImplicit false

def SqlMigration.World.ofDisk (d : SqlMigration.Disk) : SqlMigration.World where
  disk := d
  home := "/"
  storage := ⟨[], []⟩
  service := ⟨none, .ok "", [], .ok []⟩
  shell := ⟨"", ""⟩
  now := ⟨⟨2022, 6, 7⟩, 8, 9⟩
  uuid := ""
  clock := 0
  lag := 0
  events := []

namespace SqlMigration.Run

open Effect

variable {α : Type} {I : World → Prop}

theorem disk_apply (w : World) : disk w = .ok w.disk w := rfl

theorem files_ok {action : Files.Action α} {w : World} {a : α} {d : Disk}
    (h : action w.disk = .ok a d) : files action w = .ok a { w with disk := d } := by
  simp only [files, h]

theorem files_error {action : Files.Action α} {w : World} {f : Files.Fault} {d : Disk}
    (h : action w.disk = .error f d) :
    files action w = .error (.failure (.file f)) { w with disk := d } := by
  simp only [files, h]

theorem ok_of_files {action : Files.Action α} {w v : World} {a : α} (h : files action w = .ok a v) :
    ∃ d, action w.disk = .ok a d ∧ v = { w with disk := d } := by
  cases done : action w.disk with
  | ok b d =>
    rw [files_ok done] at h
    cases h
    exact ⟨d, rfl, rfl⟩
  | error f d =>
    rw [files_error done] at h
    cases h

theorem keeps_files {action : Files.Action α}
    (h : ∀ w, I w → I { w with disk := final (action w.disk) }) : Keeps I (files action) := by
  intro w hw
  have kept := h w hw
  unfold files
  cases hr : action w.disk <;> rw [hr] at kept <;> exact kept

theorem keeps_files_of {J : Disk → Prop} {action : Files.Action α} (h : Keeps J action) :
    Keeps (fun w => J w.disk) (files action) :=
  keeps_files (fun w hw => h w.disk hw)

theorem keeps_emit {e : Event} (h : ∀ w, I w → I { w with events := w.events ++ [e] }) :
    Keeps I (emit e) :=
  Keeps.modify h

theorem parallel_ofExcept {R : World → World → Prop} (r : Except Failure α) :
    Parallel R (ofExcept r) (ofExcept r) := by
  cases r with
  | ok a => exact Parallel.pure a
  | error f => exact Parallel.throw (Stop.failure f)

theorem keeps_disk_bind {f : Disk → Run α} (h : ∀ w, I w → I (final (f w.disk w))) :
    Keeps I (disk >>= f) :=
  fun w hw => h w hw

theorem keeps_disk_of {f : Disk → Run α} (h : ∀ d, Keeps I (f d)) : Keeps I (disk >>= f) :=
  fun w hw => h w.disk w hw

theorem keeps_walk {V N : String → Prop} {visit : String → List String → Run Unit}
    (listed : ∀ w s n, I w → n ∈ (w.disk.list s).1 ∨ n ∈ (w.disk.list s).2 → N n)
    (next : ∀ s n, V s → N n → V (Path.join s n))
    (visits : ∀ s names, V s → (∀ n ∈ names, N n) → Keeps I (visit s names)) (fuel : Nat) {s : String}
    (hs : V s) : Keeps I (walk visit fuel s) := by
  induction fuel generalizing s with
  | zero => exact Keeps.pure _
  | succ fuel ih =>
    refine keeps_disk_bind (fun w hw => ?_)
    have names := fun n => listed w s n hw
    generalize w.disk.list s = found at names
    obtain ⟨directories, others⟩ := found
    have rest : Keeps I (directories.forM (fun name => do
        let path := Path.join s name
        if (← disk).isLink path then pure () else walk visit fuel path)) := by
      refine Keeps.forM directories (fun n hn => keeps_disk_of (fun d => ?_))
      exact Keeps.ite (fun _ => Keeps.pure _) (fun _ => ih (next s n hs (names n (Or.inl hn))))
    exact Keeps.bind (visits s others hs (fun n hn => names n (Or.inr hn))) (fun _ => rest) w hw

theorem keeps_walkAll {V N : String → Prop} {visit : String → List String → Run Unit}
    (listed : ∀ w s n, I w → n ∈ (w.disk.list s).1 ∨ n ∈ (w.disk.list s).2 → N n)
    (next : ∀ s n, V s → N n → V (Path.join s n))
    (visits : ∀ s names, V s → (∀ n ∈ names, N n) → Keeps I (visit s names)) {top : String}
    (ht : V top) : Keeps I (walkAll visit top) := by
  unfold walkAll
  exact Keeps.ite (fun _ => keeps_files (fun _ hw => hw)) (fun _ => keeps_walk listed next visits _ ht)

theorem agree_disk {f g : Disk → Run α} (h : ∀ w, I w → f w.disk w = g w.disk w) :
    Agree I (disk >>= f) (disk >>= g) :=
  fun w hw => h w hw

theorem agree_walk {V N : String → Prop} {visit visit' : String → List String → Run Unit}
    (listed : ∀ w s n, I w → n ∈ (w.disk.list s).1 ∨ n ∈ (w.disk.list s).2 → N n)
    (next : ∀ s n, V s → N n → V (Path.join s n))
    (visits : ∀ s names, V s → (∀ n ∈ names, N n) → Keeps I (visit s names))
    (same : ∀ s names, V s → (∀ n ∈ names, N n) → Agree I (visit s names) (visit' s names))
    (fuel : Nat) {s : String} (hs : V s) : Agree I (walk visit fuel s) (walk visit' fuel s) := by
  induction fuel generalizing s with
  | zero => exact Agree.refl _
  | succ fuel ih =>
    refine agree_disk (fun w hw => ?_)
    have names := fun n => listed w s n hw
    generalize w.disk.list s = found at names
    obtain ⟨directories, others⟩ := found
    have proper : ∀ n ∈ others, N n := fun n hn => names n (Or.inr hn)
    refine Agree.bind (visits s others hs proper) (same s others hs proper) (fun _ => ?_) w hw
    refine Agree.forM directories (fun n hn => ?_) (fun n hn => ?_)
    · exact keeps_disk_of (fun d => Keeps.ite (fun _ => Keeps.pure _) (fun _ =>
        keeps_walk listed next visits fuel (next s n hs (names n (Or.inl hn)))))
    · refine agree_disk (fun w hw => Agree.ite (fun _ => Agree.refl _) (fun _ => ?_) w hw)
      exact ih (next s n hs (names n (Or.inl hn)))

end SqlMigration.Run
