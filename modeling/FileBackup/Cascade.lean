import FileBackup.Lifecycle

/-!
# Failure cascade

`run_single_threaded` ignores the result of `execute` and gives every executed job to
`mark_completed`, which removes its node whatever its row says; no step of that loop cancels a
job (`Single.status_change`). `mark_failed`, called only when `reap_children` sees a failed
child, cancels the direct dependents of the failed job and nothing more
(`Scheduler.markFailed_status`), and keeps their nodes, so a job two edges away keeps its
in-degree and stays `PENDING`.

* `Multi.failed_chain`: jobs `1 → 2 → 3` in `run_multi_process` after job `1`'s worker fails;
* `failure_not_cascaded`: in the single loop a direct dependent of a failed job runs; in the
  multi-process loop a transitive one stays `PENDING`.
-/

namespace FileBackup

/-- The three jobs of a chain: job `1` has a source that does not exist, job `2` depends on `1`
and job `3` on `2`. -/
def chainCalls : List ApiCall :=
  [.submitJob { sourcePath := "/missing", backupName := "j1" } 0 true,
   .submitJob { sourcePath := "/data", backupName := "j2", dependencies := [1] } 0 true,
   .submitJob { sourcePath := "/data", backupName := "j3", dependencies := [2] } 0 true]

namespace Multi

/-- `run_multi_process` over the chain `1 → 2 → 3`, after job `1`'s child failed its snapshot
and was reaped: job `1` is `FAILED`, job `2` `CANCELLED`, job `3` still `PENDING`; no worker is
active, and `get_ready_jobs` returns nothing. -/
theorem failed_chain : ∃ σ : Multi, σ.Reachable ∧ σ.pc = .top ∧ σ.active = [] ∧
    (1, 2) ∈ σ.seen ∧ (2, 3) ∈ σ.seen ∧ σ.db.status 1 = some .failed ∧
    σ.db.status 2 = some .cancelled ∧ σ.db.status 3 = some .pending ∧
    σ.db.getJobsByStatus .pending ≠ [] ∧ (σ.sched.getReadyJobs σ.db).1 = [] := by
  have r := ((Reachable.init.api (chainCalls.get ⟨0, by decide⟩)).api
    (chainCalls.get ⟨1, by decide⟩)).api (chainCalls.get ⟨2, by decide⟩)
  have r := r.step (.reapDone rfl (by decide))
  have r := r.step (.ready (l := [{ sourcePath := "/missing", backupName := "j1", jobId := 1 }])
    rfl (by decide) (by decide))
  have r := r.step (.fork true (some 101) rfl (by decide) (by decide) (by simp; decide))
  have r := r.step (.dispatchDone rfl)
  have r := r.step (.child (c := ⟨101, 1, .opening⟩) (by decide) .opened)
  have r := r.step (.child (c := ⟨101, 1, .started⟩) (by decide) (.running true))
  have r := r.step (.child (c := ⟨101, 1, .snapshot⟩) (by decide) (.snapshot false))
  have r := r.step (.child (c := ⟨101, 1, .failing⟩) (by decide) (.failed true))
  have r := r.step (.child (c := ⟨101, 1, .exiting false⟩) (by decide) (.exit false))
  have r := r.step (.reap (c := ⟨101, 1, .exited false⟩) true (fun _ => true) (Or.inl rfl)
    (by decide) rfl)
  have r := r.step (.reapDone rfl (by decide))
  exact ⟨_, r, by decide, by decide, by decide, by decide, by decide, by decide, by decide,
    by decide, by decide⟩

end Multi

/-- A failure does not cascade. In `run_single_threaded`, job `2` depends on job `1`, job `1`'s
snapshot fails and its row is `FAILED`, and job `2` is executed all the same. In
`run_multi_process`, over the chain `1 → 2 → 3`, job `1` fails and job `3` stays `PENDING`. -/
theorem failure_not_cascaded :
    (∃ σ₀ σ : Single, σ₀.Setup ∧ Single.Run σ₀ σ ∧ (1, 2) ∈ σ.seen ∧
      σ.db.status 1 = some .failed ∧ 2 ∈ σ.executed ∧ σ.db.status 2 = some .completed) ∧
    (∃ σ : Multi, σ.Reachable ∧ (1, 2) ∈ σ.seen ∧ (2, 3) ∈ σ.seen ∧
      σ.db.status 1 = some .failed ∧ σ.db.status 3 = some .pending) := by
  refine ⟨?_, ?_⟩
  · let σ₀ := (Single.init.afterApi (chainCalls.get ⟨0, by decide⟩)).afterApi
      (chainCalls.get ⟨1, by decide⟩)
    have h0 : σ₀.Setup := .api _ (.api _ .init)
    let r1 : BackupJob := { sourcePath := "/missing", backupName := "j1", jobId := 1 }
    let r2 : BackupJob := { sourcePath := "/data", backupName := "j2", jobId := 2 }
    have r := (Single.Run.refl σ₀).step (.ready (l := [r1]) rfl (by decide) (by decide))
    have r := r.step (.execute rfl (workerRun_workerWrites _ _ false true true true 0 0 0 0 0))
    have r := (r.step (.markCompleted rfl)).step (.next rfl)
    have r := r.step (.ready (l := [r2]) rfl (by decide) (by decide))
    have r := r.step (.execute rfl (workerRun_workerWrites _ _ true true true true 0 0 0 0 0))
    exact ⟨_, _, h0, r, by decide, by decide, by decide, by decide⟩
  · obtain ⟨σ, h, -, -, h12, h23, h1, -, h3, -⟩ := Multi.failed_chain
    exact ⟨σ, h, h12, h23, h1, h3⟩

end FileBackup
