import FileBackup.AtMostOnce

/-!
# Job lifecycle

Which status changes each loop can make.

* `run_single_threaded`: a job handed out is `PENDING` until its worker runs, and a worker writes
  only its own row, so every status change of a step is a job leaving `PENDING` for `RUNNING`,
  `COMPLETED` or `FAILED` (`Single.status_change`), under any outside calls and any failed
  writes. `COMPLETED`, `FAILED` and `CANCELLED` are never left, and nothing is cancelled.
* `run_multi_process`: `mark_failed` sets the dependents of a failed job to `CANCELLED`
  whatever their status (`Scheduler.cancelDependents_jobs`), and `add_dependency` can make a
  finished job a node again (`add_edge` adds both ends). A job that ran to `COMPLETED` and was
  reaped can so become `CANCELLED` (`completed_job_cancelled`).
-/

namespace FileBackup

namespace Single

/-- The single loop's hold on its jobs: distinct, each with a `PENDING` row until its worker
runs. -/
structure HeldInv (σ : Single) : Prop where
  wf : σ.sched.depGraph.Wf
  rowIds : σ.db.RowIds
  idsBelow : σ.db.IdsBelow
  toRun_nodup : (σ.pc.toRun.map (·.jobId)).Nodup
  toRun_pending : ∀ j ∈ σ.pc.toRun, σ.db.status j.jobId = some .pending

theorem heldInv_init : init.HeldInv :=
  ⟨Dag.wf_empty, Db.rowIds_empty, Db.idsBelow_empty, List.nodup_nil, by simp [init, SinglePc.toRun]⟩

theorem HeldInv.step {σ σ' : Single} (hσ : σ.HeldInv) (h : Step σ σ') : σ'.HeldInv := by
  cases h with
  | @ready l hpc hne hl =>
    refine ⟨hσ.wf, hσ.rowIds, hσ.idsBelow,
      (hl.map _).nodup_iff.2 (Scheduler.getReadyJobs_ids hσ.wf hσ.rowIds).1, fun j hj => ?_⟩
    obtain ⟨-, hget, hpend, -⟩ := Scheduler.mem_getReadyJobs hσ.rowIds (hl.subset hj)
    simp [afterReady, Db.status, show σ.db.jobs j.jobId = some j from hget, hpend]
  | sleep hpc he hp | stop hpc he hp => exact ⟨hσ.wf, hσ.rowIds, hσ.idsBelow,
      by simp [afterEmpty, SinglePc.toRun], by simp [afterEmpty, SinglePc.toRun]⟩
  | @execute j rest db' b hpc hw =>
    have hnd := hσ.toRun_nodup
    simp only [hpc, SinglePc.toRun, List.map_cons, List.nodup_cons, List.mem_map,
      not_exists, not_and] at hnd
    refine ⟨hσ.wf, hw.rowIds hσ.rowIds, hw.idsBelow hσ.idsBelow, hnd.2, fun k (hk : k ∈ rest) => ?_⟩
    rw [show (σ.afterExecute j rest db').db = db' from rfl, hw.status_of_ne (hnd.1 k hk)]
    exact hσ.toRun_pending k (by rw [hpc]; exact List.mem_cons_of_mem _ hk)
  | @markCompleted j rest hpc =>
    have h1 := hσ.toRun_nodup
    have h2 := hσ.toRun_pending
    rw [hpc] at h1 h2
    exact ⟨hσ.wf.removeNode _, hσ.rowIds, hσ.idsBelow, h1, h2⟩
  | next hpc | restart hpc =>
    exact ⟨hσ.wf, hσ.rowIds, hσ.idsBelow, List.nodup_nil, by simp [SinglePc.toRun]⟩

theorem HeldInv.afterApi {σ : Single} (hσ : σ.HeldInv) (c : ApiCall) : (σ.afterApi c).HeldInv := by
  refine ⟨c.apply_wf hσ.wf _, c.apply_rowIds _ hσ.rowIds, c.apply_idsBelow _ hσ.idsBelow,
    hσ.toRun_nodup, fun j hj => ?_⟩
  have hp := hσ.toRun_pending j hj
  rcases c.apply_status σ.sched hσ.idsBelow j.jobId with h | h
  · exact h.trans hp
  · rw [hp] at h; cases h

theorem Reachable.heldInv {σ : Single} (h : σ.Reachable) : σ.HeldInv := by
  induction h with
  | init => exact heldInv_init
  | step _ hs ih => exact ih.step hs
  | api c _ ih => exact ih.afterApi c

/-- What one step of the loop does to the status column: a row is unchanged, or it is the
executed job's and goes from `PENDING` to `RUNNING`, `COMPLETED` or `FAILED`. -/
theorem HeldInv.status_step {σ σ' : Single} (hσ : σ.HeldInv) (h : Step σ σ') (i : Int) :
    σ'.db.status i = σ.db.status i ∨ (σ.db.status i = some .pending ∧
      σ'.db.status i ∈ [some .running, some .completed, some .failed]) := by
  cases h with
  | @execute j rest db' b hpc hw =>
    show db'.status i = _ ∨ (_ ∧ db'.status i ∈ _)
    by_cases hi : i = j.jobId
    · subst hi
      have hp := hσ.toRun_pending j (by simp [hpc, SinglePc.toRun])
      rcases hw.status_self with h | h | h
      · exact Or.inl h
      · exact Or.inr ⟨hp, by simp [h, hp]⟩
      · exact Or.inr ⟨hp, by cases b <;> simp [h, hp]⟩
    · exact Or.inl (hw.status_of_ne hi)
  | _ => exact Or.inl rfl

/-- In `run_single_threaded`, under any interleaving of outside calls and any failed writes,
a status changes only when a job leaves `PENDING` for `RUNNING`, `COMPLETED` or `FAILED`, and
an outside call changes no status but adds a row. -/
theorem status_change {σ : Single} (h : σ.Reachable) (i : Int) :
    (∀ σ', Step σ σ' → σ'.db.status i ≠ σ.db.status i →
      σ.db.status i = some .pending ∧
        σ'.db.status i ∈ [some .running, some .completed, some .failed]) ∧
    (∀ c, (σ.afterApi c).db.status i ≠ σ.db.status i → σ.db.status i = none) :=
  ⟨fun _ hs hne => (h.heldInv.status_step hs i).resolve_left hne,
    fun c hne => ((c.apply_status σ.sched h.heldInv.idsBelow i).resolve_left hne)⟩

end Single

namespace Multi

/-- A job that ran to `COMPLETED` and was reaped becomes `CANCELLED`. Jobs `1` and `2` are
submitted and forked; job `2`'s child writes `COMPLETED` and exits `0` and is reaped; then
`add_dependency(2, 1)` makes job `2` a node again, as a dependent of job `1`, whose snapshot
fails; reaping job `1`'s child calls `mark_failed(1)`, which cancels job `2`. -/
theorem completed_job_cancelled : ∃ σ σ' : Multi, σ.Reachable ∧ Step σ σ' ∧
    2 ∈ σ.finished ∧ σ.db.status 2 = some .completed ∧ σ'.db.status 2 = some .cancelled := by
  let a : BackupJob := { sourcePath := "/data/a", backupName := "a" }
  let b : BackupJob := { sourcePath := "/data/b", backupName := "b" }
  have r := (Reachable.init.api (.submitJob a 0 true)).api (.submitJob b 0 true)
  have r := r.step (.reapDone rfl (by decide))
  have r := r.step (.ready (l := [{ a with jobId := 1 }, { b with jobId := 2 }]) rfl
    (by decide) (by decide))
  have r := r.step (.fork true (some 101) rfl (by decide) (by decide) (by simp; decide))
  have r := r.step (.fork true (some 102) rfl (by decide) (by decide) (by simp; decide))
  have r := r.step (.dispatchDone rfl)
  have r := r.step (.child (c := ⟨102, 2, .opening⟩) (by decide) .opened)
  have r := r.step (.child (c := ⟨102, 2, .started⟩) (by decide) (.running true))
  have r := r.step (.child (c := ⟨102, 2, .snapshot⟩) (by decide) (.snapshot true))
  have r := r.step (.child (c := ⟨102, 2, .stats⟩) (by decide) (.stats true 0 0 0 0 0))
  have r := r.step (.child (c := ⟨102, 2, .completing⟩) (by decide) (.completed true))
  have r := r.step (.child (c := ⟨102, 2, .exiting true⟩) (by decide) (.exit true))
  have r := r.step (.reap (c := ⟨102, 2, .exited true⟩) true (fun _ => true) (Or.inl rfl)
    (by decide) rfl)
  have r := r.api (.addDependency 2 1)
  have r := r.step (.child (c := ⟨101, 1, .opening⟩) (by decide) .opened)
  have r := r.step (.child (c := ⟨101, 1, .started⟩) (by decide) (.running true))
  have r := r.step (.child (c := ⟨101, 1, .snapshot⟩) (by decide) (.snapshot false))
  have r := r.step (.child (c := ⟨101, 1, .failing⟩) (by decide) (.failed true))
  have r := r.step (.child (c := ⟨101, 1, .exiting false⟩) (by decide) (.exit false))
  exact ⟨_, _, r, .reap (c := ⟨101, 1, .exited false⟩) true (fun _ => true) (Or.inl rfl)
    (by decide) rfl, by decide, by decide, by decide⟩

end Multi

end FileBackup
