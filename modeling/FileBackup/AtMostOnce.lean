import FileBackup.DependencyOrder

/-!
# At-most-once execution

In every run of either loop, begun in any reachable state (the first run after the jobs were
submitted, or a later run on the same orchestrator after further calls, as
`TerminalUI::do_backup` makes one per backup), no job is executed (or forked) twice within the
run. `get_ready_jobs` hands out a node only when it is not in `in_progress_`, and a handed-out
job leaves `in_progress_` only in `mark_completed` (or `mark_failed`), which also removes its
node; no loop step adds a node. So:

* `Scheduler.Holds`: the jobs a loop holds are distinct and in progress, in every reachable
  state (`Single.Reachable.holds`, `Multi.Reachable.holds`);
* `Scheduler.RunLedger`: the jobs done (executed or forked) since the run began are distinct,
  each still in progress or no longer a node, and none of the held jobs still to run is among
  them;
* `at_most_once`: what a run adds to `executed` (single process) or to `forked`
  (multi-process) is duplicate-free, in the single loop and in every interleaving of the parent
  and its children.

A child runs `execute` at most once, after its database opens, so a job forked once is executed
at most once. Outside calls between two runs can undo this for the next run:
`add_dependency` on a finished job makes it a node again (see `Lifecycle`).
-/

namespace FileBackup

namespace Scheduler

/-- The ids `get_ready_jobs` returns are distinct nodes of the graph, none in progress. -/
theorem getReadyJobs_ids {s : Scheduler} {db : Db} (hwf : s.depGraph.Wf) (hrow : db.RowIds) :
    ((s.getReadyJobs db).1.map (·.jobId)).Nodup ∧
      ∀ J ∈ (s.getReadyJobs db).1, J.jobId ∈ s.depGraph.nodes ∧ J.jobId ∉ s.inProgress := by
  obtain ⟨L, hperm, -, hsub, hx⟩ := s.getReadyJobs_spec db
  have hids : (L.map Prod.snd).map (·.jobId) = L.map Prod.fst := by
    rw [List.map_map]; exact List.map_congr_left fun x hxL => hrow _ _ (hx x hxL).1
  refine ⟨(hperm.map _).nodup_iff.2 (hids ▸ (hwf.nodup.filter _).sublist hsub), fun J hJ => ?_⟩
  · obtain ⟨hr, -, -, hp⟩ := mem_getReadyJobs hrow hJ
    exact ⟨(Dag.mem_getReadyNodes.1 hr).1, hp⟩

/-- The jobs a loop holds are distinct and in progress. -/
structure Holds (s : Scheduler) (held : List BackupJob) : Prop where
  nodup : (held.map (·.jobId)).Nodup
  mem : ∀ j ∈ held, j.jobId ∈ s.inProgress

namespace Holds

variable {s : Scheduler} {held : List BackupJob}

theorem nil (s : Scheduler) : s.Holds [] := ⟨List.nodup_nil, nofun⟩

/-- `get_ready_jobs` holds the jobs it returns, in any order. -/
theorem getReadyJobs {db : Db} (hwf : s.depGraph.Wf) (hrow : db.RowIds) {l : List BackupJob}
    (hl : l.Perm (s.getReadyJobs db).1) : (s.getReadyJobs db).2.Holds l := by
  obtain ⟨ids, hperm, h2⟩ := s.getReadyJobs_inProgress hrow
  refine ⟨(hl.map _).nodup_iff.2 (getReadyJobs_ids hwf hrow).1, fun j hj => ?_⟩
  rw [h2]
  exact List.mem_append_right _ (hperm.mem_iff.2 (List.mem_map_of_mem _ (hl.subset hj)))

theorem sublist {held' : List BackupJob} (h : s.Holds held) (hs : held'.Sublist held) :
    s.Holds held' :=
  ⟨h.nodup.sublist (hs.map _), fun j hj => h.mem j (hs.subset hj)⟩

/-- `mark_completed` of the first held job keeps the others in progress. -/
theorem markCompleted {j : BackupJob} {rest : List BackupJob} (h : s.Holds (j :: rest)) :
    (s.markCompleted j.jobId).Holds rest := by
  have hnd := h.nodup
  simp only [List.map_cons, List.nodup_cons, List.mem_map, not_exists, not_and] at hnd
  refine ⟨hnd.2, fun k hk => ?_⟩
  rw [markCompleted_inProgress, List.mem_erase_of_ne (hnd.1 k hk)]
  exact h.mem k (.tail _ hk)

/-- An outside call leaves `in_progress_` as it is. -/
theorem apply (h : s.Holds held) (c : ApiCall) (db : Db) : (c.apply s db).1.Holds held :=
  ⟨h.nodup, fun j hj => (c.apply_inProgress s db).symm ▸ h.mem j hj⟩

end Holds

/-- What a run has done: the jobs `done` (executed or forked) since it began are distinct, each
still in progress or no longer a node, and none of the held jobs still to run is among them. -/
structure RunLedger (s : Scheduler) (toRun : List BackupJob) (done : List Int) : Prop where
  nodup : done.Nodup
  out : ∀ i ∈ done, i ∈ s.inProgress ∨ i ∉ s.depGraph.nodes
  fresh : ∀ j ∈ toRun, j.jobId ∉ done

namespace RunLedger

variable {s : Scheduler} {toRun : List BackupJob} {done : List Int}

theorem start (s : Scheduler) (toRun : List BackupJob) : s.RunLedger toRun [] :=
  ⟨List.nodup_nil, nofun, fun _ _ => List.not_mem_nil _⟩

/-- Running (or forking) the first held job, which is in progress. -/
theorem take {j : BackupJob} {rest : List BackupJob} (h : s.RunLedger (j :: rest) done)
    (hold : s.Holds (j :: rest)) : s.RunLedger rest (done ++ [j.jobId]) := by
  have hnd := hold.nodup
  simp only [List.map_cons, List.nodup_cons, List.mem_map, not_exists, not_and] at hnd
  refine ⟨h.nodup.append (List.nodup_singleton _) ?_, fun i hi => ?_, fun k hk hd => ?_⟩
  · simpa using h.fresh j (.head _)
  · rcases List.mem_append.1 hi with hi | hi
    · exact h.out i hi
    · rw [List.mem_singleton.1 hi]; exact Or.inl (hold.mem j (.head _))
  · rcases List.mem_append.1 hd with hd | hd
    · exact h.fresh k (.tail _ hk) hd
    · exact hnd.1 k hk (List.mem_singleton.1 hd)

/-- Dropping held jobs unrun. -/
theorem drop {toRun' : List BackupJob} (h : s.RunLedger toRun done)
    (hs : toRun'.Sublist toRun) : s.RunLedger toRun' done :=
  ⟨h.nodup, h.out, fun k hk => h.fresh k (hs.subset hk)⟩

/-- `get_ready_jobs` only adds to `in_progress_`, and none of the jobs it returns is done. -/
theorem getReadyJobs {db : Db} (h : s.RunLedger toRun done) (hwf : s.depGraph.Wf)
    (hrow : db.RowIds) {l : List BackupJob} (hl : l.Perm (s.getReadyJobs db).1) :
    (s.getReadyJobs db).2.RunLedger l done := by
  obtain ⟨ids, -, h2⟩ := s.getReadyJobs_inProgress hrow
  refine ⟨h.nodup, fun i hi => ?_, fun j hj hd => ?_⟩
  · rw [h2]; exact (h.out i hi).imp (List.mem_append_left _) id
  · obtain ⟨hn, hp⟩ := (getReadyJobs_ids hwf hrow).2 j (hl.subset hj)
    exact (h.out _ hd).elim hp (· hn)

/-- `mark_completed` takes a job out of progress and out of the graph together. -/
theorem markCompleted (h : s.RunLedger toRun done) (hwf : s.depGraph.Wf) (id : Int) :
    (s.markCompleted id).RunLedger toRun done := by
  refine ⟨h.nodup, fun i hi => ?_, h.fresh⟩
  simp only [markCompleted_inProgress, markCompleted_depGraph, hwf.mem_removeNode]
  by_cases hid : i = id
  · exact Or.inr fun h => h.1 hid
  · exact (h.out i hi).imp (List.mem_erase_of_ne hid).2 fun h h' => h h'.2

end RunLedger

end Scheduler

namespace Single

/-- In every reachable state the single loop holds its jobs in progress, none twice. -/
theorem Reachable.holds {σ : Single} (h : σ.Reachable) : σ.sched.Holds σ.pc.jobs := by
  induction h with
  | init => exact Scheduler.Holds.nil _
  | step hr hs ih =>
    have hσ := hr.orderInv
    cases hs with
    | ready hpc hne hl => exact Scheduler.Holds.getReadyJobs hσ.wf hσ.rowIds hl
    | execute hpc hw => rw [hpc] at ih; exact ih
    | markCompleted hpc => rw [hpc] at ih; exact ih.markCompleted
    | _ => exact Scheduler.Holds.nil _
  | api c _ ih => exact ih.apply c _

/-- A run begun when `e₀` had been executed: the jobs it has executed since are accounted for
by the scheduler. -/
def OnceInv (e₀ : List Int) (σ : Single) : Prop :=
  ∃ ne, σ.executed = e₀ ++ ne ∧ σ.sched.RunLedger σ.pc.toRun ne

theorem OnceInv.step {e₀ : List Int} {σ σ' : Single} (hr : σ.Reachable) (hσ : σ.OnceInv e₀)
    (h : Step σ σ') : σ'.OnceInv e₀ := by
  obtain ⟨ne, he, hl⟩ := hσ
  have ho := hr.orderInv
  have hold := hr.holds
  cases h with
  | ready hpc hne hl' => exact ⟨ne, he, hl.getReadyJobs ho.wf ho.rowIds hl'⟩
  | sleep hpc he' hp | stop hpc he' hp =>
    exact ⟨ne, he, hl.getReadyJobs ho.wf ho.rowIds (l := []) (by rw [he'])⟩
  | @execute j rest db' b hpc hw =>
    rw [hpc] at hl hold
    exact ⟨ne ++ [j.jobId], by simp only [afterExecute, he, List.append_assoc], hl.take hold⟩
  | markCompleted hpc => rw [hpc] at hl; exact ⟨ne, he, hl.markCompleted ho.wf _⟩
  | next hpc | restart hpc => exact ⟨ne, he, hl.drop (List.nil_sublist _)⟩

theorem OnceInv.run {e₀ : List Int} {σ σ' : Single} (h : Run σ σ') (hr : σ.Reachable)
    (hσ : σ.OnceInv e₀) : σ'.OnceInv e₀ := by
  induction h with
  | refl => exact hσ
  | step hrun hs ih => exact ih.step (hrun.reachable hr) hs

end Single

namespace Multi

theorem jobs_of_reaping {σ : Multi} (hpc : σ.pc = .reaping ∨ σ.pc = .draining) :
    σ.pc.jobs = [] := by
  rcases hpc with h | h <;> simp [h, MultiPc.jobs]

/-- In every reachable state the parent holds its jobs in progress, none twice. -/
theorem Reachable.holds {σ : Multi} (h : σ.Reachable) : σ.sched.Holds σ.pc.jobs := by
  induction h with
  | init => exact Scheduler.Holds.nil _
  | step hr hs ih =>
    have hσ := hr.orderInv
    cases hs with
    | reap okF okC hpc hc hx =>
      rw [hσ.bound.afterReap_eq hc]
      exact (jobs_of_reaping hpc) ▸ Scheduler.Holds.nil _
    | ready hpc hne hl => exact Scheduler.Holds.getReadyJobs hσ.wf hσ.rowIds hl
    | fork okR pid hpc h hs hpid =>
      rw [hpc] at ih
      cases pid <;> exact ih.sublist (List.sublist_cons_self _ _)
    | child hc hstep => exact ih
    | _ => exact Scheduler.Holds.nil _
  | api c _ ih => exact ih.apply c _

/-- A run begun when `f₀` had been forked: the jobs it has forked since are accounted for by
the scheduler. -/
def OnceInv (f₀ : List Int) (σ : Multi) : Prop :=
  ∃ nf, σ.forked = f₀ ++ nf ∧ σ.sched.RunLedger σ.pc.jobs nf

theorem OnceInv.step {f₀ : List Int} {σ σ' : Multi} (hr : σ.Reachable) (hσ : σ.OnceInv f₀)
    (h : Step σ σ') : σ'.OnceInv f₀ := by
  obtain ⟨nf, hf, hl⟩ := hσ
  have ho := hr.orderInv
  have hold := hr.holds
  cases h with
  | reap okF okC hpc hc hx =>
    rw [ho.bound.afterReap_eq hc]
    exact ⟨nf, hf, hl.markCompleted ho.wf _⟩
  | ready hpc hne hl' => exact ⟨nf, hf, hl.getReadyJobs ho.wf ho.rowIds hl'⟩
  | sleep hpc he hp | finish hpc he hp =>
    exact ⟨nf, hf, hl.getReadyJobs ho.wf ho.rowIds (l := []) (by rw [he])⟩
  | @fork j rest okR pid hpc h hs hpid =>
    rw [hpc] at hl hold
    cases pid with
    | none => exact ⟨nf, hf, hl.drop (List.sublist_cons_self _ _)⟩
    | some p =>
      exact ⟨nf ++ [j.jobId], by simp only [afterFork, hf, List.append_assoc], hl.take hold⟩
  | child hc hstep => exact ⟨nf, hf, hl⟩
  | _ => exact ⟨nf, hf, hl.drop (List.nil_sublist _)⟩

theorem OnceInv.run {f₀ : List Int} {σ σ' : Multi} (h : Run σ σ') (hr : σ.Reachable)
    (hσ : σ.OnceInv f₀) : σ'.OnceInv f₀ := by
  induction h with
  | refl => exact hσ
  | step hrun hs ih => exact ih.step (hrun.reachable hr) hs

end Multi

/-- In every run of `run_single_threaded`, and in every interleaving of `run_multi_process`
with its children's steps and exits, begun in any reachable state (after any calls and any
earlier runs on the same orchestrator), the jobs the run passes to `execute` (single process)
or forks a worker for (multi-process) are distinct. -/
theorem at_most_once :
    (∀ σ₀ σ : Single, σ₀.Reachable → Single.Run σ₀ σ →
      ∃ ids, σ.executed = σ₀.executed ++ ids ∧ ids.Nodup) ∧
    (∀ σ₀ σ : Multi, σ₀.Reachable → Multi.Run σ₀ σ →
      ∃ ids, σ.forked = σ₀.forked ++ ids ∧ ids.Nodup) := by
  refine ⟨fun σ₀ σ h0 hr => ?_, fun σ₀ σ h0 hr => ?_⟩
  · obtain ⟨ne, he, hl⟩ := Single.OnceInv.run hr h0 ⟨[], (List.append_nil _).symm, .start _ _⟩
    exact ⟨ne, he, hl.nodup⟩
  · obtain ⟨nf, hf, hl⟩ := Multi.OnceInv.run hr h0 ⟨[], (List.append_nil _).symm, .start _ _⟩
    exact ⟨nf, hf, hl.nodup⟩

/-- Two runs of `run_single_threaded` on one orchestrator, as `TerminalUI::do_backup` makes
them: jobs `1` and `2` are executed and the loop stops; jobs `3` and `4` are submitted, and the
next run executes them. In `run_multi_process`, workers are forked for jobs `1` and `2`. -/
theorem at_most_once_second_run :
    (∃ σ₀ σ : Single, σ₀.Reachable ∧ Single.Run σ₀ σ ∧ σ₀.pc = .stopped ∧
      σ₀.executed = [1, 2] ∧ σ.executed = [1, 2, 3, 4] ∧
      ∃ ids, σ.executed = σ₀.executed ++ ids ∧ ids.Nodup) ∧
    (∃ σ₀ σ : Multi, σ₀.Reachable ∧ Multi.Run σ₀ σ ∧ σ.forked = [1, 2] ∧
      ∃ ids, σ.forked = σ₀.forked ++ ids ∧ ids.Nodup) := by
  let job (n : Nat) : BackupJob := { sourcePath := "/data", backupName := toString n }
  refine ⟨?_, ?_⟩
  · have r := (Single.Reachable.init.api (.submitJob (job 1) 0 true)).api (.submitJob (job 2) 0 true)
    have r := r.step (.ready (l := [{ job 1 with jobId := 1 }, { job 2 with jobId := 2 }]) rfl
      (by decide) (by decide))
    have r := r.step (.execute rfl (workerRun_workerWrites _ _ true true true true 0 0 0 0 0))
    have r := r.step (.markCompleted rfl)
    have r := r.step (.execute rfl (workerRun_workerWrites _ _ true true true true 0 0 0 0 0))
    have r := (r.step (.markCompleted rfl)).step (.next rfl)
    have r := r.step (.stop rfl (by decide) (by decide))
    have r := (r.api (.submitJob (job 3) 0 true)).api (.submitJob (job 4) 0 true)
    have h := (fun {σ} (_ : Single.Reachable σ) => Single.Run.refl σ) r
    have h := h.step (.restart rfl)
    have h := h.step (.ready (l := [{ job 3 with jobId := 3 }, { job 4 with jobId := 4 }]) rfl
      (by decide) (by decide))
    have h := h.step (.execute rfl (workerRun_workerWrites _ _ true true true true 0 0 0 0 0))
    have h := h.step (.markCompleted rfl)
    have h := h.step (.execute rfl (workerRun_workerWrites _ _ true true true true 0 0 0 0 0))
    exact ⟨_, _, r, h, rfl, rfl, rfl, at_most_once.1 _ _ r h⟩
  · have r := (Multi.Reachable.init.api (.submitJob (job 1) 0 true)).api (.submitJob (job 2) 0 true)
    have h := (fun {σ} (_ : Multi.Reachable σ) => Multi.Run.refl σ) r
    have h := h.step (.reapDone rfl (by decide))
    have h := h.step (.ready (l := [{ job 1 with jobId := 1 }, { job 2 with jobId := 2 }]) rfl
      (by decide) (by decide))
    have h := h.step (.fork true (some 101) rfl (by decide) (by decide) (by simp; decide))
    have h := h.step (.fork true (some 102) rfl (by decide) (by decide) (by simp; decide))
    exact ⟨_, _, r, h, rfl, at_most_once.2 _ _ r h⟩

end FileBackup
