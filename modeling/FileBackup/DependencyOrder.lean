import FileBackup.WorkerBound
import FileBackup.Orchestrator.Single

/-!
# Dependency order

`get_ready_jobs` hands out only nodes with in-degree `0`, and the graph's in-degree bounds its
edges from above (`Dag.Wf`), so a job handed out has no incoming edge. An accepted dependency
`J` on `P` is an edge `P → J`; it leaves the graph only when `P` or `J` is removed, and the loops
remove a job only in `mark_completed`/`mark_failed` once its worker has finished. So in both
loops, under any interleaving with outside `submit_job`/`add_dependency` calls, every
dependency accepted before `J` is first handed out belongs to a prerequisite already finished.

`OrderInv` is that argument as an invariant of each loop: every recorded edge into a job not
yet handed out is still in the graph, or its source has finished.
-/

namespace FileBackup

namespace Single

/-- The invariant behind the dependency order of `run_single_threaded`. -/
structure OrderInv (σ : Single) : Prop where
  wf : σ.sched.depGraph.Wf
  rowIds : σ.db.RowIds
  seen_edge : ∀ P J, (P, J) ∈ σ.seen → J ∉ σ.handed →
    σ.sched.depGraph.Edge P J ∨ P ∈ σ.finished
  finished_executed : ∀ P ∈ σ.finished, P ∈ σ.executed
  held_handed : ∀ j ∈ σ.pc.jobs, j.jobId ∈ σ.handed
  mark_executed : ∀ j l, σ.pc = .mark j l → j.jobId ∈ σ.executed

theorem orderInv_init : init.OrderInv :=
  ⟨Dag.wf_empty, Db.rowIds_empty, by simp [init], by simp [init], by simp [init, SinglePc.jobs],
    by simp [init]⟩

theorem OrderInv.step {σ σ' : Single} (hσ : σ.OrderInv) (h : Step σ σ') : σ'.OrderInv := by
  cases h with
  | ready hpc hne hl =>
    refine ⟨hσ.wf, hσ.rowIds, fun P J hPJ hJ => ?_, hσ.finished_executed, fun j hj => ?_,
      by simp [afterReady]⟩
    · exact hσ.seen_edge P J hPJ fun h => hJ (List.mem_append_left _ h)
    · exact List.mem_append_right _ (List.mem_map_of_mem _ hj)
  | sleep hpc he hp | stop hpc he hp => exact ⟨hσ.wf, hσ.rowIds, hσ.seen_edge,
      hσ.finished_executed, by simp [afterEmpty, SinglePc.jobs], by simp [afterEmpty]⟩
  | @execute j rest db' b hpc hw =>
    refine ⟨hσ.wf, hw.rowIds hσ.rowIds, hσ.seen_edge,
      fun P hP => List.mem_append_left _ (hσ.finished_executed P hP), fun k hk => ?_,
      by simp [afterExecute]⟩
    exact hσ.held_handed k (by simpa [afterExecute, SinglePc.jobs, hpc] using hk)
  | @markCompleted j rest hpc =>
    have hj : j.jobId ∈ σ.handed := hσ.held_handed j (by simp [hpc, SinglePc.jobs])
    refine ⟨hσ.wf.removeNode _, hσ.rowIds, fun P J hPJ hJ => ?_, fun P hP => ?_,
      fun k hk => hσ.held_handed k (by simp_all [afterMark, SinglePc.jobs]), by simp [afterMark]⟩
    · simp only [afterMark, Scheduler.markCompleted_depGraph, hσ.wf.edge_removeNode,
        List.mem_append, List.mem_singleton]
      rcases hσ.seen_edge P J hPJ hJ with he | hf
      · by_cases hP : P = j.jobId
        · exact Or.inr (Or.inr hP)
        · exact Or.inl ⟨he, hP, fun e => hJ (e ▸ hj)⟩
      · exact Or.inr (Or.inl hf)
    · rcases List.mem_append.1 hP with hP | hP
      · exact hσ.finished_executed P hP
      · rw [List.mem_singleton.1 hP]; exact hσ.mark_executed j rest hpc
  | next hpc | restart hpc => exact ⟨hσ.wf, hσ.rowIds, hσ.seen_edge, hσ.finished_executed,
      by simp [SinglePc.jobs], by simp⟩

theorem OrderInv.afterApi {σ : Single} (hσ : σ.OrderInv) (c : ApiCall) : (σ.afterApi c).OrderInv := by
  refine ⟨c.apply_wf hσ.wf _, c.apply_rowIds _ hσ.rowIds, fun P J hPJ hJ => ?_,
    hσ.finished_executed, hσ.held_handed, hσ.mark_executed⟩
  rcases List.mem_append.1 hPJ with hPJ | hPJ
  · exact (hσ.seen_edge P J hPJ hJ).imp (fun he => c.apply_edge he _) id
  · exact Or.inl (Dag.mem_edges.1 hPJ)

theorem Reachable.orderInv {σ : Single} (h : σ.Reachable) : σ.OrderInv := by
  induction h with
  | init => exact orderInv_init
  | step _ hs ih => exact ih.step hs
  | api c _ ih => exact ih.afterApi c

end Single

namespace Multi

theorem ChildStep.rowIds {id : Int} {pc pc' : ChildPc} {db db' : Db}
    (h : ChildStep id pc pc' db db') (hrow : db.RowIds) : db'.RowIds := by
  cases h with
  | running ok => exact hrow.updateJobStatus _ _ _ _
  | failed ok => exact hrow.updateJobStatus _ _ _ _
  | stats ok t p st d f => exact hrow.updateJobStats _ _ _ _ _ _ _
  | completed ok => exact hrow.updateJobStatus _ _ _ _
  | _ => exact hrow

theorem afterChild_jobIds (σ : Multi) (c : Child) (pc : ChildPc) (db : Db) :
    (σ.afterChild c pc db).children.map Child.jobId = σ.children.map Child.jobId := by
  simp only [afterChild, List.map_map]
  exact List.map_congr_left fun d _ => by simp only [Function.comp_apply]; split <;> simp_all

/-- The invariant behind the dependency order of `run_multi_process`. -/
structure OrderInv (σ : Multi) : Prop where
  wf : σ.sched.depGraph.Wf
  rowIds : σ.db.RowIds
  bound : σ.BoundInv
  seen_edge : ∀ P J, (P, J) ∈ σ.seen → J ∉ σ.handed →
    σ.sched.depGraph.Edge P J ∨ P ∈ σ.finished
  held_handed : ∀ j ∈ σ.pc.jobs, j.jobId ∈ σ.handed
  children_handed : ∀ c ∈ σ.children, c.jobId ∈ σ.handed
  children_forked : ∀ c ∈ σ.children, c.jobId ∈ σ.forked
  finished_forked : ∀ P ∈ σ.finished, P ∈ σ.forked

theorem orderInv_init : init.OrderInv :=
  ⟨Dag.wf_empty, Db.rowIds_empty, boundInv_init, by simp [init], by simp [init, MultiPc.jobs],
    by simp [init], by simp [init], by simp [init]⟩

/-- A move of the parent that keeps the graph and leaves it holding no job keeps the
invariant. -/
theorem OrderInv.park {σ : Multi} (hσ : σ.OrderInv) {sched : Scheduler} {pc : MultiPc}
    (hg : sched.depGraph = σ.sched.depGraph) (hpc : pc.jobs = []) :
    { σ with sched, pc }.OrderInv :=
  ⟨hg ▸ hσ.wf, hσ.rowIds, ⟨hσ.bound.1, hσ.bound.2, hσ.bound.3⟩, fun P J => hg ▸ hσ.seen_edge P J,
    by simp [hpc], hσ.children_handed, hσ.children_forked, hσ.finished_forked⟩

theorem OrderInv.step {σ σ' : Multi} (hσ : σ.OrderInv) (h : Step σ σ') : σ'.OrderInv := by
  cases h with
  | @reap c ok okF okC hpc hc hx =>
    have hj := hσ.children_handed c hc
    have hb := hσ.bound.afterReap hc ok okF okC
    rw [hσ.bound.afterReap_eq hc] at hb ⊢
    refine ⟨hσ.wf.removeNode _, ?_, hb, fun P J hPJ hJ => ?_, hσ.held_handed,
      fun d hd => hσ.children_handed d (List.mem_of_mem_erase hd),
      fun d hd => hσ.children_forked d (List.mem_of_mem_erase hd), fun P hP => ?_⟩
    · split
      · exact hσ.rowIds
      · exact Scheduler.rowIds_markFailed hσ.rowIds _ _ _ _
    · simp only [Scheduler.markCompleted_depGraph, hσ.wf.edge_removeNode, List.mem_append,
        List.mem_singleton]
      rcases hσ.seen_edge P J hPJ hJ with he | hf
      · by_cases hP : P = c.jobId
        · exact Or.inr (Or.inr hP)
        · exact Or.inl ⟨he, hP, fun e => hJ (e ▸ hj)⟩
      · exact Or.inr (Or.inl hf)
    · rcases List.mem_append.1 hP with hP | hP
      · exact hσ.finished_forked P hP
      · rw [List.mem_singleton.1 hP]; exact hσ.children_forked c hc
  | reapDone hpc hx => exact hσ.park rfl rfl
  | ready hpc hne hl =>
    refine ⟨hσ.wf, hσ.rowIds, ⟨hσ.bound.1, hσ.bound.2, hσ.bound.3⟩, fun P J hPJ hJ => ?_,
      fun j hj => ?_, fun c hc => List.mem_append_left _ (hσ.children_handed c hc),
      hσ.children_forked, hσ.finished_forked⟩
    · exact hσ.seen_edge P J hPJ fun h => hJ (List.mem_append_left _ h)
    · exact List.mem_append_right _ (List.mem_map_of_mem _ hj)
  | sleep hpc he hp => exact hσ.park rfl rfl
  | finish hpc he hp => exact hσ.park rfl rfl
  | full hpc h => exact hσ.park rfl rfl
  | busy hpc h hs => exact hσ.park rfl rfl
  | @fork j rest okR pid hpc h hs hpid =>
    have hj : j.jobId ∈ σ.handed := hσ.held_handed j (by simp [hpc, MultiPc.jobs])
    have hrest : ∀ k ∈ rest, k.jobId ∈ σ.handed := fun k hk =>
      hσ.held_handed k (by simp [hpc, MultiPc.jobs, hk])
    have hbound := hσ.bound.afterFork j rest okR hs fun p hp => (hpid p hp).2
    cases pid with
    | none => exact ⟨hσ.wf, hσ.rowIds.updateJobStatus _ _ _ _, hbound, hσ.seen_edge,
        by simpa [afterFork, MultiPc.jobs] using hrest, hσ.children_handed, hσ.children_forked, hσ.finished_forked⟩
    | some p =>
      refine ⟨hσ.wf, hσ.rowIds.updateJobStatus _ _ _ _, hbound, hσ.seen_edge,
        by simpa [afterFork, MultiPc.jobs] using hrest, fun c hc => ?_, fun c hc => ?_,
        fun P hP => List.mem_append_left _ (hσ.finished_forked P hP)⟩
      · simp only [afterFork, List.mem_append, List.mem_singleton] at hc
        rcases hc with hc | rfl
        · exact hσ.children_handed c hc
        · exact hj
      · simp only [afterFork, List.mem_append, List.mem_singleton] at hc ⊢
        rcases hc with hc | rfl
        · exact Or.inl (hσ.children_forked c hc)
        · exact Or.inr rfl
  | dispatchDone hpc => exact hσ.park rfl rfl
  | drained hpc h => exact hσ.park rfl rfl
  | restart hpc => exact hσ.park rfl rfl
  | @child c pc db hc hstep =>
    have hmem : ∀ d ∈ (σ.afterChild c pc db).children, ∃ e ∈ σ.children, e.jobId = d.jobId :=
      fun d hd => by
        have : d.jobId ∈ (σ.afterChild c pc db).children.map Child.jobId :=
          List.mem_map_of_mem _ hd
        rw [afterChild_jobIds] at this
        exact List.mem_map.1 this
    refine ⟨hσ.wf, hstep.rowIds hσ.rowIds, hσ.bound.afterChild c pc db, hσ.seen_edge,
      hσ.held_handed, fun d hd => ?_, fun d hd => ?_, hσ.finished_forked⟩
    · obtain ⟨e, he, hed⟩ := hmem d hd; exact hed ▸ hσ.children_handed e he
    · obtain ⟨e, he, hed⟩ := hmem d hd; exact hed ▸ hσ.children_forked e he

theorem OrderInv.afterApi {σ : Multi} (hσ : σ.OrderInv) (c : ApiCall) : (σ.afterApi c).OrderInv := by
  refine ⟨c.apply_wf hσ.wf _, c.apply_rowIds _ hσ.rowIds, hσ.bound.afterApi c,
    fun P J hPJ hJ => ?_, hσ.held_handed, hσ.children_handed, hσ.children_forked, hσ.finished_forked⟩
  rcases List.mem_append.1 hPJ with hPJ | hPJ
  · exact (hσ.seen_edge P J hPJ hJ).imp (fun he => c.apply_edge he _) id
  · exact Or.inl (Dag.mem_edges.1 hPJ)

theorem Reachable.orderInv {σ : Multi} (h : σ.Reachable) : σ.OrderInv := by
  induction h with
  | init => exact orderInv_init
  | step _ hs ih => exact ih.step hs
  | api c _ ih => exact ih.afterApi c

end Multi

/-- In every reachable state of either loop, under any interleaving with outside calls, a job
that `get_ready_jobs` returns has no incoming edge; and when it is handed out for the first
time, every dependency it had accepted is on a job that was finished before: executed and
given to `mark_completed` (single process), or forked, reaped and given to `mark_completed` or
`mark_failed` (multi-process). -/
theorem dependency_order :
    (∀ σ : Single, σ.Reachable → ∀ J ∈ (σ.sched.getReadyJobs σ.db).1,
      (∀ P, ¬ σ.sched.depGraph.Edge P J.jobId) ∧
      (J.jobId ∉ σ.handed → ∀ P, (P, J.jobId) ∈ σ.seen → P ∈ σ.finished ∧ P ∈ σ.executed)) ∧
    (∀ σ : Multi, σ.Reachable → ∀ J ∈ (σ.sched.getReadyJobs σ.db).1,
      (∀ P, ¬ σ.sched.depGraph.Edge P J.jobId) ∧
      (J.jobId ∉ σ.handed → ∀ P, (P, J.jobId) ∈ σ.seen → P ∈ σ.finished ∧ P ∈ σ.forked)) := by
  refine ⟨fun σ h J hJ => ?_, fun σ h J hJ => ?_⟩
  · have hσ := h.orderInv
    have hr := (Scheduler.mem_getReadyJobs hσ.rowIds hJ).1
    have hne := fun P => Dag.not_edge_of_mem_getReadyNodes hσ.wf (u := P) hr
    refine ⟨hne, fun hJh P hP => ?_⟩
    have hf := (hσ.seen_edge P _ hP hJh).resolve_left (hne P)
    exact ⟨hf, hσ.finished_executed P hf⟩
  · have hσ := h.orderInv
    have hr := (Scheduler.mem_getReadyJobs hσ.rowIds hJ).1
    have hne := fun P => Dag.not_edge_of_mem_getReadyNodes hσ.wf (u := P) hr
    refine ⟨hne, fun hJh P hP => ?_⟩
    have hf := (hσ.seen_edge P _ hP hJh).resolve_left (hne P)
    exact ⟨hf, hσ.finished_forked P hf⟩

/-- Job `2` is submitted depending on job `1`; job `1` is handed out, executed and given to
`mark_completed`; the next `get_ready_jobs` returns job `2`, whose accepted dependency is on the
finished job `1`. -/
theorem dependency_order_after_parent :
    ∃ σ : Single, σ.Reachable ∧ (1, 2) ∈ σ.seen ∧ ∃ J ∈ (σ.sched.getReadyJobs σ.db).1,
      J.jobId = 2 ∧ (∀ P, ¬ σ.sched.depGraph.Edge P J.jobId) ∧
      (J.jobId ∉ σ.handed → ∀ P, (P, J.jobId) ∈ σ.seen → P ∈ σ.finished ∧ P ∈ σ.executed) := by
  let j₁ : BackupJob := { sourcePath := "/a", backupName := "j1" }
  let j₂ : BackupJob := { sourcePath := "/b", backupName := "j2", dependencies := [1] }
  have r := (Single.Reachable.init.api (.submitJob j₁ 0 true)).api (.submitJob j₂ 0 true)
  have r := r.step (.ready (l := [{ j₁ with jobId := 1 }]) rfl (by decide) (by decide))
  have r := r.step (.execute rfl (workerRun_workerWrites _ _ true true true true 0 0 0 0 0))
  have r := (r.step (.markCompleted rfl)).step (.next rfl)
  exact ⟨_, r, by decide, { sourcePath := "/b", backupName := "j2", jobId := 2 }, by decide, rfl,
    dependency_order.1 _ r _ (by decide)⟩

end FileBackup
