import FileBackup.Cascade

/-!
# Stranded jobs

`add_edge` increments `in_degree_[to]` on every accepted call, also when the edge is already
there (`adj_[from]` is a set), while `remove_node` lowers it once per edge
(`Dag.Wf.surplus_addEdge_of_edge`, `Dag.Wf.surplus_removeNode`). A job submitted with a
dependency listed twice so keeps an in-degree above its edges after its prerequisite is
removed: it is never ready, its row stays `PENDING`, and `run_single_threaded`, which stops only
when no row is `PENDING`, sleeps forever.

* `Single.Stranded`: a `PENDING` job whose in-degree is above its edges and that the loop does
  not hold;
* `Single.Stranded.run`: every run keeps it, so the job is never executed and the loop never
  stops;
* `stranded_pending_job`: a `PENDING` job that `get_ready_jobs` never returns while no worker
  is active, in each loop: from a duplicate dependency in `run_single_threaded`, and from the
  cancelled middle of a failed chain (`Multi.failed_chain`) in `run_multi_process`.
-/

namespace FileBackup

namespace Single

/-- Job `v` is stranded: its node's in-degree is above its edges, its row is `PENDING`, and the
loop, which has not stopped, neither holds nor has executed it. -/
structure Stranded (v : Int) (σ : Single) : Prop where
  held : σ.HeldInv
  node : v ∈ σ.sched.depGraph.nodes
  surplus_pos : 0 < σ.sched.depGraph.surplus v
  pending : σ.db.status v = some .pending
  not_held : ∀ j ∈ σ.pc.jobs, j.jobId ≠ v
  not_executed : v ∉ σ.executed
  running : σ.pc ≠ .stopped

/-- A step that keeps the graph, the job's status and the executed jobs keeps the job stranded
if the loop does not take it up. -/
theorem Stranded.frame {v : Int} {σ σ' : Single} (hσ : σ.Stranded v) (hheld : σ'.HeldInv)
    (hg : σ'.sched.depGraph = σ.sched.depGraph) (hdb : σ'.db.status v = σ.db.status v)
    (hex : σ'.executed = σ.executed) (hpc : ∀ j ∈ σ'.pc.jobs, j.jobId ≠ v)
    (hrun : σ'.pc ≠ .stopped) : σ'.Stranded v :=
  ⟨hheld, hg ▸ hσ.node, hg ▸ hσ.surplus_pos, hdb ▸ hσ.pending, hpc, hex ▸ hσ.not_executed, hrun⟩

theorem Stranded.step {v : Int} {σ σ' : Single} (hσ : σ.Stranded v) (h : Step σ σ') :
    σ'.Stranded v := by
  have hheld := hσ.held.step h
  cases h with
  | @ready l hpc hne hl =>
    refine hσ.frame hheld rfl rfl rfl (fun j hj e => ?_) (by simp [afterReady])
    obtain ⟨hr, -⟩ := Scheduler.mem_getReadyJobs hσ.held.rowIds (hl.subset hj)
    exact Dag.not_mem_getReadyNodes_of_surplus hσ.surplus_pos (e ▸ hr)
  | sleep hpc he hp =>
    exact hσ.frame hheld rfl rfl rfl (by simp [afterEmpty, SinglePc.jobs]) (by simp [afterEmpty])
  | stop hpc he hp =>
    obtain ⟨J, hJ, hs⟩ := Option.map_eq_some'.1 hσ.pending
    have := hσ.held.idsBelow.mem_getJobsByStatus hJ
    rw [hs, hp] at this
    cases this
  | @execute j rest db' b hpc hw =>
    have hjv : j.jobId ≠ v := hσ.not_held j (by simp [hpc, SinglePc.jobs])
    refine ⟨hheld, hσ.node, hσ.surplus_pos, (hw.status_of_ne hjv.symm).trans hσ.pending,
      fun k hk => hσ.not_held k (by simpa [afterExecute, SinglePc.jobs, hpc] using hk),
      fun hv => ?_, by simp [afterExecute]⟩
    rcases List.mem_append.1 hv with hv | hv
    · exact hσ.not_executed hv
    · exact hjv (List.mem_singleton.1 hv).symm
  | @markCompleted j rest hpc =>
    have hjv : j.jobId ≠ v := hσ.not_held j (by simp [hpc, SinglePc.jobs])
    refine ⟨hheld, hσ.held.wf.mem_removeNode.2 ⟨hjv.symm, hσ.node⟩,
      (hσ.held.wf.surplus_removeNode hjv.symm).symm ▸ hσ.surplus_pos, hσ.pending,
      fun k hk => hσ.not_held k (by simp_all [afterMark, SinglePc.jobs]), hσ.not_executed,
      by simp [afterMark]⟩
  | next hpc => exact hσ.frame hheld rfl rfl rfl (by simp [SinglePc.jobs]) (by simp)
  | restart hpc => exact absurd hpc hσ.running

/-- A stranded job stays stranded through every run: it is never executed, its row stays
`PENDING`, and the loop never stops. -/
theorem Stranded.run {v : Int} {σ σ' : Single} (h : Run σ σ') (hσ : σ.Stranded v) :
    σ'.Stranded v := by
  induction h with
  | refl => exact hσ
  | step _ hs ih => exact ih.step hs

end Single

/-- Some job is `PENDING` while no worker is active, and `get_ready_jobs` returns nothing. In
`run_single_threaded`, job `2` lists job `1` twice; after job `1` runs, job `2` keeps an
in-degree of one with no edge, and no continuation of the run executes it or stops. In
`run_multi_process`, job `3` waits on the cancelled job `2` of a failed chain. -/
theorem stranded_pending_job :
    (∃ σ₀ σ : Single, σ₀.Setup ∧ Single.Run σ₀ σ ∧ σ.pc = .top ∧
      σ.db.getJobsByStatus .pending ≠ [] ∧ (σ.sched.getReadyJobs σ.db).1 = [] ∧
      ∀ σ', Single.Run σ σ' → σ'.pc ≠ .stopped ∧ 2 ∉ σ'.executed) ∧
    (∃ σ : Multi, σ.Reachable ∧ σ.pc = .top ∧ σ.active = [] ∧
      σ.db.getJobsByStatus .pending ≠ [] ∧ (σ.sched.getReadyJobs σ.db).1 = []) := by
  refine ⟨?_, ?_⟩
  · let σ₀ := (Single.init.afterApi (.submitJob { sourcePath := "/a", backupName := "j1" } 0 true)).afterApi
      (.submitJob { sourcePath := "/b", backupName := "j2", dependencies := [1, 1] } 0 true)
    have h0 : σ₀.Setup := .api _ (.api _ .init)
    have r := (Single.Run.refl σ₀).step
      (.ready (l := [{ sourcePath := "/a", backupName := "j1", jobId := 1 }]) rfl (by decide)
        (by decide))
    have r := r.step (.execute rfl (workerRun_workerWrites _ _ true true true true 0 0 0 0 0))
    have r := (r.step (.markCompleted rfl)).step (.next rfl)
    have hs : Single.Stranded 2 _ := ⟨(r.reachable h0.reachable).heldInv, by decide, by decide,
      by decide, by decide, by decide, by decide⟩
    exact ⟨_, _, h0, r, rfl, by decide, by decide,
      fun σ' hr => ⟨(hs.run hr).running, (hs.run hr).not_executed⟩⟩
  · obtain ⟨σ, h, hpc, hact, -, -, -, -, -, hp, hr⟩ := Multi.failed_chain
    exact ⟨σ, h, hpc, hact, hp, hr⟩

end FileBackup
