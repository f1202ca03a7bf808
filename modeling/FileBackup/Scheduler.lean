import FileBackup.Dag
import FileBackup.Database

/-!
# The job scheduler (`scheduler/job_scheduler.h`)

`JobScheduler` holds a priority queue of entries, the dependency graph and the set of jobs
handed out (`in_progress_`); job statuses live in the metadata store. Every operation runs
under the scheduler's mutex, so each is one atomic step on `(Scheduler, Db)`.

* `submitJob`, `addDependency` (through `addDependencyInternal`), `getReadyJobs`,
  `markCompleted`, `markFailed`;
* the priority queue is kept as the list of its entries: the loops never read it, and its
  heap order is the subject of `PriorityQueue` itself.

A database write inside an operation takes its own `ok` flag (`markFailed` takes one for the
job and one per dependent).
-/

namespace FileBackup

/-- `JobScheduler::JobEntry`. -/
structure JobEntry where
  jobId : Int
  priority : JobPriority
  createdAt : Nat
  deriving DecidableEq, Repr

/-- `JobScheduler`: `pq_`, `dep_graph_` and `in_progress_`. -/
structure Scheduler where
  pq : List JobEntry
  depGraph : Dag
  inProgress : List Int

namespace Scheduler

/-- A scheduler with nothing submitted. -/
def init : Scheduler := ⟨[], Dag.empty, []⟩

/-- `add_dependency_internal(job_id, depends_on)`: the edge `depends_on → job_id`. The graph
keeps the nodes `add_edge` added even when it refuses the edge. -/
def addDependencyInternal (s : Scheduler) (jobId dependsOn : Int) : Bool × Scheduler :=
  let r := s.depGraph.addEdge dependsOn jobId
  (r.1, { s with depGraph := r.2 })

/-- `add_dependency(job_id, depends_on)`. -/
def addDependency (s : Scheduler) (jobId dependsOn : Int) : Bool × Scheduler :=
  s.addDependencyInternal jobId dependsOn

/-- The dependency loop of `submit_job`; the results are ignored. -/
def addDependencies (s : Scheduler) (jobId : Int) : List Int → Scheduler
  | [] => s
  | dep :: deps => ((s.addDependencyInternal jobId dep).2).addDependencies jobId deps

/-- `submit_job(job)`: insert the row (clock `now`), push the entry, add the node and the
job's dependencies. `-1` when the insert fails. -/
def submitJob (s : Scheduler) (db : Db) (job : BackupJob) (now : Nat) (ok : Bool) :
    Int × Scheduler × Db :=
  let r := db.createJob job now ok
  if r.1 < 0 then (-1, s, r.2)
  else
    let s' : Scheduler :=
      ⟨s.pq ++ [⟨r.1, job.priority, now⟩], s.depGraph.addNode r.1, s.inProgress⟩
    (r.1, s'.addDependencies r.1 job.dependencies, r.2)

/-- `submit_job` writes only the row `create_job` inserts. -/
@[simp] theorem submitJob_db (s : Scheduler) (db : Db) (job : BackupJob) (now : Nat) (ok : Bool) :
    (s.submitJob db job now ok).2.2 = (db.createJob job now ok).2 := by
  simp only [submitJob]; split <;> rfl

/-- The loop of `get_ready_jobs` over `get_ready_nodes`: keep a node whose row is `PENDING`
and that is not in progress, and mark it in progress. -/
def collectReady (db : Db) : List Int → List BackupJob × List Int → List BackupJob × List Int
  | [], acc => acc
  | id :: ids, (ready, inProgress) =>
    match db.getJob id with
    | some job =>
      if job.status = .pending ∧ id ∉ inProgress then
        collectReady db ids (ready ++ [job], inProgress ++ [id])
      else collectReady db ids (ready, inProgress)
    | none => collectReady db ids (ready, inProgress)

/-- The comparator of `get_ready_jobs`: higher priority first, then older first. -/
def readyBefore (a b : BackupJob) : Prop :=
  if a.priority ≠ b.priority then a.priority.toNat > b.priority.toNat
  else a.createdAt < b.createdAt

instance : DecidableRel readyBefore := fun a b => by unfold readyBefore; infer_instance

/-- `get_ready_jobs()`: the ready jobs, sorted, now marked in progress. `std::sort` leaves
the order of equivalent jobs open; an insertion sort is one such order. -/
def getReadyJobs (s : Scheduler) (db : Db) : List BackupJob × Scheduler :=
  let r := collectReady db s.depGraph.getReadyNodes ([], s.inProgress)
  (r.1.insertionSort readyBefore, { s with inProgress := r.2 })

/-- `mark_completed(job_id)`. -/
def markCompleted (s : Scheduler) (id : Int) : Scheduler :=
  ⟨s.pq.eraseP (·.jobId = id), s.depGraph.removeNode id, s.inProgress.erase id⟩

/-- The cancelling loop of `mark_failed`: `ok d` is the outcome of the write to `d`. -/
def cancelDependents (id : Int) (ok : Int → Bool) : List Int → Db → Db
  | [], db => db
  | d :: ds, db => cancelDependents id ok ds
    (db.updateJobStatus d .cancelled ("Dependency job " ++ toString id ++ " failed") (ok d)).2

/-- `mark_failed(job_id)`: the job's row to `FAILED`, its direct dependents' rows to
`CANCELLED`, then as `mark_completed`. -/
def markFailed (s : Scheduler) (db : Db) (id : Int) (okFailed : Bool) (okCancel : Int → Bool) :
    Scheduler × Db :=
  let db := (db.updateJobStatus id .failed "Worker process failed" okFailed).2
  let db := cancelDependents id okCancel (s.depGraph.getDependents id) db
  (⟨s.pq.eraseP (·.jobId = id), s.depGraph.removeNode id, s.inProgress.erase id⟩, db)

/-! ### What each operation does -/

/-- `collect_ready` appends, for a sublist of the nodes, the `PENDING` rows not in progress, and
marks their ids in progress. -/
theorem collectReady_spec (db : Db) (ids : List Int) (r : List BackupJob) (p : List Int) :
    ∃ L : List (Int × BackupJob),
      collectReady db ids (r, p) = (r ++ L.map Prod.snd, p ++ L.map Prod.fst) ∧
      (L.map Prod.fst).Sublist ids ∧
      ∀ x ∈ L, db.getJob x.1 = some x.2 ∧ x.2.status = .pending ∧ x.1 ∉ p := by
  induction ids generalizing r p with
  | nil => exact ⟨[], by simp [collectReady]⟩
  | cons id ids ih =>
    simp only [collectReady]
    split
    · rename_i job hjob
      split
      · rename_i hc
        obtain ⟨L, hL, hsub, hx⟩ := ih (r ++ [job]) (p ++ [id])
        refine ⟨(id, job) :: L, by simp [hL], hsub.cons₂ id, ?_⟩
        intro x hxm
        rcases List.mem_cons.1 hxm with rfl | hxL
        · exact ⟨hjob, hc.1, hc.2⟩
        · obtain ⟨h1, h2, h3⟩ := hx x hxL
          exact ⟨h1, h2, fun h => h3 (List.mem_append_left _ h)⟩
      · obtain ⟨L, hL, hsub, hx⟩ := ih r p
        exact ⟨L, hL, hsub.cons id, hx⟩
    · obtain ⟨L, hL, hsub, hx⟩ := ih r p
      exact ⟨L, hL, hsub.cons id, hx⟩

/-- `get_ready_jobs` returns, in some order, the `PENDING` rows of a sublist of the ready nodes
that were not in progress, and marks exactly their ids in progress. -/
theorem getReadyJobs_spec (s : Scheduler) (db : Db) :
    ∃ L : List (Int × BackupJob),
      (s.getReadyJobs db).1.Perm (L.map Prod.snd) ∧
      (s.getReadyJobs db).2 = { s with inProgress := s.inProgress ++ L.map Prod.fst } ∧
      (L.map Prod.fst).Sublist s.depGraph.getReadyNodes ∧
      ∀ x ∈ L, db.getJob x.1 = some x.2 ∧ x.2.status = .pending ∧ x.1 ∉ s.inProgress := by
  obtain ⟨L, hL, hsub, hx⟩ := collectReady_spec db s.depGraph.getReadyNodes [] s.inProgress
  refine ⟨L, ?_, ?_, hsub, hx⟩
  · simpa [getReadyJobs, hL] using List.perm_insertionSort readyBefore (L.map Prod.snd)
  · simp [getReadyJobs, hL]

/-- A job `get_ready_jobs` returns is the `PENDING` row of a ready node not in progress. -/
theorem mem_getReadyJobs {s : Scheduler} {db : Db} (hrow : db.RowIds) {J : BackupJob}
    (hJ : J ∈ (s.getReadyJobs db).1) :
    J.jobId ∈ s.depGraph.getReadyNodes ∧ db.getJob J.jobId = some J ∧
      J.status = .pending ∧ J.jobId ∉ s.inProgress := by
  obtain ⟨L, hperm, -, hsub, hx⟩ := s.getReadyJobs_spec db
  obtain ⟨x, hxL, rfl⟩ := List.mem_map.1 (hperm.mem_iff.1 hJ)
  obtain ⟨hget, hpend, hnot⟩ := hx x hxL
  have hid : x.2.jobId = x.1 := hrow _ _ hget
  rw [hid]
  exact ⟨hsub.subset (List.mem_map_of_mem _ hxL), hget, hpend, hnot⟩

/-- The ids `get_ready_jobs` marks in progress are those of the jobs it returns. -/
theorem getReadyJobs_inProgress {s : Scheduler} {db : Db} (hrow : db.RowIds) :
    ∃ ids : List Int, ids.Perm ((s.getReadyJobs db).1.map (·.jobId)) ∧
      (s.getReadyJobs db).2 = { s with inProgress := s.inProgress ++ ids } := by
  obtain ⟨L, hperm, h2, -, hx⟩ := s.getReadyJobs_spec db
  refine ⟨L.map Prod.fst, ?_, h2⟩
  have : L.map Prod.fst = (L.map Prod.snd).map (·.jobId) := by
    rw [List.map_map]; exact List.map_congr_left fun x hxL => (hrow _ _ (hx x hxL).1).symm
  rw [this]; exact (hperm.map _).symm

@[simp] theorem getReadyJobs_depGraph (s : Scheduler) (db : Db) :
    (s.getReadyJobs db).2.depGraph = s.depGraph := rfl

@[simp] theorem markCompleted_depGraph (s : Scheduler) (id : Int) :
    (s.markCompleted id).depGraph = s.depGraph.removeNode id := rfl

@[simp] theorem markCompleted_inProgress (s : Scheduler) (id : Int) :
    (s.markCompleted id).inProgress = s.inProgress.erase id := rfl

/-- `mark_failed` changes the scheduler exactly as `mark_completed` does. -/
@[simp] theorem markFailed_fst (s : Scheduler) (db : Db) (id : Int) (okF : Bool)
    (okC : Int → Bool) : (s.markFailed db id okF okC).1 = s.markCompleted id := rfl

@[simp] theorem setStatus_cancelled (job : BackupJob) (e : String) :
    Db.setStatus job .cancelled e = { job with status := .cancelled } := rfl

/-- The loop of `mark_failed` sets each named dependent whose write succeeds to `CANCELLED`,
whatever its status was, and changes no other row. -/
theorem cancelDependents_jobs (id : Int) (ok : Int → Bool) (ds : List Int) (db : Db) (i : Int) :
    (cancelDependents id ok ds db).jobs i =
      if i ∈ ds ∧ ok i then (db.jobs i).map ({ · with status := .cancelled }) else db.jobs i := by
  induction ds generalizing db with
  | nil => simp [cancelDependents]
  | cons d ds ih =>
    rw [cancelDependents, ih, Db.updateJobStatus_jobs]
    by_cases hid : i = d
    · subst hid; cases h : (db.jobs i) <;> by_cases hok : ok i <;> simp [h, hok]
    · simp [hid]

/-- `mark_failed(id)` sets its direct dependents to `CANCELLED` and leaves every other job but
`id` as it was. -/
theorem markFailed_status (s : Scheduler) (db : Db) (id : Int) (okF : Bool) (okC : Int → Bool)
    {i : Int} (hi : i ≠ id) : (s.markFailed db id okF okC).2.status i =
      if i ∈ s.depGraph.getDependents id ∧ okC i then (db.status i).map fun _ => .cancelled
      else db.status i := by
  simp only [markFailed, Db.status, cancelDependents_jobs, Db.updateJobStatus_jobs, hi,
    and_false, ↓reduceIte]
  split <;> simp [Option.map_map, Function.comp_def]

theorem rowIds_cancelDependents {db : Db} (h : db.RowIds) (id : Int) (ok : Int → Bool)
    (ds : List Int) : (cancelDependents id ok ds db).RowIds := by
  induction ds generalizing db with
  | nil => exact h
  | cons d ds ih => exact ih (h.updateJobStatus _ _ _ _)

theorem rowIds_markFailed {db : Db} (h : db.RowIds) (s : Scheduler) (id : Int) (okF : Bool)
    (okC : Int → Bool) : (s.markFailed db id okF okC).2.RowIds :=
  rowIds_cancelDependents (h.updateJobStatus _ _ _ _) _ _ _

end Scheduler

end FileBackup
