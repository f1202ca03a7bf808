import FileBackup.Scheduler

/-!
# What the orchestrator loops share

Both loops of `BackupOrchestrator` drive the same `JobScheduler` and run the same
`BackupWorker::execute`. This file fixes what the loops need of the two:

* `workerWrites` and `WorkerRun`: the writes `execute` makes to its own job's row (each of
  which may fail) and its `Result.success`; the chunk store's writes to the other tables are
  left open;
* `ApiCall`: a `submit_job` or `add_dependency` call made outside the loop, with the facts that
  it keeps the graph's invariant and its edges and never touches `in_progress_`;
* `Dag.edges`, the edge list the loops record as accepted dependencies.
-/

namespace FileBackup

/-! ### The worker's status writes -/

/-- The writes `BackupWorker::execute` makes to its own job's row: `RUNNING`; then `FAILED`
("Failed to create snapshot") when the snapshot is inconsistent, else the counters and
`COMPLETED`. `ok₁`, `ok₂`, `ok₃` are the outcomes of the writes. -/
def workerWrites (db : Db) (id : Int) (consistent ok₁ ok₂ ok₃ : Bool)
    (total processed stored dedup files : Nat) : Db :=
  let db := (db.updateJobStatus id .running "" ok₁).2
  if consistent then
    ((db.updateJobStats id total processed stored dedup files ok₂).2.updateJobStatus id
      .completed "" ok₃).2
  else (db.updateJobStatus id .failed "Failed to create snapshot" ok₂).2

/-- One `BackupWorker::execute` of job `id` as the scheduler sees it: its row changes as
`workerWrites` says, no job is created, and `success` (`Result.success`) is whether the
snapshot was consistent. -/
def WorkerRun (id : Int) (db db' : Db) (success : Bool) : Prop :=
  db'.nextJobId = db.nextJobId ∧
    ∃ ok₁ ok₂ ok₃ t p st d f, db'.jobs = (workerWrites db id success ok₁ ok₂ ok₃ t p st d f).jobs

/-- The writes `workerWrites` lists, with any outcomes, are a run of the worker. -/
theorem workerRun_workerWrites (db : Db) (id : Int) (b ok₁ ok₂ ok₃ : Bool) (t p st d f : Nat) :
    WorkerRun id db (workerWrites db id b ok₁ ok₂ ok₃ t p st d f) b :=
  ⟨by unfold workerWrites; split <;> simp, ok₁, ok₂, ok₃, t, p, st, d, f, rfl⟩

@[simp] theorem updateJobStats_jobs_of_ne (db : Db) {id i : Int} (h : i ≠ id)
    (t p st d f : Nat) (ok : Bool) : (db.updateJobStats id t p st d f ok).2.jobs i = db.jobs i := by
  unfold Db.updateJobStats Db.updateRow; split <;> simp [h]

@[simp] theorem updateJobStatus_jobs_of_ne (db : Db) {id i : Int} (h : i ≠ id)
    (s : JobStatus) (e : String) (ok : Bool) : (db.updateJobStatus id s e ok).2.jobs i = db.jobs i := by
  rw [Db.updateJobStatus_jobs]; simp [h]

/-- A worker writes no row but its own. -/
theorem WorkerRun.jobs_of_ne {id i : Int} {db db' : Db} {b : Bool} (h : WorkerRun id db db' b)
    (hi : i ≠ id) : db'.jobs i = db.jobs i := by
  obtain ⟨-, ok₁, ok₂, ok₃, t, p, st, d, f, h⟩ := h
  rw [h, workerWrites]; split <;> simp [hi]

theorem WorkerRun.rowIds {id : Int} {db db' : Db} {b : Bool} (h : WorkerRun id db db' b)
    (hrow : db.RowIds) : db'.RowIds := by
  obtain ⟨-, ok₁, ok₂, ok₃, t, p, st, d, f, h⟩ := h
  have : (workerWrites db id b ok₁ ok₂ ok₃ t p st d f).RowIds := by
    unfold workerWrites; split
    · exact ((hrow.updateJobStatus _ _ _ _).updateJobStats _ _ _ _ _ _ _).updateJobStatus _ _ _ _
    · exact (hrow.updateJobStatus _ _ _ _).updateJobStatus _ _ _ _
  intro i j hj; rw [h] at hj; exact this i j hj

theorem WorkerRun.idsBelow {id : Int} {db db' : Db} {b : Bool} (h : WorkerRun id db db' b)
    (hdb : db.IdsBelow) : db'.IdsBelow := by
  obtain ⟨hn, ok₁, ok₂, ok₃, t, p, st, d, f, h⟩ := h
  have : (workerWrites db id b ok₁ ok₂ ok₃ t p st d f).IdsBelow := by
    unfold workerWrites; split
    · exact ((hdb.updateJobStatus _ _ _ _).updateJobStats _ _ _ _ _ _ _).updateJobStatus _ _ _ _
    · exact (hdb.updateJobStatus _ _ _ _).updateJobStatus _ _ _ _
  have hw : (workerWrites db id b ok₁ ok₂ ok₃ t p st d f).nextJobId = db.nextJobId := by
    unfold workerWrites; split <;> simp
  have h1 := this.next_pos
  refine ⟨by omega, fun i hi => ?_⟩
  have := this.below i (by rwa [← h])
  omega

/-- The worker leaves its row's status as it was, or sets it to `RUNNING`, or to `COMPLETED`
(success) or `FAILED`. -/
theorem WorkerRun.status_self {id : Int} {db db' : Db} {b : Bool} (h : WorkerRun id db db' b) :
    db'.status id = db.status id ∨ db'.status id = (db.status id).map (fun _ => .running) ∨
      db'.status id = (db.status id).map (fun _ => if b then .completed else .failed) := by
  obtain ⟨-, ok₁, ok₂, ok₃, t, p, st, d, f, h⟩ := h
  have : db'.status id = (workerWrites db id b ok₁ ok₂ ok₃ t p st d f).status id := by
    simp only [Db.status, h]
  rw [this, workerWrites]
  cases b <;> cases ok₁ <;> cases ok₂ <;> cases ok₃ <;>
    simp [Option.map_map, Function.comp_def]

theorem WorkerRun.status_of_ne {id i : Int} {db db' : Db} {b : Bool} (h : WorkerRun id db db' b)
    (hi : i ≠ id) : db'.status i = db.status i := by
  simp only [Db.status, h.jobs_of_ne hi]

/-! ### Edges -/

/-- The edges of the graph. -/
def Dag.edges (g : Dag) : List (Int × Int) := g.nodes.flatMap fun u => (g.adj u).map (u, ·)

@[simp] theorem Dag.mem_edges {g : Dag} {u v : Int} : (u, v) ∈ g.edges ↔ g.Edge u v := by
  simp [edges, Edge]

/-! ### Calls from outside the loop -/

/-- A call of the scheduler's API made outside the orchestrator loop. -/
inductive ApiCall
  | submitJob (job : BackupJob) (now : Nat) (ok : Bool)
  | addDependency (jobId dependsOn : Int)

/-- The effect of an API call on the scheduler and the store. -/
def ApiCall.apply : ApiCall → Scheduler → Db → Scheduler × Db
  | .submitJob job now ok, s, db => ((s.submitJob db job now ok).2.1, (s.submitJob db job now ok).2.2)
  | .addDependency j p, s, db => ((s.addDependency j p).2, db)

namespace Scheduler

theorem addDependencies_inProgress (s : Scheduler) (id : Int) (deps : List Int) :
    (s.addDependencies id deps).inProgress = s.inProgress := by
  induction deps generalizing s with
  | nil => rfl
  | cons d ds ih => exact ih _

theorem addDependencies_wf {s : Scheduler} (hs : s.depGraph.Wf) (id : Int) (deps : List Int) :
    (s.addDependencies id deps).depGraph.Wf := by
  induction deps generalizing s with
  | nil => exact hs
  | cons d ds ih => exact ih (hs.addEdge d id)

theorem addDependencies_edge {s : Scheduler} {u v : Int} (h : s.depGraph.Edge u v) (id : Int)
    (deps : List Int) : (s.addDependencies id deps).depGraph.Edge u v := by
  induction deps generalizing s with
  | nil => exact h
  | cons d ds ih => exact ih (h.addEdge d id)

end Scheduler

namespace ApiCall

theorem apply_inProgress (c : ApiCall) (s : Scheduler) (db : Db) :
    (c.apply s db).1.inProgress = s.inProgress := by
  cases c with
  | submitJob job now ok =>
    simp only [apply, Scheduler.submitJob]; split
    · rfl
    · exact Scheduler.addDependencies_inProgress _ _ _
  | addDependency j p => rfl

theorem apply_rowIds (c : ApiCall) (s : Scheduler) {db : Db} (h : db.RowIds) :
    (c.apply s db).2.RowIds := by
  cases c with
  | submitJob job now ok => simpa [apply] using h.createJob job now ok
  | addDependency j p => exact h

theorem apply_idsBelow (c : ApiCall) (s : Scheduler) {db : Db} (h : db.IdsBelow) :
    (c.apply s db).2.IdsBelow := by
  cases c with
  | submitJob job now ok => simpa [apply] using h.createJob job now ok
  | addDependency j p => exact h

/-- An outside call changes no status; `submit_job` may add a row where there was none. -/
theorem apply_status (c : ApiCall) (s : Scheduler) {db : Db} (h : db.IdsBelow) (i : Int) :
    (c.apply s db).2.status i = db.status i ∨ db.status i = none := by
  cases c with
  | submitJob job now ok =>
    simp only [apply, Scheduler.submitJob_db, Db.status_createJob]
    split
    · rename_i hi; right; rw [hi.2]; simp only [Db.status]
      cases hj : db.jobs db.nextJobId
      · rfl
      · have := h.below db.nextJobId (by simp [hj]); omega
    · left; rfl
  | addDependency j p => exact Or.inl rfl

theorem apply_wf (c : ApiCall) {s : Scheduler} (hs : s.depGraph.Wf) (db : Db) :
    (c.apply s db).1.depGraph.Wf := by
  cases c with
  | submitJob job now ok =>
    simp only [apply, Scheduler.submitJob]; split
    · exact hs
    · exact Scheduler.addDependencies_wf (hs.addNode _) _ _
  | addDependency j p => exact hs.addEdge p j

theorem apply_edge (c : ApiCall) {s : Scheduler} {u v : Int} (h : s.depGraph.Edge u v)
    (db : Db) : (c.apply s db).1.depGraph.Edge u v := by
  cases c with
  | submitJob job now ok =>
    simp only [apply, Scheduler.submitJob]; split
    · exact h
    · exact Scheduler.addDependencies_edge (h.addNode _) _ _
  | addDependency j p => exact h.addEdge p j

end ApiCall

end FileBackup
