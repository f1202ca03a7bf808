import FileBackup.Orchestrator.Basic

/-!
# `run_single_threaded`

The single-process loop of `BackupOrchestrator`:

```
while (running_) {
  ready = get_ready_jobs();
  if (ready.empty()) { if (no job is PENDING) break; sleep 100 ms; continue; }
  for (job : ready) { execute_job_direct(job); mark_completed(job.job_id); }
}
```

`execute_job_direct` ignores the worker's result, so a failed job is also given to
`mark_completed`. The state is the scheduler, the store, the loop position and four ghost
lists: `seen` (every edge the graph has had, that is every accepted dependency), `handed`
(the jobs `get_ready_jobs` returned), `executed` (the jobs passed to `execute`) and
`finished` (the jobs given to `mark_completed`).

`Step` is one step of the loop, with `restart` the next call of `run_single_threaded` on the
same orchestrator once a run has stopped (`TerminalUI::do_backup` submits a job and runs the loop
again for each backup); `afterApi` is a `submit_job` or `add_dependency` call from outside the
loop, which the scheduler's mutex makes atomic. `Reachable` allows both in any interleaving;
`Setup` only the calls, and `Run` only the loop.
-/

namespace FileBackup

/-- Where `run_single_threaded` is. -/
inductive SinglePc
  /-- At `get_ready_jobs`. -/
  | top
  /-- In the `for` over the ready jobs. -/
  | run (ready : List BackupJob)
  /-- `execute_job_direct(job)` has returned; `mark_completed` is next. -/
  | mark (job : BackupJob) (rest : List BackupJob)
  | stopped
  deriving DecidableEq

/-- The jobs the loop holds, handed out and not yet given to `mark_completed`. -/
def SinglePc.jobs : SinglePc → List BackupJob
  | .run l => l
  | .mark j l => j :: l
  | _ => []

/-- The held jobs not yet passed to `execute`. -/
def SinglePc.toRun : SinglePc → List BackupJob
  | .run l => l
  | .mark _ l => l
  | _ => []

/-- A single-process orchestrator with its ghost record. -/
structure Single where
  sched : Scheduler
  db : Db
  pc : SinglePc
  seen : List (Int × Int)
  handed : List Int
  executed : List Int
  finished : List Int

namespace Single

/-- An orchestrator over an empty store, about to call `get_ready_jobs`. -/
def init : Single := ⟨Scheduler.init, Db.empty, .top, [], [], [], []⟩

/-- `get_ready_jobs` returned `l` (in the loop's order) and marked it in progress. -/
def afterReady (σ : Single) (l : List BackupJob) : Single :=
  { σ with sched := (σ.sched.getReadyJobs σ.db).2, pc := .run l,
           handed := σ.handed ++ l.map (·.jobId) }

/-- `get_ready_jobs` returned nothing; `pc` is `top` again (sleep) or `stopped`. -/
def afterEmpty (σ : Single) (pc : SinglePc) : Single :=
  { σ with sched := (σ.sched.getReadyJobs σ.db).2, pc }

/-- `execute` of `j` left the store `db'`. -/
def afterExecute (σ : Single) (j : BackupJob) (rest : List BackupJob) (db' : Db) : Single :=
  { σ with db := db', pc := .mark j rest, executed := σ.executed ++ [j.jobId] }

/-- `mark_completed(j.job_id)`. -/
def afterMark (σ : Single) (j : BackupJob) (rest : List BackupJob) : Single :=
  { σ with sched := σ.sched.markCompleted j.jobId, pc := .run rest,
           finished := σ.finished ++ [j.jobId] }

/-- A call from outside the loop; `seen` records the graph's edges after it. -/
def afterApi (σ : Single) (c : ApiCall) : Single :=
  { σ with sched := (c.apply σ.sched σ.db).1, db := (c.apply σ.sched σ.db).2,
           seen := σ.seen ++ (c.apply σ.sched σ.db).1.depGraph.edges }

/-- One step of the loop. The ready jobs are run in any order: the graph's hash order and the
ties of `std::sort` are left open. -/
inductive Step : Single → Single → Prop
  | ready {σ : Single} {l : List BackupJob} (hpc : σ.pc = .top)
      (hne : (σ.sched.getReadyJobs σ.db).1 ≠ []) (hl : l.Perm (σ.sched.getReadyJobs σ.db).1) :
      Step σ (σ.afterReady l)
  | sleep {σ : Single} (hpc : σ.pc = .top) (he : (σ.sched.getReadyJobs σ.db).1 = [])
      (hp : σ.db.getJobsByStatus .pending ≠ []) : Step σ (σ.afterEmpty .top)
  | stop {σ : Single} (hpc : σ.pc = .top) (he : (σ.sched.getReadyJobs σ.db).1 = [])
      (hp : σ.db.getJobsByStatus .pending = []) : Step σ (σ.afterEmpty .stopped)
  | execute {σ : Single} {j : BackupJob} {rest : List BackupJob} {db' : Db} {b : Bool}
      (hpc : σ.pc = .run (j :: rest)) (hw : WorkerRun j.jobId σ.db db' b) :
      Step σ (σ.afterExecute j rest db')
  | markCompleted {σ : Single} {j : BackupJob} {rest : List BackupJob}
      (hpc : σ.pc = .mark j rest) : Step σ (σ.afterMark j rest)
  | next {σ : Single} (hpc : σ.pc = .run []) : Step σ { σ with pc := .top }
  | restart {σ : Single} (hpc : σ.pc = .stopped) : Step σ { σ with pc := .top }

/-- The states reachable from `init` by loop steps and outside calls in any interleaving. -/
inductive Reachable : Single → Prop
  | init : Reachable init
  | step {σ σ' : Single} : Reachable σ → Step σ σ' → Reachable σ'
  | api {σ : Single} (c : ApiCall) : Reachable σ → Reachable (σ.afterApi c)

/-- The states reachable from `init` by outside calls alone: jobs submitted and dependencies
added before the loop starts. -/
inductive Setup : Single → Prop
  | init : Setup init
  | api {σ : Single} (c : ApiCall) : Setup σ → Setup (σ.afterApi c)

/-- `σ'` follows `σ` by loop steps alone: a run of `run_single_threaded`, or successive runs
with no outside call between them. -/
inductive Run : Single → Single → Prop
  | refl (σ : Single) : Run σ σ
  | step {σ σ' σ'' : Single} : Run σ σ' → Step σ' σ'' → Run σ σ''

theorem Setup.reachable {σ : Single} (h : Setup σ) : Reachable σ := by
  induction h with
  | init => exact .init
  | api c _ ih => exact .api c ih

theorem Run.reachable {σ σ' : Single} (h : Run σ σ') (h0 : Reachable σ) : Reachable σ' := by
  induction h with
  | refl => exact h0
  | step _ hs ih => exact .step ih hs

end Single

end FileBackup
