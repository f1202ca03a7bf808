import FileBackup.Orchestrator.Basic

/-!
# `run_multi_process`

The parent's loop and its forked workers, as one interleaving semantics:

```
while (running_) {
  reap_children();                    // waitpid(-1, WNOHANG) until it returns no child
  process_messages();                 // logs only
  ready = get_ready_jobs();
  if (ready.empty()) { if (no job is PENDING && active_workers_.empty()) break;
                       sleep 100 ms; continue; }
  for (job : ready) {
    if (active_workers_.size() >= MAX_WORKER_PROCESSES) break;
    if (!worker_sem_.try_wait()) break;
    fork_worker(job);                 // RUNNING, fork (a failed fork posts the semaphore)
  }
}
while (!active_workers_.empty()) { reap_children(); process_messages(); sleep 100 ms; }
```

A child opens its own database, runs `execute` and exits `0` exactly when it returns
`success`; it can also be killed at any point, which the parent sees as a failure. Its
database writes are separate steps, interleaved with everything else. Reaping a child whose pid
is in `active_workers_` calls `mark_completed` (exit `0`) or `mark_failed`, erases the entry
and posts the semaphore.

The `try_wait` and `fork_worker` of one job are one step: nothing else touches the semaphore
or `active_workers_` between them. `restart` is the next call of `run_multi_process` on the same
orchestrator once a run has stopped. The ghost lists are those of `Single`, with `forked` (the
jobs a child was forked for) in place of `executed`.
-/

namespace FileBackup

/-- Where a forked worker is. -/
inductive ChildPc
  /-- Before `Database::open` in the child. -/
  | opening
  /-- In `execute`, before the `RUNNING` write. -/
  | started
  /-- Before `create_snapshot`. -/
  | snapshot
  /-- The snapshot was inconsistent: before the `FAILED` write. -/
  | failing
  /-- Before `update_job_stats`. -/
  | stats
  /-- Before the `COMPLETED` write. -/
  | completing
  /-- `execute` has returned `success`; `_exit` is next. -/
  | exiting (success : Bool)
  /-- Exited (`true`: `_exit(0)`) or killed; a zombie until reaped. -/
  | exited (success : Bool)
  deriving DecidableEq

/-- A forked worker: its pid, its job and where it is. -/
structure Child where
  pid : Nat
  jobId : Int
  pc : ChildPc
  deriving DecidableEq

/-- A child that has not exited. -/
def Child.alive (c : Child) : Bool :=
  match c.pc with
  | .exited _ => false
  | _ => true

/-- The pid and job of a child, as `active_workers_` records them. -/
def Child.entry (c : Child) : Nat × Int := (c.pid, c.jobId)

/-- Where the parent is. -/
inductive MultiPc
  /-- In `reap_children`, at the top of an iteration. -/
  | reaping
  /-- At `get_ready_jobs`. -/
  | top
  /-- In the `for` over the ready jobs. -/
  | dispatch (ready : List BackupJob)
  /-- In the final loop that waits for the remaining children. -/
  | draining
  | stopped
  deriving DecidableEq

/-- The ready jobs the parent still holds in its `for`. -/
def MultiPc.jobs : MultiPc → List BackupJob
  | .dispatch l => l
  | _ => []

/-- A multi-process orchestrator: scheduler, store, the semaphore's value, `active_workers_`
(pid to job), the unreaped children, the parent's position and the ghost record. -/
structure Multi where
  sched : Scheduler
  db : Db
  sem : Nat
  active : List (Nat × Int)
  children : List Child
  pc : MultiPc
  seen : List (Int × Int)
  handed : List Int
  forked : List Int
  finished : List Int

namespace Multi

/-- After `initialize()`: the semaphore at `MAX_WORKER_PROCESSES`, no worker. -/
def init : Multi := ⟨Scheduler.init, Db.empty, maxWorkerProcesses, [], [], .reaping, [], [], [], []⟩

/-- `active_workers_.find(pid)`. -/
def findActive (σ : Multi) (pid : Nat) : Option Int := (σ.active.find? (·.1 = pid)).map (·.2)

/-- Reap the exited child `c`: the scheduler hears of its job when its pid is active. -/
def afterReap (σ : Multi) (c : Child) (ok : Bool) (okFailed : Bool) (okCancel : Int → Bool) :
    Multi :=
  match σ.findActive c.pid with
  | none => { σ with children := σ.children.erase c }
  | some j =>
    let r := if ok then (σ.sched.markCompleted j, σ.db)
      else σ.sched.markFailed σ.db j okFailed okCancel
    { σ with sched := r.1, db := r.2, active := σ.active.filter (·.1 ≠ c.pid), sem := σ.sem + 1,
             children := σ.children.erase c, finished := σ.finished ++ [j] }

/-- `get_ready_jobs` returned `l`. -/
def afterReady (σ : Multi) (l : List BackupJob) : Multi :=
  { σ with sched := (σ.sched.getReadyJobs σ.db).2, pc := .dispatch l,
           handed := σ.handed ++ l.map (·.jobId) }

/-- `get_ready_jobs` returned nothing; the parent goes to `pc`. -/
def afterEmpty (σ : Multi) (pc : MultiPc) : Multi :=
  { σ with sched := (σ.sched.getReadyJobs σ.db).2, pc }

/-- `try_wait` succeeded and `fork_worker(j)` wrote `RUNNING` (outcome `okR`); `pid` is the
new child, `none` a failed `fork` (the semaphore is posted back). -/
def afterFork (σ : Multi) (j : BackupJob) (rest : List BackupJob) (okR : Bool)
    (pid : Option Nat) : Multi :=
  let db := (σ.db.updateJobStatus j.jobId .running "" okR).2
  match pid with
  | none => { σ with db, pc := .dispatch rest }
  | some p =>
    { σ with db, sem := σ.sem - 1, active := σ.active ++ [(p, j.jobId)],
             children := σ.children ++ [⟨p, j.jobId, .opening⟩], pc := .dispatch rest,
             forked := σ.forked ++ [j.jobId] }

/-- The child `c` moves to `pc` and writes `db`. -/
def afterChild (σ : Multi) (c : Child) (pc : ChildPc) (db : Db) : Multi :=
  { σ with children := σ.children.map fun d => if d = c then { c with pc } else d, db }

/-- A call from outside the loop. -/
def afterApi (σ : Multi) (c : ApiCall) : Multi :=
  { σ with sched := (c.apply σ.sched σ.db).1, db := (c.apply σ.sched σ.db).2,
           seen := σ.seen ++ (c.apply σ.sched σ.db).1.depGraph.edges }

/-- One step of a child: its program is `Database::open`, then `execute`, then
`_exit(result.success ? 0 : 1)`; a signal can end it at any point before. -/
inductive ChildStep (id : Int) : ChildPc → ChildPc → Db → Db → Prop
  | opened {db : Db} : ChildStep id .opening .started db db
  | openFailed {db : Db} : ChildStep id .opening (.exited false) db db
  | running {db : Db} (ok : Bool) :
      ChildStep id .started .snapshot db (db.updateJobStatus id .running "" ok).2
  | snapshot {db : Db} (consistent : Bool) :
      ChildStep id .snapshot (if consistent then .stats else .failing) db db
  | failed {db : Db} (ok : Bool) : ChildStep id .failing (.exiting false) db
      (db.updateJobStatus id .failed "Failed to create snapshot" ok).2
  | stats {db : Db} (ok : Bool) (t p st d f : Nat) :
      ChildStep id .stats .completing db (db.updateJobStats id t p st d f ok).2
  | completed {db : Db} (ok : Bool) : ChildStep id .completing (.exiting true) db
      (db.updateJobStatus id .completed "" ok).2
  | exit {db : Db} (success : Bool) : ChildStep id (.exiting success) (.exited success) db db
  | killed {db : Db} {pc : ChildPc} (h : ∀ b, pc ≠ .exited b) : ChildStep id pc (.exited false) db db

/-- One step of the parent or of a child. -/
inductive Step : Multi → Multi → Prop
  | reap {σ : Multi} {c : Child} {ok : Bool} (okFailed : Bool) (okCancel : Int → Bool)
      (hpc : σ.pc = .reaping ∨ σ.pc = .draining) (hc : c ∈ σ.children)
      (hx : c.pc = .exited ok) : Step σ (σ.afterReap c ok okFailed okCancel)
  | reapDone {σ : Multi} (hpc : σ.pc = .reaping) (hx : ∀ c ∈ σ.children, ∀ b, c.pc ≠ .exited b) :
      Step σ { σ with pc := .top }
  | ready {σ : Multi} {l : List BackupJob} (hpc : σ.pc = .top)
      (hne : (σ.sched.getReadyJobs σ.db).1 ≠ []) (hl : l.Perm (σ.sched.getReadyJobs σ.db).1) :
      Step σ (σ.afterReady l)
  | sleep {σ : Multi} (hpc : σ.pc = .top) (he : (σ.sched.getReadyJobs σ.db).1 = [])
      (hp : ¬ (σ.db.getJobsByStatus .pending = [] ∧ σ.active = [])) :
      Step σ (σ.afterEmpty .reaping)
  | finish {σ : Multi} (hpc : σ.pc = .top) (he : (σ.sched.getReadyJobs σ.db).1 = [])
      (hp : σ.db.getJobsByStatus .pending = [] ∧ σ.active = []) :
      Step σ (σ.afterEmpty .draining)
  | full {σ : Multi} {j : BackupJob} {rest : List BackupJob} (hpc : σ.pc = .dispatch (j :: rest))
      (h : maxWorkerProcesses ≤ σ.active.length) : Step σ { σ with pc := .reaping }
  | busy {σ : Multi} {j : BackupJob} {rest : List BackupJob} (hpc : σ.pc = .dispatch (j :: rest))
      (h : σ.active.length < maxWorkerProcesses) (hs : σ.sem = 0) : Step σ { σ with pc := .reaping }
  | fork {σ : Multi} {j : BackupJob} {rest : List BackupJob} (okR : Bool) (pid : Option Nat)
      (hpc : σ.pc = .dispatch (j :: rest)) (h : σ.active.length < maxWorkerProcesses)
      (hs : 0 < σ.sem) (hpid : ∀ p ∈ pid, 0 < p ∧ ∀ c ∈ σ.children, c.pid ≠ p) :
      Step σ (σ.afterFork j rest okR pid)
  | dispatchDone {σ : Multi} (hpc : σ.pc = .dispatch []) : Step σ { σ with pc := .reaping }
  | drained {σ : Multi} (hpc : σ.pc = .draining) (h : σ.active = []) :
      Step σ { σ with pc := .stopped }
  | restart {σ : Multi} (hpc : σ.pc = .stopped) : Step σ { σ with pc := .reaping }
  | child {σ : Multi} {c : Child} {pc : ChildPc} {db : Db} (hc : c ∈ σ.children)
      (h : ChildStep c.jobId c.pc pc σ.db db) : Step σ (σ.afterChild c pc db)

/-- The states reachable from `init` by steps and outside calls in any interleaving. -/
inductive Reachable : Multi → Prop
  | init : Reachable init
  | step {σ σ' : Multi} : Reachable σ → Step σ σ' → Reachable σ'
  | api {σ : Multi} (c : ApiCall) : Reachable σ → Reachable (σ.afterApi c)

/-- The states reachable from `init` by outside calls alone. -/
inductive Setup : Multi → Prop
  | init : Setup init
  | api {σ : Multi} (c : ApiCall) : Setup σ → Setup (σ.afterApi c)

/-- `σ'` follows `σ` by steps alone: a run of `run_multi_process`, or successive runs with no
outside call between them. -/
inductive Run : Multi → Multi → Prop
  | refl (σ : Multi) : Run σ σ
  | step {σ σ' σ'' : Multi} : Run σ σ' → Step σ' σ'' → Run σ σ''

theorem Setup.reachable {σ : Multi} (h : Setup σ) : Reachable σ := by
  induction h with
  | init => exact .init
  | api c _ ih => exact .api c ih

theorem Run.reachable {σ σ' : Multi} (h : Run σ σ') (h0 : Reachable σ) : Reachable σ' := by
  induction h with
  | refl => exact h0
  | step _ hs ih => exact .step ih hs

end Multi

end FileBackup
