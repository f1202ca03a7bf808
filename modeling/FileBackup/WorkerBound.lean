import FileBackup.Orchestrator.Multi

/-!
# The worker bound of `run_multi_process`

`active_workers_` holds exactly the unreaped children (pid and job), and the worker semaphore
holds the free slots: `sem + |active_workers_| = MAX_WORKER_PROCESSES` in every reachable
state, across every interleaving of child exits, failed forks, reaps and outside calls. Hence
at most `MAX_WORKER_PROCESSES` forked workers are alive at any time.
-/

namespace FileBackup

namespace Multi

/-- The accounting of the parent: the semaphore holds the free slots and `active_workers_`
lists the unreaped children. -/
structure BoundInv (σ : Multi) : Prop where
  sem_add : σ.sem + σ.active.length = maxWorkerProcesses
  active_perm : σ.active.Perm (σ.children.map Child.entry)
  pid_nodup : (σ.children.map Child.pid).Nodup

theorem boundInv_init : init.BoundInv := ⟨rfl, List.Perm.refl _, List.nodup_nil⟩

theorem BoundInv.findActive {σ : Multi} (hσ : σ.BoundInv) {c : Child} (hc : c ∈ σ.children) :
    σ.findActive c.pid = some c.jobId := by
  have hmem : (c.pid, c.jobId) ∈ σ.active := hσ.active_perm.mem_iff.2 (List.mem_map_of_mem _ hc)
  obtain ⟨x, hx⟩ := Option.isSome_iff_exists.1
    (List.find?_isSome.2 ⟨_, hmem, by simp⟩ : (σ.active.find? (·.1 = c.pid)).isSome)
  have hxmem := List.mem_of_find?_eq_some hx
  have hxp : x.1 = c.pid := by simpa using List.find?_some hx
  obtain ⟨d, hd, rfl⟩ := List.mem_map.1 (hσ.active_perm.mem_iff.1 hxmem)
  have : d = c := List.inj_on_of_nodup_map hσ.pid_nodup hd hc hxp
  simp [Multi.findActive, hx, this, Child.entry]

/-- Under the accounting, reaping a child hands its own job to the scheduler. -/
theorem BoundInv.afterReap_eq {σ : Multi} (hσ : σ.BoundInv) {c : Child} (hc : c ∈ σ.children)
    (ok okF : Bool) (okC : Int → Bool) :
    σ.afterReap c ok okF okC =
      { σ with sched := σ.sched.markCompleted c.jobId,
               db := if ok then σ.db else (σ.sched.markFailed σ.db c.jobId okF okC).2,
               active := σ.active.filter (·.1 ≠ c.pid), sem := σ.sem + 1,
               children := σ.children.erase c, finished := σ.finished ++ [c.jobId] } := by
  simp only [afterReap, hσ.findActive hc]
  split <;> rfl

theorem BoundInv.afterReap {σ : Multi} (hσ : σ.BoundInv) {c : Child} (hc : c ∈ σ.children)
    (ok okF : Bool) (okC : Int → Bool) : (σ.afterReap c ok okF okC).BoundInv := by
  have hfind := hσ.findActive hc
  have hperm : (σ.children.map Child.entry).Perm
      (c.entry :: (σ.children.erase c).map Child.entry) := (List.perm_cons_erase hc).map _
  have hrest : ∀ d ∈ σ.children.erase c, d.pid ≠ c.pid := by
    intro d hd e
    have hd' := List.mem_of_mem_erase hd
    have : d = c := List.inj_on_of_nodup_map hσ.pid_nodup hd' hc e
    subst this
    exact (List.Nodup.not_mem_erase (hσ.pid_nodup.of_map _)) hd
  have hfilter : (σ.active.filter (fun e => e.1 ≠ c.pid)).Perm
      ((σ.children.erase c).map Child.entry) := by
    refine ((hσ.active_perm.trans hperm).filter _).trans ?_
    rw [List.filter_cons_of_neg (by simp [Child.entry]), List.filter_eq_self.2]
    intro e he
    obtain ⟨d, hd, rfl⟩ := List.mem_map.1 he
    simpa [Child.entry] using hrest d hd
  have hlen := hσ.active_perm.length_eq.trans hperm.length_eq
  simp only [List.length_cons, List.length_map] at hlen
  have hlen' := hfilter.length_eq
  simp only [List.length_map] at hlen'
  refine ⟨?_, ?_, ?_⟩
  all_goals simp only [Multi.afterReap, hfind]
  · have := hσ.sem_add; omega
  · exact hfilter
  · exact hσ.pid_nodup.sublist ((List.erase_sublist _ _).map _)

theorem BoundInv.afterFork {σ : Multi} (hσ : σ.BoundInv) (j : BackupJob) (rest : List BackupJob)
    (okR : Bool) {pid : Option Nat} (hs : 0 < σ.sem) (hpid : ∀ p ∈ pid, ∀ c ∈ σ.children, c.pid ≠ p) :
    (σ.afterFork j rest okR pid).BoundInv := by
  cases pid with
  | none => exact ⟨hσ.sem_add, hσ.active_perm, hσ.pid_nodup⟩
  | some p =>
    refine ⟨?_, ?_, ?_⟩
    · have := hσ.sem_add; simp only [Multi.afterFork, List.length_append, List.length_singleton]
      omega
    · simpa [Multi.afterFork, Child.entry] using hσ.active_perm.append_right [(p, j.jobId)]
    · simp only [Multi.afterFork, List.map_append, List.map_singleton]
      exact hσ.pid_nodup.append (List.nodup_singleton _)
        (by simpa using fun c hc e => hpid p rfl c hc e)

theorem BoundInv.afterChild {σ : Multi} (hσ : σ.BoundInv) (c : Child) (pc : ChildPc) (db : Db) :
    (σ.afterChild c pc db).BoundInv := by
  have hmap : ∀ {α : Type} (f : Child → α), (∀ d, f (if d = c then { c with pc } else d) = f d) →
      (σ.afterChild c pc db).children.map f = σ.children.map f := fun f hf => by
    simp only [Multi.afterChild, List.map_map]
    exact List.map_congr_left fun d _ => hf d
  have hentry := hmap Child.entry fun d => by split <;> subst_vars <;> rfl
  have hpid := hmap Child.pid fun d => by split <;> subst_vars <;> rfl
  exact ⟨hσ.sem_add, hentry ▸ hσ.active_perm, hpid ▸ hσ.pid_nodup⟩

theorem BoundInv.step {σ σ' : Multi} (hσ : σ.BoundInv) (h : Step σ σ') : σ'.BoundInv := by
  cases h with
  | reap okF okC _ hc _ => exact hσ.afterReap hc _ okF okC
  | fork okR pid _ _ hs hpid => exact hσ.afterFork _ _ okR hs fun p hp => (hpid p hp).2
  | child _ _ => exact hσ.afterChild _ _ _
  | _ => exact ⟨hσ.sem_add, hσ.active_perm, hσ.pid_nodup⟩

theorem BoundInv.afterApi {σ : Multi} (hσ : σ.BoundInv) (c : ApiCall) : (σ.afterApi c).BoundInv :=
  ⟨hσ.sem_add, hσ.active_perm, hσ.pid_nodup⟩

theorem Reachable.boundInv {σ : Multi} (h : σ.Reachable) : σ.BoundInv := by
  induction h with
  | init => exact boundInv_init
  | step _ hs ih => exact ih.step hs
  | api c _ ih => exact ih.afterApi c

/-- In every reachable state the semaphore and `active_workers_` add up to
`MAX_WORKER_PROCESSES`, and at most that many forked workers are alive. -/
theorem worker_bound {σ : Multi} (h : σ.Reachable) :
    σ.sem + σ.active.length = maxWorkerProcesses ∧
      (σ.children.filter Child.alive).length ≤ maxWorkerProcesses := by
  have hσ := h.boundInv
  refine ⟨hσ.sem_add, ?_⟩
  have := hσ.active_perm.length_eq
  have := hσ.sem_add
  have := List.length_filter_le Child.alive σ.children
  simp only [List.length_map] at *
  omega

/-- Jobs `1`, `2` and `3` are handed out; job `1`'s worker is forked, the fork for job `2`
fails, job `3`'s worker is forked; job `1`'s worker is killed and reaped. One worker is active,
and the accounting holds. -/
theorem worker_bound_after_reap :
    ∃ σ : Multi, σ.Reachable ∧ σ.forked = [1, 3] ∧ σ.finished = [1] ∧ σ.active = [(103, 3)] ∧
      (σ.sem + σ.active.length = maxWorkerProcesses ∧
        (σ.children.filter Child.alive).length ≤ maxWorkerProcesses) := by
  let job (n : Nat) : BackupJob := { sourcePath := "/data", backupName := toString n }
  have r := ((Reachable.init.api (.submitJob (job 1) 0 true)).api (.submitJob (job 2) 0 true)).api
    (.submitJob (job 3) 0 true)
  have r := r.step (.reapDone rfl (by decide))
  have r := r.step (.ready (l := [{ job 1 with jobId := 1 }, { job 2 with jobId := 2 },
    { job 3 with jobId := 3 }]) rfl (by decide) (by decide))
  have r := r.step (.fork true (some 101) rfl (by decide) (by decide) (by simp; decide))
  have r := r.step (.fork true none rfl (by decide) (by decide) (by simp))
  have r := r.step (.fork true (some 103) rfl (by decide) (by decide) (by simp; decide))
  have r := r.step (.dispatchDone rfl)
  have r := r.step (.child (c := ⟨101, 1, .opening⟩) (by decide) (.killed nofun))
  have r := r.step (.reap (c := ⟨101, 1, .exited false⟩) true (fun _ => true) (Or.inl rfl)
    (by decide) rfl)
  exact ⟨_, r, rfl, by decide, by decide, worker_bound r⟩

end Multi

end FileBackup
