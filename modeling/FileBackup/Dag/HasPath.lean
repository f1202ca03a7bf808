import FileBackup.Dag
import Mathlib.Algebra.Order.BigOperators.Group.List

/-!
# `DAG::has_path`

`has_path(from, to)` is the cycle check of `add_edge`: a breadth-first loop over a queue and a
`visited` set. It returns `true` when it pops `to`, skips a visited node, and otherwise marks
the node and pushes its dependents (none when the node is not a key of `adj_`). The dependents
come out of an `unordered_set`, in an order the code does not fix.

* `BfsStep`: one iteration that does not return, pushing the dependents in any order, and
  `bfsAnswer`: what the loop returns where it stops;
* `pending_lt_of_bfsStep`: the queue plus the dependents of the unvisited keys shrinks at
  every iteration, so no run is infinite (`bfsStep_wf`); a state with no iteration left has
  returned (`bfsAnswer_of_stuck`);
* `BfsInv`: each visited node has its dependents visited or queued, `to` is not visited, and
  some queued node reaches `to` exactly when `from` does; `BfsInv.step` keeps it, so every
  answer is reachability;
* `bfs_run`: the model's `bfs`, bounded by fuel and pushing in `adj_` order, is one such run;
* `hasPath_iff`, and `hasPath_spec`: for every graph, cyclic or not, every run of the loop
  stops and answers whether `to = from` or `to` is reachable from `from`.
-/

namespace FileBackup

namespace Dag

theorem mem_succs {g : Dag} {u w : Int} : w ∈ g.succs u ↔ g.Edge u w := by
  unfold succs Edge
  split_ifs with hu <;> simp [hu]

/-! ### The loop -/

/-- One iteration of the `while` loop of `has_path` that does not return: pop `cur ≠ to`;
skip it when visited, else mark it and push its dependents `l`, in whatever order the
`unordered_set` yields them. The state is the queue and the visited set. -/
inductive BfsStep (g : Dag) (dst : Int) : List Int × List Int → List Int × List Int → Prop
  | skip {cur : Int} {q visited : List Int} : cur ≠ dst → cur ∈ visited →
      BfsStep g dst (cur :: q, visited) (q, visited)
  | expand {cur : Int} {q visited l : List Int} : cur ≠ dst → cur ∉ visited →
      l.Perm (g.succs cur) → BfsStep g dst (cur :: q, visited) (q ++ l, cur :: visited)

/-- What the loop returns where it stops: `false` on an empty queue, `true` on popping `to`. -/
def bfsAnswer (dst : Int) : List Int × List Int → Option Bool
  | ([], _) => some false
  | (cur :: _, _) => if cur = dst then some true else none

/-- A state with no iteration left has returned. -/
theorem bfsAnswer_of_stuck {g : Dag} {dst : Int} :
    ∀ {s : List Int × List Int}, (∀ s', ¬ g.BfsStep dst s s') → ∃ r, bfsAnswer dst s = some r
  | ([], _), _ => ⟨false, rfl⟩
  | (cur :: q, visited), h => by
    by_cases hd : cur = dst
    · exact ⟨true, if_pos hd⟩
    by_cases hv : cur ∈ visited
    · exact absurd (.skip hd hv) (h _)
    · exact absurd (.expand hd hv (List.Perm.refl _)) (h _)

/-! ### Termination -/

/-- What `has_path` has left to pop: the queue, and the dependents of each key not yet
visited. -/
def pending (g : Dag) (q visited : List Int) : Nat :=
  q.length + (g.nodes.map fun u => if u ∈ visited then 0 else (g.adj u).length).sum

/-- Expanding an unvisited node moves its dependents from the keys' share to the queue. -/
theorem length_succs_add_le {g : Dag} {cur : Int} {visited : List Int} (hcur : cur ∉ visited) :
    (g.succs cur).length +
        (g.nodes.map fun u => if u ∈ cur :: visited then 0 else (g.adj u).length).sum ≤
      (g.nodes.map fun u => if u ∈ visited then 0 else (g.adj u).length).sum := by
  have hle : ∀ u ∈ g.nodes, (if u ∈ cur :: visited then 0 else (g.adj u).length) ≤
      (if u ∈ visited then 0 else (g.adj u).length) := fun u _ => by
    by_cases h : u ∈ visited <;> by_cases h' : u = cur <;> simp [h, h']
  unfold succs
  split_ifs with hn
  · rw [((List.perm_cons_erase hn).map _).sum_eq, ((List.perm_cons_erase hn).map _).sum_eq,
      List.map_cons, List.sum_cons, List.map_cons, List.sum_cons,
      if_pos (List.mem_cons_self _ _), if_neg hcur]
    have := List.sum_le_sum fun u (hu : u ∈ g.nodes.erase cur) => hle u (List.mem_of_mem_erase hu)
    omega
  · simpa using List.sum_le_sum hle

theorem pending_lt_of_bfsStep {g : Dag} {dst : Int} {s s' : List Int × List Int}
    (h : g.BfsStep dst s s') : g.pending s'.1 s'.2 < g.pending s.1 s.2 := by
  cases h with
  | skip => simp [pending]
  | expand _ hv hl =>
    have := length_succs_add_le (g := g) hv
    simp only [pending, List.length_cons, List.length_append, hl.length_eq]
    omega

/-- No run of the loop is infinite, whatever order the dependents are pushed in. -/
theorem bfsStep_wf (g : Dag) (dst : Int) : WellFounded fun s' s => g.BfsStep dst s s' :=
  Subrelation.wf (fun h => pending_lt_of_bfsStep h)
    (InvImage.wf (fun s : List Int × List Int => g.pending s.1 s.2) wellFounded_lt)

/-! ### What a run answers -/

/-- A path from a visited node to an unvisited one leaves the visited set through the
dependents of a visited node, which are visited or in `S`. -/
theorem exists_of_reach_visited {g : Dag} {visited S : List Int}
    (hclosed : ∀ v ∈ visited, ∀ w ∈ g.succs v, w ∈ visited ∨ w ∈ S) {a b : Int}
    (h : Relation.ReflTransGen g.Edge a b) (ha : a ∈ visited) (hb : b ∉ visited) :
    ∃ x ∈ S, Relation.ReflTransGen g.Edge x b := by
  induction h using Relation.ReflTransGen.head_induction_on with
  | refl => exact absurd ha hb
  | head hac _ ih =>
    rcases hclosed _ ha _ (mem_succs.2 hac) with hc | hc
    · exact ih hc
    · exact ⟨_, hc, ‹_›⟩

/-- What every state of a run of `has_path(src, dst)` keeps. -/
structure BfsInv (g : Dag) (src dst : Int) (s : List Int × List Int) : Prop where
  closed : ∀ v ∈ s.2, ∀ w ∈ g.succs v, w ∈ s.2 ∨ w ∈ s.1
  dst_not_mem : dst ∉ s.2
  reach : (∃ x ∈ s.1, Relation.ReflTransGen g.Edge x dst) ↔ Relation.ReflTransGen g.Edge src dst

theorem BfsInv.init (g : Dag) (src dst : Int) : g.BfsInv src dst ([src], []) :=
  ⟨fun _ h => absurd h (List.not_mem_nil _), List.not_mem_nil _, by simp⟩

theorem BfsInv.step {g : Dag} {src dst : Int} {s s' : List Int × List Int}
    (hs : g.BfsInv src dst s) (h : g.BfsStep dst s s') : g.BfsInv src dst s' := by
  obtain ⟨hclosed, hdst, hreach⟩ := hs
  cases h with
  | @skip cur q visited hd hv =>
    have closed' : ∀ v ∈ visited, ∀ w ∈ g.succs v, w ∈ visited ∨ w ∈ q := fun v hv' w hw => by
      rcases hclosed v hv' w hw with h | h
      · exact .inl h
      · rcases List.mem_cons.1 h with rfl | h
        · exact .inl hv
        · exact .inr h
    refine ⟨closed', hdst, Iff.trans ⟨fun ⟨x, hx, hr⟩ => ⟨x, .tail _ hx, hr⟩, ?_⟩ hreach⟩
    rintro ⟨x, hx, hr⟩
    rcases List.mem_cons.1 hx with rfl | hx
    · exact exists_of_reach_visited closed' hr hv hdst
    · exact ⟨x, hx, hr⟩
  | @expand cur q visited l hd hv hl =>
    refine ⟨fun v hv' w hw => ?_, ?_, Iff.trans ⟨?_, ?_⟩ hreach⟩
    · rcases List.mem_cons.1 hv' with rfl | hv'
      · exact .inr (List.mem_append_right _ (hl.mem_iff.2 hw))
      rcases hclosed v hv' w hw with h | h
      · exact .inl (.tail _ h)
      rcases List.mem_cons.1 h with rfl | h
      · exact .inl (.head _)
      · exact .inr (List.mem_append_left _ h)
    · simp only [List.mem_cons, not_or]
      exact ⟨Ne.symm hd, hdst⟩
    · rintro ⟨x, hx, hr⟩
      rcases List.mem_append.1 hx with hx | hx
      · exact ⟨x, .tail _ hx, hr⟩
      · exact ⟨cur, .head _, .head (mem_succs.1 (hl.mem_iff.1 hx)) hr⟩
    · rintro ⟨x, hx, hr⟩
      rcases List.mem_cons.1 hx with rfl | hx
      · rcases Relation.ReflTransGen.cases_head hr with h | ⟨c, hc, hr⟩
        · exact absurd h hd
        · exact ⟨c, List.mem_append_right _ (hl.mem_iff.2 (mem_succs.2 hc)), hr⟩
      · exact ⟨x, List.mem_append_left _ hx, hr⟩

theorem BfsInv.run {g : Dag} {src dst : Int} {s : List Int × List Int}
    (h : Relation.ReflTransGen (g.BfsStep dst) ([src], []) s) : g.BfsInv src dst s := by
  induction h with
  | refl => exact BfsInv.init g src dst
  | tail _ hst ih => exact ih.step hst

/-- Where the loop returns, it answers whether `src` reaches `dst`. -/
theorem BfsInv.answer {g : Dag} {src dst : Int} {s : List Int × List Int} {r : Bool}
    (hs : g.BfsInv src dst s) (h : bfsAnswer dst s = some r) :
    r = true ↔ Relation.ReflTransGen g.Edge src dst := by
  obtain ⟨_ | ⟨cur, q⟩, visited⟩ := s
  · cases h
    simpa using hs.reach.symm
  · simp only [bfsAnswer, ite_eq_left_iff, reduceCtorEq, imp_false, not_not] at h
    by_cases hd : cur = dst
    · simp only [hd, ↓reduceIte, Option.some.injEq] at h
      exact ⟨fun _ => hs.reach.1 ⟨cur, List.mem_cons_self _ _, hd ▸ .refl⟩, fun _ => h.symm⟩
    · simp [hd] at h

/-- The model's loop, bounded by fuel and pushing dependents in `adj_` order, is one run: with
more fuel than work left it returns what that run's final state answers. -/
theorem bfs_run {g : Dag} {dst : Int} : ∀ (fuel : Nat) (q visited : List Int),
    g.pending q visited < fuel → ∃ s, Relation.ReflTransGen (g.BfsStep dst) (q, visited) s ∧
      bfsAnswer dst s = some (g.bfs dst fuel q visited)
  | 0, _, _, hf => absurd hf (Nat.not_lt_zero _)
  | _ + 1, [], _, _ => ⟨_, .refl, rfl⟩
  | fuel + 1, cur :: q, visited, hf => by
    by_cases hd : cur = dst
    · exact ⟨_, .refl, by simp [bfsAnswer, bfs, hd]⟩
    by_cases hv : cur ∈ visited
    · have hst : g.BfsStep dst (cur :: q, visited) (q, visited) := .skip hd hv
      obtain ⟨s, hr, ha⟩ := @bfs_run g dst fuel q visited (by
        have := pending_lt_of_bfsStep hst; dsimp only at this; omega)
      exact ⟨s, .head hst hr, by rw [ha, bfs, if_neg hd, if_pos hv]⟩
    · have hst : g.BfsStep dst (cur :: q, visited) (q ++ g.succs cur, cur :: visited) :=
        .expand hd hv (List.Perm.refl _)
      obtain ⟨s, hr, ha⟩ := @bfs_run g dst fuel (q ++ g.succs cur) (cur :: visited) (by
        have := pending_lt_of_bfsStep hst; dsimp only at this; omega)
      exact ⟨s, .head hst hr, by rw [ha, bfs, if_neg hd, if_neg hv]⟩

/-- `has_path(u, v)` holds exactly when `v` is reachable from `u`. -/
theorem hasPath_iff {g : Dag} {u v : Int} :
    g.hasPath u v = true ↔ Relation.ReflTransGen g.Edge u v := by
  obtain ⟨s, hr, ha⟩ := @bfs_run g v (g.edgeCount + 2) [u] []
    (by simp [pending, edgeCount]; omega)
  exact (BfsInv.run hr).answer ha

/-- `has_path(a, b)` on any graph, cyclic or not, with dependents that are keys or not: whatever
order the dependents are pushed in, the loop stops, a stopped loop has returned, and what it
returns is whether `b = a` or `b` is reachable from `a`; the model's `hasPath` is one such run. -/
theorem hasPath_spec (g : Dag) (a b : Int) :
    Acc (fun s' s => g.BfsStep b s s') ([a], []) ∧
    (∀ s, (∀ s', ¬ g.BfsStep b s s') → ∃ r, bfsAnswer b s = some r) ∧
    (∀ s r, Relation.ReflTransGen (g.BfsStep b) ([a], []) s → bfsAnswer b s = some r →
      (r = true ↔ b = a ∨ Relation.TransGen g.Edge a b)) ∧
    (g.hasPath a b = true ↔ b = a ∨ Relation.TransGen g.Edge a b) :=
  ⟨(bfsStep_wf g b).apply _, fun _ => bfsAnswer_of_stuck,
    fun _ _ hr ha => ((BfsInv.run hr).answer ha).trans Relation.reflTransGen_iff_eq_or_transGen,
    hasPath_iff.trans Relation.reflTransGen_iff_eq_or_transGen⟩

end Dag

end FileBackup
