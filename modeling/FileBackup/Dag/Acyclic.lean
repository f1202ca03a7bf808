import FileBackup.Dag.HasPath

/-!
# Acyclicity of `DAG<int>`

`add_edge(from, to)` refuses a self-loop and an edge for which `has_path(to, from)` holds, so
no call sequence closes a cycle: `has_path` answers reachability (`hasPath_iff`, in
`Dag.HasPath`).

* `Op`, `run`: a sequence of `add_node`, `add_edge`, `remove_edge` and `remove_node` calls
  from the empty graph;
* `addEdge_fst_eq_false`: `add_edge(u, v)` is refused exactly when `u = v` or `v` reaches `u`;
* `Acyclic` and its step lemmas, and `dag_acyclic` for every call sequence.
-/

namespace FileBackup

namespace Dag

/-! ### Edges under each call -/

@[simp] theorem edge_addNode {g : Dag} {n u v : Int} : (g.addNode n).Edge u v ↔ g.Edge u v := by
  refine ⟨fun h => ?_, fun h => h.addNode n⟩
  unfold addNode at h
  split_ifs at h with hn
  · exact h
  obtain ⟨hu, hv⟩ := h
  by_cases hun : u = n
  · subst hun; simp at hv
  · simp only [Function.update_noteq hun] at hv
    exact ⟨by simpa [hun] using hu, hv⟩

theorem edge_insertEdge {g : Dag} {a b u v : Int} (ha : a ∈ g.nodes) :
    (g.insertEdge a b).Edge u v ↔ g.Edge u v ∨ (u = a ∧ v = b) := by
  unfold Edge
  by_cases hu : u = a
  · subst hu; simp [mem_setInsert, ha, or_comm]
  · simp [Function.update_noteq hu, hu]

theorem Edge.of_removeEdge {g : Dag} {a b u v : Int} (h : (g.removeEdge a b).2.Edge u v) :
    g.Edge u v := by
  unfold removeEdge at h
  split_ifs at h
  · refine ⟨h.1, ?_⟩
    have h₂ := h.2
    by_cases hu : u = a
    · subst hu; simp only [Function.update_same] at h₂; exact List.mem_of_mem_erase h₂
    · simpa [Function.update_noteq hu] using h₂
  · exact h
  · exact h

theorem Edge.of_removeNode {g : Dag} {n u v : Int} (h : (g.removeNode n).Edge u v) :
    g.Edge u v :=
  ⟨List.mem_of_mem_erase h.1, List.mem_of_mem_erase h.2⟩

/-! ### Acyclicity -/

/-- No node reaches itself through one edge or more. -/
def Acyclic (g : Dag) : Prop := ∀ u, ¬ Relation.TransGen g.Edge u u

theorem acyclic_empty : empty.Acyclic := fun u h => by
  obtain ⟨b, hb, -⟩ := Relation.TransGen.head'_iff.1 h
  exact absurd hb.1 (List.not_mem_nil u)

/-- A path through one added edge `a → b` is an old path, or goes through `a` and then `b`. -/
theorem transGen_of_insert {r : Int → Int → Prop} {a b x y : Int}
    (h : Relation.TransGen (fun u v => r u v ∨ (u = a ∧ v = b)) x y) :
    Relation.TransGen r x y ∨
      (Relation.ReflTransGen r x a ∧ Relation.ReflTransGen r b y) := by
  induction h with
  | single h =>
    rcases h with h | ⟨rfl, rfl⟩
    · exact .inl (.single h)
    · exact .inr ⟨.refl, .refl⟩
  | tail _ h ih =>
    rcases h with h | ⟨rfl, rfl⟩
    · exact ih.imp (·.tail h) fun ⟨h₁, h₂⟩ => ⟨h₁, h₂.tail h⟩
    · rcases ih with ih | ⟨h₁, -⟩
      · exact .inr ⟨ih.to_reflTransGen, .refl⟩
      · exact .inr ⟨h₁, .refl⟩

theorem Acyclic.addNode {g : Dag} (h : g.Acyclic) (n : Int) : (g.addNode n).Acyclic := by
  intro u hu
  have hedge : (g.addNode n).Edge = g.Edge := by ext; exact edge_addNode
  exact h u (hedge ▸ hu)

theorem Acyclic.of_edge {g g' : Dag} (h : g.Acyclic) (hsub : ∀ u v, g'.Edge u v → g.Edge u v) :
    g'.Acyclic := fun u hu => h u (hu.mono hsub)

/-- `add_edge(u, v)` is refused exactly when `u = v` or `v` already reaches `u`. -/
theorem addEdge_fst_eq_false (g : Dag) (u v : Int) :
    (g.addEdge u v).1 = false ↔ u = v ∨ Relation.TransGen g.Edge v u := by
  have hedge : ((g.addNode u).addNode v).Edge = g.Edge := by ext; simp
  rw [addEdge_eq]
  split_ifs with huv hp
  · simp [huv]
  · rw [hasPath_iff, hedge, Relation.reflTransGen_iff_eq_or_transGen] at hp
    simpa [huv, eq_comm] using hp
  · rw [hasPath_iff, hedge, Relation.reflTransGen_iff_eq_or_transGen] at hp
    simpa [huv, eq_comm] using hp

theorem Acyclic.addEdge {g : Dag} (h : g.Acyclic) (u v : Int) : (g.addEdge u v).2.Acyclic := by
  have h' := (h.addNode u).addNode v
  have hedge : ((g.addNode u).addNode v).Edge = g.Edge := by ext; simp
  rw [addEdge_eq]
  split_ifs with huv hp
  · exact h'
  · exact h'
  · intro x hx
    have hmem : u ∈ ((g.addNode u).addNode v).nodes := by simp
    have hx' : Relation.TransGen (fun a b => ((g.addNode u).addNode v).Edge a b ∨
        (a = u ∧ b = v)) x x := hx.mono fun a b hab => (edge_insertEdge hmem).1 hab
    rcases transGen_of_insert hx' with hx | ⟨hxu, hvx⟩
    · exact h' x hx
    · exact hp (hasPath_iff.2 (hvx.trans hxu))

/-! ### Call sequences -/

/-- A call on `DAG<int>` that changes it. -/
inductive Op
  | addNode (n : Int)
  | addEdge (u v : Int)
  | removeEdge (u v : Int)
  | removeNode (n : Int)
  deriving DecidableEq, Repr

/-- The graph after a call; the results of `add_edge` and `remove_edge` are dropped. -/
def Op.apply (g : Dag) : Op → Dag
  | .addNode n => g.addNode n
  | .addEdge u v => (g.addEdge u v).2
  | .removeEdge u v => (g.removeEdge u v).2
  | .removeNode n => g.removeNode n

/-- The graph a call sequence builds from the empty one. -/
def run (ops : List Op) : Dag := ops.foldl Op.apply empty

theorem Acyclic.apply {g : Dag} (h : g.Acyclic) : ∀ op : Op, (op.apply g).Acyclic
  | .addNode n => h.addNode n
  | .addEdge u v => h.addEdge u v
  | .removeEdge _ _ => h.of_edge fun _ _ => Edge.of_removeEdge
  | .removeNode _ => h.of_edge fun _ _ => Edge.of_removeNode

theorem Acyclic.foldl {g : Dag} (h : g.Acyclic) (ops : List Op) :
    (ops.foldl Op.apply g).Acyclic := by
  induction ops generalizing g with
  | nil => exact h
  | cons op ops ih => exact ih (h.apply op)

/-- Every graph a sequence of `DAG` calls builds from the empty one has no self-loop and no
cycle, and in it `add_edge(u, v)` is refused exactly when `u = v` or `v` already reaches
`u`. -/
theorem dag_acyclic (ops : List Op) :
    (∀ u, ¬ (run ops).Edge u u ∧ ¬ Relation.TransGen (run ops).Edge u u) ∧
      ∀ u v, ((run ops).addEdge u v).1 = false ↔
        u = v ∨ Relation.TransGen (run ops).Edge v u := by
  have hacyc := acyclic_empty.foldl ops
  exact ⟨fun u => ⟨fun h => hacyc u (.single h), hacyc u⟩, addEdge_fst_eq_false _⟩

end Dag

end FileBackup
