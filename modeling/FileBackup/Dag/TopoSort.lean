import FileBackup.Dag.Acyclic

/-!
# `DAG::topological_sort` and the in-degree counter

`topological_sort` runs Kahn's algorithm on a copy of `in_degree_`: it queues the keys whose
count is `0`, pops a node, appends it, lowers the count of each dependent and queues those that
reach `0`, and throws when fewer nodes came out than `adj_` has keys.

A repeated `add_edge(u, v)` of an edge already present passes the cycle check, inserts nothing
into `adj_[u]`, and still increments `in_degree_[v]` (`Wf.surplus_addEdge_of_edge`). The counter
then exceeds the number of edges into `v` for good, so `get_ready_nodes` never reports `v`
after the edge is removed, and Kahn's loop never lowers `v`'s count to `0`: the sort of an
acyclic graph throws.

* `relax`, `topoLoop`, `topologicalSort`;
* `duplicate_edge_miscounted`: two `add_edge(1, 2)` calls leave `in_degree_[2] = 2` with one
  edge into `2`, and after `remove_edge(1, 2)` node `2` has no incoming edge and is not ready;
* `topologicalSort_duplicate_edge`: on that acyclic graph the loop empties its queue after
  node `1` and `topological_sort` throws `"DAG: cycle detected"`.
-/

namespace FileBackup

namespace Dag

/-- One dependent `next` of the popped node: `--deg[next]`, queued when the count reaches `0`.
`deg[next]` of a missing key reads `0`. -/
def relax (st : List Int × (Int → Int)) (next : Int) : List Int × (Int → Int) :=
  let d := st.2 next - 1
  (if d = 0 then st.1 ++ [next] else st.1, Function.update st.2 next d)

/-- The `while` loop of `topological_sort` from queue `q`, counts `deg` and output `res`: the
output and the queue when the loop stops. Each node is queued at most once, so `fuel`, the
keys plus the edges, outlasts the queue. -/
def kahn (g : Dag) : Nat → List Int → (Int → Int) → List Int → List Int × List Int
  | 0, q, _, res => (res, q)
  | _ + 1, [], _, res => (res, [])
  | fuel + 1, node :: q, deg, res =>
    let st := (g.succs node).foldl relax (q, deg)
    kahn g fuel st.1 st.2 (res ++ [node])

/-- The loop of `topological_sort` from the copy `deg` of `in_degree_` and the keys whose count
is `0`, in the map's iteration order. -/
def topoLoop (g : Dag) : List Int × List Int :=
  kahn g (g.nodes.length + g.edgeCount + 1) (g.nodes.filter fun v => g.inDegree v = 0)
    (fun v => if v ∈ g.nodes then g.inDegree v else 0) []

/-- `topological_sort()`: the loop's output, or the exception when it holds fewer nodes than
`adj_` has keys. -/
def topologicalSort (g : Dag) : Except String (List Int) :=
  if g.topoLoop.1.length ≠ g.nodes.length then .error "DAG: cycle detected"
  else .ok g.topoLoop.1

/-- Two `add_edge(1, 2)` calls leave `in_degree_[2] = 2` while only node `1` has `2` among its
dependents; after `remove_edge(1, 2)` no key has `2` among its dependents, yet `in_degree_[2]`
is `1` and `get_ready_nodes` does not report `2`. -/
theorem duplicate_edge_miscounted :
    let g : Dag := run [.addEdge 1 2, .addEdge 1 2]
    let g' : Dag := run [.addEdge 1 2, .addEdge 1 2, .removeEdge 1 2]
    g.inDegree 2 = 2 ∧ g.inCount 2 = 1 ∧
      2 ∈ g'.nodes ∧ (∀ u ∈ g'.nodes, 2 ∉ g'.adj u) ∧ g'.inDegree 2 = 1 ∧
      2 ∉ g'.getReadyNodes := by
  decide

/-- The graph of two `add_edge(1, 2)` calls is acyclic, yet `topological_sort` throws: the loop
empties its queue after outputting node `1`, with node `2`'s count stuck at `1`. -/
theorem topologicalSort_duplicate_edge :
    let g : Dag := run [.addEdge 1 2, .addEdge 1 2]
    g.Acyclic ∧ g.nodes = [1, 2] ∧ g.topoLoop = ([1], []) ∧
      g.topologicalSort = .error "DAG: cycle detected" :=
  ⟨acyclic_empty.foldl _, by decide, by decide, rfl⟩

end Dag

end FileBackup
