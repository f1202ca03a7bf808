import FileBackup.Basic

/-!
# The dependency graph (`datastructures/dag.h`)

`DAG<int>` keeps two hash maps: `adj_` (a node to the set of its dependents) and `in_degree_`.
Both get and lose keys only in `add_node` and `remove_node`, which touch the two maps
together, so the model keeps one key list `nodes` (in iteration order) beside the two maps,
read as total functions: a value at a missing key is never read, since every reader first
checks the key (`succs`), and `add_node` resets both values when it adds a key.

* `addNode`, `addEdge` (with the breadth-first `hasPath` cycle check), `removeEdge`,
  `removeNode`, `getReadyNodes`, `getDependents`;
* `Dag.Wf`: the representation facts every reachable graph keeps, among them that
  `in_degree_[v]` is at least the number of edges into `v` (`inCount`). A duplicate
  `add_edge` raises `in_degree_` without adding an edge, so it is not always equal;
* `not_edge_of_mem_getReadyNodes`: a node that `get_ready_nodes` reports has no incoming edge.
-/

namespace FileBackup

/-- `DAG<int>`: the key list, `adj_` and `in_degree_`. -/
structure Dag where
  nodes : List Int
  adj : Int → List Int
  inDegree : Int → Int

namespace Dag

/-- The empty graph. -/
def empty : Dag := ⟨[], fun _ => [], fun _ => 0⟩

/-- `adj_.find(u)`: the dependents of `u`, none when `u` is not a key. -/
def succs (g : Dag) (u : Int) : List Int := if u ∈ g.nodes then g.adj u else []

/-- The edge `u → v` (`v` depends on `u`). -/
def Edge (g : Dag) (u v : Int) : Prop := u ∈ g.nodes ∧ v ∈ g.adj u

/-- The number of edges into `v`. -/
def inCount (g : Dag) (v : Int) : Nat := g.nodes.countP (fun u => v ∈ g.adj u)

/-- What `in_degree_[v]` counts above the edges into `v`. -/
def surplus (g : Dag) (v : Int) : Int := g.inDegree v - g.inCount v

/-- The number of edges, which bounds the iterations of `has_path`. -/
def edgeCount (g : Dag) : Nat := (g.nodes.map fun u => (g.adj u).length).sum

/-- `unordered_set::insert`. -/
def setInsert (s : List Int) (x : Int) : List Int := if x ∈ s then s else s ++ [x]

/-- `add_node`: a new key with no dependents and in-degree `0`; a present key is kept. -/
def addNode (g : Dag) (n : Int) : Dag :=
  if n ∈ g.nodes then g
  else ⟨g.nodes ++ [n], Function.update g.adj n [], Function.update g.inDegree n 0⟩

/-- The loop of `has_path`: pop `cur`; stop on `dst`; skip a visited node; otherwise mark it
and push its dependents. `fuel` bounds the iterations. -/
def bfs (g : Dag) (dst : Int) : Nat → List Int → List Int → Bool
  | 0, _, _ => false
  | _ + 1, [], _ => false
  | fuel + 1, cur :: q, visited =>
    if cur = dst then true
    else if cur ∈ visited then bfs g dst fuel q visited
    else bfs g dst fuel (q ++ g.succs cur) (cur :: visited)

/-- `has_path(from, to)`, breadth first. Each node is expanded once, so `edgeCount + 2`
iterations empty the queue. -/
def hasPath (g : Dag) (u v : Int) : Bool := bfs g v (g.edgeCount + 2) [u] []

/-- `add_edge(from, to)`: add both ends, refuse a self-loop or an edge closing a cycle, then
insert `to` into `adj_[from]` and increment `in_degree_[to]`. -/
def addEdge (g : Dag) (u v : Int) : Bool × Dag :=
  let g := (g.addNode u).addNode v
  if u = v then (false, g)
  else if g.hasPath v u then (false, g)
  else (true, ⟨g.nodes, Function.update g.adj u (setInsert (g.adj u) v),
    Function.update g.inDegree v (g.inDegree v + 1)⟩)

/-- `remove_edge(from, to)`: decrement `in_degree_[to]` only when the edge was there. -/
def removeEdge (g : Dag) (u v : Int) : Bool × Dag :=
  if u ∉ g.nodes then (false, g)
  else if v ∈ g.adj u then
    (true, ⟨g.nodes, Function.update g.adj u ((g.adj u).erase v),
      Function.update g.inDegree v (g.inDegree v - 1)⟩)
  else (false, g)

/-- `remove_node(node)`: erase `node` from every dependents set, decrement the in-degree of
each of its own dependents, and erase its keys. -/
def removeNode (g : Dag) (n : Int) : Dag :=
  let adj' := fun u => (g.adj u).erase n
  ⟨g.nodes.erase n, adj',
    if n ∈ g.nodes then fun v => g.inDegree v - (adj' n).count v else g.inDegree⟩

/-- `get_ready_nodes`: the keys of `in_degree_` with value `0`. -/
def getReadyNodes (g : Dag) : List Int := g.nodes.filter fun v => g.inDegree v = 0

/-- `get_dependents(node)`. -/
def getDependents (g : Dag) (n : Int) : List Int := g.succs n

@[simp] theorem mem_addNode_nodes {g : Dag} {n v : Int} :
    v ∈ (g.addNode n).nodes ↔ v ∈ g.nodes ∨ v = n := by
  unfold addNode; split_ifs with h
  · exact ⟨Or.inl, fun h' => h'.elim id (· ▸ h)⟩
  · simp

theorem mem_setInsert {s : List Int} {x y : Int} : y ∈ setInsert s x ↔ y ∈ s ∨ y = x := by
  unfold setInsert; split_ifs with h
  · exact ⟨Or.inl, fun h' => h'.elim id (· ▸ h)⟩
  · simp

theorem nodup_setInsert {s : List Int} (hs : s.Nodup) (x : Int) : (setInsert s x).Nodup := by
  unfold setInsert; split_ifs with h
  · exact hs
  · exact hs.append (List.nodup_singleton x) (by simpa using h)

@[simp] theorem mem_getReadyNodes {g : Dag} {v : Int} :
    v ∈ g.getReadyNodes ↔ v ∈ g.nodes ∧ g.inDegree v = 0 := by
  simp [getReadyNodes]

/-! ### The representation invariant -/

/-- The facts every graph reachable from `empty` keeps: duplicate-free keys and sets, edges
between keys, and an in-degree that bounds the number of edges into each key. -/
structure Wf (g : Dag) : Prop where
  nodup : g.nodes.Nodup
  adj_nodup : ∀ u, (g.adj u).Nodup
  closed : ∀ u ∈ g.nodes, ∀ v ∈ g.adj u, v ∈ g.nodes
  inCount_le : ∀ v ∈ g.nodes, (g.inCount v : Int) ≤ g.inDegree v

theorem wf_empty : empty.Wf :=
  ⟨List.nodup_nil, fun _ => List.nodup_nil, by simp [empty], by simp [empty]⟩

/-- Changing a counted predicate at one member of a duplicate-free list adds at most one. -/
theorem countP_le_succ_of_imp {l : List Int} (hl : l.Nodup) {p q : Int → Bool} {a : Int}
    (h : ∀ x ∈ l, q x → p x ∨ x = a) : l.countP q ≤ l.countP p + 1 := by
  induction l with
  | nil => simp
  | cons x l ih =>
    obtain ⟨hx, hl⟩ := List.nodup_cons.1 hl
    simp only [List.countP_cons]
    by_cases hxa : x = a
    · subst hxa
      have : l.countP q ≤ l.countP p := List.countP_mono_left fun y hy hq =>
        (h y (List.mem_cons_of_mem _ hy) hq).resolve_right fun e => hx (e ▸ hy)
      split_ifs <;> omega
    · have := ih hl fun y hy => h y (List.mem_cons_of_mem _ hy)
      have hpq : q x → p x := fun hq => (h x (List.mem_cons_self _ _) hq).resolve_right hxa
      by_cases hqx : q x
      · rw [if_pos hqx, if_pos (hpq hqx)]; omega
      · rw [if_neg hqx]; split_ifs <;> omega

theorem countP_eq_erase_add {l : List Int} {a : Int} (ha : a ∈ l) (p : Int → Bool) :
    l.countP p = (l.erase a).countP p + if p a then 1 else 0 := by
  rw [(List.perm_cons_erase ha).countP_eq, List.countP_cons]

/-- A new key comes with no edges, so no in-count changes. -/
theorem inCount_addNode (g : Dag) (n v : Int) : (g.addNode n).inCount v = g.inCount v := by
  unfold addNode inCount; split_ifs with hn
  · rfl
  · rw [List.countP_append]
    simp only [List.countP_singleton, Function.update_same, List.not_mem_nil,
      decide_False, Bool.false_eq_true, ↓reduceIte, add_zero]
    exact List.countP_congr fun u hu => by
      simp only [Function.update_noteq (fun (e : u = n) => hn (e ▸ hu))]

theorem surplus_addNode {g : Dag} {v : Int} (hv : v ∈ g.nodes) (n : Int) :
    (g.addNode n).surplus v = g.surplus v := by
  unfold surplus; rw [inCount_addNode]
  unfold addNode; split_ifs with hn
  · rfl
  · show Function.update g.inDegree n 0 v - _ = _
    rw [Function.update_noteq fun (e : v = n) => hn (e ▸ hv)]

theorem Wf.addNode {g : Dag} (hg : g.Wf) (n : Int) : (g.addNode n).Wf := by
  unfold Dag.addNode
  split_ifs with hn
  · exact hg
  refine ⟨hg.nodup.append (List.nodup_singleton n) (by simpa using hn), fun u => ?_,
    fun u hu v hv => ?_, fun v hv => ?_⟩
  · by_cases h : u = n
    · subst h; simp
    · simpa [Function.update_noteq h] using hg.adj_nodup u
  · have hu' : u ∈ g.nodes := by
      rcases List.mem_append.1 hu with hu | hu
      · exact hu
      · simp only [List.mem_singleton] at hu; subst hu; simp at hv
    have hun : u ≠ n := fun e => hn (e ▸ hu')
    simp only [Function.update_noteq hun] at hv
    exact List.mem_append_left _ (hg.closed u hu' v hv)
  · have hcount := inCount_addNode g n v
    unfold Dag.addNode at hcount
    rw [if_neg hn] at hcount
    show ((Dag.inCount _ v : Nat) : Int) ≤ Function.update g.inDegree n 0 v
    rw [hcount]
    by_cases hvn : v = n
    · subst hvn
      have : g.inCount v = 0 := List.countP_eq_zero.2 fun u hu hv' =>
        hn (hg.closed u hu v (by simpa using hv'))
      simp [this]
    · rw [Function.update_noteq hvn]
      exact hg.inCount_le v (by simpa [hvn] using hv)

/-- The last step of `add_edge`: the edge `u → v` between two keys. -/
def insertEdge (g : Dag) (u v : Int) : Dag :=
  ⟨g.nodes, Function.update g.adj u (setInsert (g.adj u) v),
    Function.update g.inDegree v (g.inDegree v + 1)⟩

@[simp] theorem insertEdge_nodes (g : Dag) (u v : Int) : (g.insertEdge u v).nodes = g.nodes :=
  rfl

@[simp] theorem insertEdge_adj (g : Dag) (u v : Int) :
    (g.insertEdge u v).adj = Function.update g.adj u (setInsert (g.adj u) v) := rfl

theorem addEdge_eq (g : Dag) (u v : Int) :
    g.addEdge u v =
      if u = v then (false, (g.addNode u).addNode v)
      else if ((g.addNode u).addNode v).hasPath v u then (false, (g.addNode u).addNode v)
      else (true, ((g.addNode u).addNode v).insertEdge u v) := rfl

theorem Wf.insertEdge {g : Dag} (hg : g.Wf) {u v : Int} (hu : u ∈ g.nodes)
    (hv : v ∈ g.nodes) : (g.insertEdge u v).Wf := by
  have hadj : ∀ w x, w ∈ Function.update g.adj u (setInsert (g.adj u) v) x ↔
      w ∈ g.adj x ∨ (x = u ∧ w = v) := by
    intro w x
    by_cases hx : x = u
    · subst hx; simp [mem_setInsert]
    · simp [Function.update_noteq hx, hx]
  refine ⟨hg.nodup, fun x => ?_, fun x hx w hw => ?_, fun w hw => ?_⟩
  · by_cases hx : x = u
    · subst hx; simpa using nodup_setInsert (hg.adj_nodup x) v
    · simpa [Function.update_noteq hx] using hg.adj_nodup x
  · rcases (hadj w x).1 hw with hw | ⟨-, rfl⟩
    · exact hg.closed x hx w hw
    · exact hv
  · have hle := hg.inCount_le w hw
    show ((g.nodes.countP fun x => w ∈ Function.update g.adj u (setInsert (g.adj u) v) x :
      Nat) : Int) ≤ Function.update g.inDegree v (g.inDegree v + 1) w
    by_cases hwv : w = v
    · subst hwv
      have := countP_le_succ_of_imp (q := fun x => w ∈ Function.update g.adj u _ x)
        (p := fun x => w ∈ g.adj x) (a := u) hg.nodup fun x _ hq => by
          rcases (hadj w x).1 (by simpa using hq) with h | ⟨h, -⟩
          · exact Or.inl (by simpa using h)
          · exact Or.inr h
      simp only [Function.update_same]
      unfold inCount at hle
      omega
    · rw [Function.update_noteq hwv]
      refine le_trans (le_of_eq ?_) hle
      congr 1
      exact List.countP_congr fun x _ => by simp [hadj, hwv]

/-- Inserting an edge that is already there raises the in-degree of its target and adds no
edge. -/
theorem surplus_insertEdge_of_mem {g : Dag} {u v : Int} (h : v ∈ g.adj u) :
    (g.insertEdge u v).surplus v = g.surplus v + 1 := by
  have hadj : (g.insertEdge u v).adj = g.adj := by
    rw [insertEdge_adj, setInsert, if_pos h, Function.update_eq_self]
  unfold surplus inCount
  rw [hadj, insertEdge_nodes]
  show Function.update g.inDegree v (g.inDegree v + 1) v - _ = _
  rw [Function.update_same]; omega

theorem Wf.addEdge {g : Dag} (hg : g.Wf) (u v : Int) : (g.addEdge u v).2.Wf := by
  have hg' := (hg.addNode u).addNode v
  rw [addEdge_eq]
  split_ifs
  · exact hg'
  · exact hg'
  · exact hg'.insertEdge (by simp) (by simp)

@[simp] theorem removeNode_nodes (g : Dag) (n : Int) : (g.removeNode n).nodes = g.nodes.erase n :=
  rfl

@[simp] theorem removeNode_adj (g : Dag) (n u : Int) :
    (g.removeNode n).adj u = (g.adj u).erase n := rfl

theorem Wf.mem_removeNode {g : Dag} (hg : g.Wf) {n v : Int} :
    v ∈ (g.removeNode n).nodes ↔ v ≠ n ∧ v ∈ g.nodes := by
  simp [hg.nodup.mem_erase_iff]

/-- `remove_node(n)` lowers the in-degree of each dependent of `n` by one and removes one edge
into it, so the surplus of every other node is kept. -/
theorem Wf.surplus_removeNode {g : Dag} (hg : g.Wf) {n v : Int} (hvn : v ≠ n) :
    (g.removeNode n).surplus v = g.surplus v := by
  have hcount : (g.removeNode n).inCount v = (g.nodes.erase n).countP fun u => v ∈ g.adj u :=
    List.countP_congr fun u _ => by simp [List.mem_erase_of_ne hvn]
  unfold surplus
  rw [hcount]
  show (if n ∈ g.nodes then fun v => g.inDegree v - ((g.adj n).erase n).count v
    else g.inDegree) v - _ = _
  split_ifs with hn
  · have := countP_eq_erase_add hn fun u => v ∈ g.adj u
    simp only [List.count_erase_of_ne hvn, List.count_eq_of_nodup (hg.adj_nodup n), inCount, this]
    by_cases hv : v ∈ g.adj n
    · simp only [hv, decide_True, ite_true]; push_cast; omega
    · simp [hv]
  · rw [List.erase_of_not_mem hn]; rfl

theorem Wf.removeNode {g : Dag} (hg : g.Wf) (n : Int) : (g.removeNode n).Wf := by
  refine ⟨hg.nodup.erase n, fun u => (hg.adj_nodup u).erase n, fun u hu v hv => ?_,
    fun v hv => ?_⟩
  · rw [removeNode_adj, (hg.adj_nodup u).mem_erase_iff] at hv
    rw [hg.mem_removeNode] at hu ⊢
    exact ⟨hv.1, hg.closed u hu.2 v hv.2⟩
  · obtain ⟨hvn, hv⟩ := hg.mem_removeNode.1 hv
    have h1 := hg.surplus_removeNode hvn
    have h2 := hg.inCount_le v hv
    unfold surplus at h1
    omega

/-! ### Edges under each operation -/

theorem Edge.addNode {g : Dag} {u v : Int} (h : g.Edge u v) (n : Int) : (g.addNode n).Edge u v := by
  unfold Dag.addNode; split_ifs with hn
  · exact h
  · refine ⟨List.mem_append_left _ h.1, ?_⟩
    show v ∈ Function.update g.adj n [] u
    rw [Function.update_noteq fun (e : u = n) => hn (e ▸ h.1)]; exact h.2

theorem Edge.insertEdge {g : Dag} {u v : Int} (h : g.Edge u v) (a b : Int) :
    (g.insertEdge a b).Edge u v := by
  refine ⟨h.1, ?_⟩
  by_cases hu : u = a
  · subst hu; simp [mem_setInsert, h.2]
  · simpa [Function.update_noteq hu] using h.2

theorem Edge.addEdge {g : Dag} {u v : Int} (h : g.Edge u v) (a b : Int) :
    (g.addEdge a b).2.Edge u v := by
  have h' := (h.addNode a).addNode b
  rw [addEdge_eq]; split_ifs
  · exact h'
  · exact h'
  · exact h'.insertEdge a b

theorem Wf.edge_removeNode {g : Dag} (hg : g.Wf) {n u v : Int} :
    (g.removeNode n).Edge u v ↔ g.Edge u v ∧ u ≠ n ∧ v ≠ n := by
  simp only [Edge, hg.mem_removeNode, removeNode_adj, (hg.adj_nodup u).mem_erase_iff]
  tauto

/-- When `add_edge` accepts an edge that is already there, the in-degree of its target goes up
with no new edge. -/
theorem Wf.surplus_addEdge_of_edge {g : Dag} (hg : g.Wf) {u v : Int} (he : g.Edge u v)
    (hacc : (g.addEdge u v).1 = true) : (g.addEdge u v).2.surplus v = g.surplus v + 1 := by
  have hv : v ∈ g.nodes := hg.closed u he.1 v he.2
  have he' := (he.addNode u).addNode v
  rw [addEdge_eq] at hacc ⊢
  split_ifs at hacc ⊢
  rw [surplus_insertEdge_of_mem he'.2, surplus_addNode (by simp [hv]), surplus_addNode hv]

/-- A node whose in-degree is above its edges is not ready. -/
theorem not_mem_getReadyNodes_of_surplus {g : Dag} {v : Int} (h : 0 < g.surplus v) :
    v ∉ g.getReadyNodes := by
  rw [mem_getReadyNodes]
  rintro ⟨-, h0⟩
  unfold surplus at h
  omega

/-- A node that `get_ready_nodes` reports has no incoming edge. -/
theorem not_edge_of_mem_getReadyNodes {g : Dag} (hg : g.Wf) {u v : Int}
    (hv : v ∈ g.getReadyNodes) : ¬ g.Edge u v := by
  rintro ⟨hu, huv⟩
  rw [mem_getReadyNodes] at hv
  have hpos : 0 < g.inCount v := List.countP_pos_iff.2 ⟨u, hu, by simpa using huv⟩
  have := hg.inCount_le v hv.1
  omega

end Dag

end FileBackup
