import EvmFlow.Proofs.Graph

/-!
# Both ends of an edge

An edge is listed twice: at its source as leaving and at its target as entering. Turning a graph
around exchanges the two lists, and each change of a graph commutes with turning it around. So what
is proved about the edges that leave a node holds of those that enter it.

* `Graph.reverse`: the graph with every edge turned around;
* `Graph.Incident`: a graph is well-formed, and so is its reverse, and its counters are right;
* `Graph.edgesFrom`, `Graph.edgesTo`: the edges at a node, in the order in which they were added,
  with equations for the changes;
* `Graph.outgoingEdges`: the edges that leave a live node, none of them stale;
* `Graph.Incident.edge?_discard`, **`Graph.Incident.edge?_retain`**: exactly the edges at the
  removed nodes go, although they go one by one and a node that goes shortens the lists of others;
* `Graph.Built`: the graphs that the changes of a graph can make out of the empty one;
* **`Graph.Built.incident`**: they list every edge at both ends.
-/

namespace EvmFlow.Graph

variable {β : Type}

/-! ## Turning a graph around -/

/-- The edge in the other direction. -/
def Edge.reverse (x : Edge) : Edge := ⟨x.target, x.source, x.branch⟩

/-- The node with its two lists of edges exchanged. -/
def Node.reverse (v : Node β) : Node β := ⟨v.label, v.entering, v.leaving⟩

/-- The graph with every edge turned around. -/
def reverse (g : Graph β) : Graph β :=
  { g with
    nodes := g.nodes.map (Option.map Node.reverse)
    edges := g.edges.map (Option.map Edge.reverse) }

/-- The edges that a node lists as entering it; none if it is not live. -/
def entering (g : Graph β) (n : NodeId) : List EdgeId := ((g.node? n).map (·.entering)).getD []

section Reverse

variable (g : Graph β) (n m : NodeId) (e : EdgeId)

theorem node?_reverse : g.reverse.node? n = (g.node? n).map Node.reverse := by
  unfold node? reverse
  cases n.toNat? with
  | none => rfl
  | some i =>
    simp only [Option.bind_some, Array.getElem?_map]
    cases g.nodes[i]? with
    | none => rfl
    | some v => cases v <;> rfl

theorem edge?_reverse : g.reverse.edge? e = (g.edge? e).map Edge.reverse := by
  unfold edge? reverse
  cases e.toNat? with
  | none => rfl
  | some i =>
    simp only [Option.bind_some, Array.getElem?_map]
    cases g.edges[i]? with
    | none => rfl
    | some x => cases x <;> rfl

theorem contains_reverse : g.reverse.contains n = g.contains n := by
  rw [contains, node?_reverse, Option.isSome_map, contains]

theorem leaving_reverse : g.reverse.leaving n = g.entering n := by
  rw [leaving, node?_reverse, entering]
  cases g.node? n <;> rfl

theorem entering_of_node? {g : Graph β} {n : NodeId} {v : Node β} (h : g.node? n = some v) :
    g.entering n = v.entering := by
  rw [entering, h]
  rfl

theorem reverse_modifyNode {f k : Node β → Node β} (hf : ∀ v, (f v).reverse = k v.reverse) :
    (g.modifyNode n f).reverse = g.reverse.modifyNode n k := by
  unfold modifyNode reverse
  cases n.toNat? with
  | none => rfl
  | some i =>
    have hnodes : (g.nodes.modify i (Option.map f)).map (Option.map Node.reverse) =
        (g.nodes.map (Option.map Node.reverse)).modify i (Option.map k) := by
      apply Array.ext_getElem?
      intro j
      simp only [Array.getElem?_map, Array.getElem?_modify]
      split
      · cases g.nodes[j]? with
        | none => rfl
        | some v => cases v with
          | none => rfl
          | some v => exact congrArg (some ∘ some) (hf v)
      · rfl
    exact congrArg (Graph.mk · _ _ _) hnodes

theorem modifyNode_comm {f k : Node β → Node β} (hf : ∀ v, f (k v) = k (f v)) :
    (g.modifyNode n f).modifyNode m k = (g.modifyNode m k).modifyNode n f := by
  unfold modifyNode
  cases n.toNat? with
  | none => cases m.toNat? <;> rfl
  | some i =>
    cases m.toNat? with
    | none => rfl
    | some j =>
      have hnodes : (g.nodes.modify i (Option.map f)).modify j (Option.map k) =
          (g.nodes.modify j (Option.map k)).modify i (Option.map f) := by
        apply Array.ext_getElem?
        intro k
        simp only [Array.getElem?_modify]
        by_cases hi : i = k <;> by_cases hj : j = k <;>
          simp only [hi, hj, if_true, if_false, Option.map_map]
        congr 1
        funext v
        cases v with
        | none => rfl
        | some v => exact congrArg some (hf v).symm
      exact congrArg (Graph.mk · _ _ _) hnodes

theorem reverse_modifyLabel (f : β → β) :
    (g.modifyLabel n f).reverse = g.reverse.modifyLabel n f :=
  g.reverse_modifyNode n fun _ => rfl

theorem reverse_addNode (b : β) : (g.addNode b).2.reverse = (g.reverse.addNode b).2 := by
  unfold addNode reverse
  rw [Array.map_push]
  rfl

theorem reverse_link (source target : NodeId) (branch : Branch) :
    (g.link source target branch).2.reverse = (g.reverse.link target source branch).2 := by
  have hedges : (g.pushEdge ⟨source, target, branch⟩).reverse =
      g.reverse.pushEdge ⟨target, source, branch⟩ := by
    unfold reverse pushEdge
    rw [Array.map_push]
    rfl
  have hsize : g.reverse.edges.size = g.edges.size := Array.size_map
  rw [link_snd, link_snd, hsize,
    reverse_modifyNode (k := fun v => { v with leaving := (g.edges.size : Int) :: v.leaving }),
    reverse_modifyNode (k := fun v => { v with entering := (g.edges.size : Int) :: v.entering }),
    hedges, modifyNode_comm]
  · exact fun _ => rfl
  · exact fun _ => rfl
  · exact fun _ => rfl

theorem reverse_unlink : (g.unlink e).reverse = g.reverse.unlink e := by
  cases hx : g.edge? e with
  | none =>
    have hx' : g.reverse.edge? e = none := by rw [edge?_reverse, hx]; rfl
    rw [unlink_of_none g e hx, unlink_of_none g.reverse e hx']
  | some x =>
    obtain ⟨i, rfl, -⟩ := exists_of_edge? hx
    have hx' : g.reverse.edge? i = some x.reverse := by rw [edge?_reverse, hx]; rfl
    have hnodes : ((g.modifyNode x.source
        fun v => { v with leaving := v.leaving.erase i }).modifyNode x.target
        fun v => { v with entering := v.entering.erase i }).reverse =
        (g.reverse.modifyNode x.target fun v => { v with leaving := v.leaving.erase i }).modifyNode
          x.source fun v => { v with entering := v.entering.erase i } := by
      rw [reverse_modifyNode (k := fun v => { v with leaving := v.leaving.erase i }),
        reverse_modifyNode (k := fun v => { v with entering := v.entering.erase i }),
        modifyNode_comm]
      · exact fun _ => rfl
      · exact fun _ => rfl
      · exact fun _ => rfl
    have hedges : (g.edges.setIfInBounds i none).map (Option.map Edge.reverse) =
        (g.edges.map (Option.map Edge.reverse)).setIfInBounds i none := by
      apply Array.ext_getElem?
      intro j
      simp only [Array.getElem?_map, Array.getElem?_setIfInBounds, Array.size_map]
      split
      · split <;> rfl
      · rfl
    rw [unlink_of_some g hx, unlink_of_some g.reverse hx']
    exact congr (congr (congr (congrArg Graph.mk (congrArg nodes hnodes)) hedges)
      (congrArg nodeCount hnodes)) rfl

theorem reverse_vacate : (g.vacate n).reverse = g.reverse.vacate n := by
  unfold vacate
  cases n.toNat? with
  | none => rfl
  | some i =>
    have hnodes : (g.nodes.setIfInBounds i none).map (Option.map Node.reverse) =
        (g.nodes.map (Option.map Node.reverse)).setIfInBounds i none := by
      apply Array.ext_getElem?
      intro j
      simp only [Array.getElem?_map, Array.getElem?_setIfInBounds, Array.size_map]
      split
      · split <;> rfl
      · rfl
    exact congrArg (Graph.mk · _ _ _) hnodes

end Reverse

/-! ## Edges listed at both ends -/

/-- Every edge is listed at its source and at its target, nodes list no other edges, and the
counters are right. -/
structure Incident (g : Graph β) : Prop where
  forward : g.WellFormed
  backward : g.reverse.WellFormed
  counted : g.Counted

section Edges

variable (g : Graph β) (n : NodeId)

/-- The edges that leave a node, in the order in which they were added. -/
def edgesFrom : List Edge := (g.leaving n).reverse.filterMap g.edge?

/-- The edges that enter a node, in the order in which they were added. -/
def edgesTo : List Edge := (g.entering n).reverse.filterMap g.edge?

variable {g n}

theorem WellFormed.mem_edgesFrom (h : g.WellFormed) {x : Edge} :
    x ∈ g.edgesFrom n ↔ x.source = n ∧ ∃ e, g.edge? e = some x := by
  unfold edgesFrom
  rw [List.mem_filterMap]
  constructor
  · rintro ⟨e, he, hx⟩
    obtain ⟨y, hy, hsource⟩ := h.leaving (List.mem_reverse.mp he)
    obtain rfl := Option.some.inj (hx.symm.trans hy)
    exact ⟨hsource, e, hx⟩
  · rintro ⟨rfl, e, hx⟩
    exact ⟨e, List.mem_reverse.mpr (h.source hx), hx⟩

theorem Incident.mem_entering (h : g.Incident) {e : EdgeId} :
    e ∈ g.entering n ↔ ∃ x, g.edge? e = some x ∧ x.target = n := by
  rw [← leaving_reverse]
  constructor
  · intro he
    obtain ⟨y, hy, hsource⟩ := h.backward.leaving he
    rw [edge?_reverse] at hy
    obtain ⟨x, hx, rfl⟩ := Option.map_eq_some_iff.mp hy
    exact ⟨x, hx, hsource⟩
  · rintro ⟨x, hx, rfl⟩
    exact h.backward.source (x := x.reverse) (by rw [edge?_reverse, hx]; rfl)

theorem Incident.mem_edgesTo (h : g.Incident) {x : Edge} :
    x ∈ g.edgesTo n ↔ x.target = n ∧ ∃ e, g.edge? e = some x := by
  unfold edgesTo
  simp only [List.mem_filterMap, List.mem_reverse, h.mem_entering]
  constructor
  · rintro ⟨e, ⟨y, hy, htarget⟩, hx⟩
    obtain rfl := Option.some.inj (hx.symm.trans hy)
    exact ⟨htarget, e, hx⟩
  · rintro ⟨htarget, e, hx⟩
    exact ⟨e, ⟨x, hx, htarget⟩, hx⟩

variable (g n) in
/-- The edges that leave a node, in the order in which they were added, where a stale handle is a
fault. -/
def outgoingEdges : Except Fault (List Edge) := do (← g.outgoing n).mapM g.edge

theorem mapM_edge {es : List EdgeId} (hes : ∀ e ∈ es, ∃ x, g.edge? e = some x) :
    es.mapM g.edge = .ok (es.filterMap g.edge?) := by
  induction es with
  | nil => rfl
  | cons e es ih =>
    obtain ⟨⟨x, hx⟩, hes⟩ := List.forall_mem_cons.mp hes
    rw [List.mapM_cons, List.filterMap_cons_some hx]
    exact bind_eq_ok.mpr ⟨x, edge_eq_ok.mpr hx, bind_eq_ok.mpr ⟨_, ih hes, rfl⟩⟩

/-- A live node of a well-formed graph lists no stale edge. -/
theorem WellFormed.outgoingEdges_eq (h : g.WellFormed) (hn : g.contains n = true) :
    g.outgoingEdges n = .ok (g.edgesFrom n) := by
  obtain ⟨v, hv⟩ := contains_iff.mp hn
  have hleaving := leaving_of_node? hv
  refine bind_eq_ok.mpr ⟨v.outgoing, bind_eq_ok.mpr ⟨v, node_eq_ok.mpr hv, rfl⟩, ?_⟩
  rw [edgesFrom, hleaving]
  refine mapM_edge fun e he => ?_
  have hmem : e ∈ g.leaving n := hleaving ▸ List.mem_reverse.mp he
  obtain ⟨x, hx, -⟩ := h.leaving hmem
  exact ⟨x, hx⟩

/-- The edges that leave a node are seen through the edges it lists. -/
theorem edgesFrom_congr {γ : Type} {g' : Graph γ} (hleaving : g'.leaving n = g.leaving n)
    (hedge : ∀ e, g'.edge? e = g.edge? e) : g'.edgesFrom n = g.edgesFrom n := by
  unfold edgesFrom
  rw [hleaving]
  exact List.filterMap_congr fun e _ => hedge e

theorem edgesFrom_of_not_contains (hn : g.contains n = false) : g.edgesFrom n = [] := by
  have hnone : g.node? n = none := by simpa [contains] using hn
  rw [edgesFrom, leaving, hnone]
  rfl

theorem edgesFrom_modifyLabel (m : NodeId) (f : β → β) :
    (g.modifyLabel m f).edgesFrom n = g.edgesFrom n :=
  edgesFrom_congr (g.leaving_modifyLabel m n f) (g.edge?_modifyLabel m f)

theorem edgesFrom_addNode (b : β) : (g.addNode b).2.edgesFrom n = g.edgesFrom n :=
  edgesFrom_congr (g.leaving_addNode n b) (g.edge?_addNode b)

theorem WellFormed.edgesFrom_link (h : g.WellFormed) {source target : NodeId}
    (hs : g.contains source = true) (branch : Branch) :
    (g.link source target branch).2.edgesFrom n =
      g.edgesFrom n ++ if n = source then [⟨source, target, branch⟩] else [] := by
  have hold : (g.leaving n).reverse.filterMap (g.link source target branch).2.edge? =
      g.edgesFrom n := by
    apply List.filterMap_congr
    intro e he
    obtain ⟨x, hx, -⟩ := h.leaving (List.mem_reverse.mp he)
    rw [edge?_link, if_neg]
    rintro rfl
    rw [edge?_size] at hx
    cases hx
  have hnew : (g.link source target branch).2.edge? g.edges.size =
      some ⟨source, target, branch⟩ := by rw [edge?_link, if_pos rfl]
  rw [edgesFrom, leaving_link g _ _ _ _ hs]
  split
  · rw [List.reverse_cons, List.filterMap_append, hold, List.filterMap_cons_some hnew]
    rfl
  · rw [hold, List.append_nil]

/-- An edge that a node has once and lists first can be taken away. -/
theorem WellFormed.edgesFrom_unlink (h : g.WellFormed) {e : EdgeId} {x : Edge} {rest : List Edge}
    (hx : g.edge? e = some x) (hedges : g.edgesFrom x.source = x :: rest) (hrest : x ∉ rest) :
    (g.unlink e).edgesFrom x.source = rest := by
  obtain ⟨l₁, f, l₂, hl, hnone, hf, hl₂⟩ := List.filterMap_eq_cons_iff.mp hedges
  have hnodup : (l₁ ++ f :: l₂).Nodup := hl ▸ List.nodup_reverse.mpr (h.nodup x.source)
  obtain rfl : e = f := by
    have hmem : e ∈ l₁ ++ f :: l₂ := hl ▸ List.mem_reverse.mpr (h.source hx)
    rcases List.mem_append.mp hmem with hmem | hmem
    · rw [hnone e hmem] at hx
      cases hx
    · rcases List.mem_cons.mp hmem with heq | hmem
      · exact heq
      · exact absurd (hl₂ ▸ List.mem_filterMap.mpr ⟨e, hmem, hx⟩) hrest
  have hfresh : e ∉ l₂ := (List.nodup_cons.mp (List.nodup_append.mp hnodup).2.1).1
  have hleaving : (g.unlink e).leaving x.source = l₂.reverse ++ l₁.reverse := by
    have hold : g.leaving x.source = l₂.reverse ++ e :: l₁.reverse := by
      rw [← List.reverse_reverse (g.leaving _), hl]
      simp
    rw [leaving_unlink g _ _ hx, if_pos rfl, hold,
      List.erase_append_right _ (by simpa using hfresh), List.erase_cons_head]
  have hfirst : l₁.filterMap (g.unlink e).edge? = [] := by
    rw [List.filterMap_eq_nil_iff]
    intro k hk
    rw [edge?_unlink, hnone k hk, ite_self]
  have hlast : l₂.filterMap (g.unlink e).edge? = l₂.filterMap g.edge? := by
    apply List.filterMap_congr
    intro k hk
    have hne : k ≠ e := fun heq => hfresh (heq ▸ hk)
    rw [edge?_unlink, if_neg hne]
  rw [edgesFrom, hleaving, List.reverse_append, List.reverse_reverse, List.reverse_reverse,
    List.filterMap_append, hfirst, hlast, hl₂, List.nil_append]

end Edges

namespace Incident

variable {g : Graph β}

theorem contains_source (h : g.Incident) {e : EdgeId} {x : Edge} (hx : g.edge? e = some x) :
    g.contains x.source = true := contains_of_mem_leaving (h.forward.source hx)

theorem exists_outgoing (h : g.Incident) {e : EdgeId} {x : Edge} (hx : g.edge? e = some x) :
    ∃ es, g.outgoing x.source = .ok es ∧ e ∈ es := by
  obtain ⟨v, hv⟩ := contains_iff.mp (h.contains_source hx)
  have hmem := h.forward.source hx
  rw [leaving_of_node? hv] at hmem
  exact ⟨v.outgoing, bind_eq_ok.mpr ⟨v, node_eq_ok.mpr hv, rfl⟩, List.mem_reverse.mpr hmem⟩

theorem exists_incoming (h : g.Incident) {n : NodeId} (hn : g.contains n = true) :
    ∃ es, g.incoming n = .ok es ∧ ∀ e ∈ es, ∃ x, g.edge? e = some x ∧ x.target = n := by
  obtain ⟨v, hv⟩ := contains_iff.mp hn
  refine ⟨v.incoming, bind_eq_ok.mpr ⟨v, node_eq_ok.mpr hv, rfl⟩, fun e he => ?_⟩
  have hmem : e ∈ g.entering n := entering_of_node? hv ▸ List.mem_reverse.mp he
  exact h.mem_entering.mp hmem

theorem edgesTo_eq_nil (h : g.Incident) :
    g.edgesTo n = [] ↔ ∀ e x, g.edge? e = some x → x.target ≠ n := by
  rw [List.eq_nil_iff_forall_not_mem]
  simp only [h.mem_edgesTo, not_and, not_exists]
  exact ⟨fun hnone e x hx htarget => hnone x htarget e hx,
    fun hnone x htarget e hx => hnone e x hx htarget⟩

/-- What the look-ups show decides whether a graph lists its edges at both ends. -/
theorem of_node? {g' : Graph β} (h : g.Incident) (hedge : ∀ e, g'.edge? e = g.edge? e)
    (hnode : ∀ n v, g.node? n = some v → ∃ b, g'.node? n = some { v with label := b })
    (hlive : ∀ n, g'.contains n = true → g.contains n = true)
    (hcount : g'.nodeCount = g.nodeCount ∧ g'.edgeCount = g.edgeCount) : g'.Incident := by
  have hlists : ∀ n, g'.leaving n = g.leaving n ∧ g'.entering n = g.entering n := by
    intro n
    cases hv : g.node? n with
    | none =>
      have hv' : g'.node? n = none := by
        by_contra hne
        have hlive := hlive n (Option.isSome_iff_ne_none.mpr hne)
        rw [contains, hv] at hlive
        cases hlive
      simp [leaving, entering, hv, hv']
    | some v =>
      obtain ⟨b, hb⟩ := hnode n v hv
      simp [leaving, entering, hv, hb]
  have hstill : ∀ n, g.contains n = true → g'.contains n = true := by
    intro n hn
    obtain ⟨v, hv⟩ := contains_iff.mp hn
    obtain ⟨b, hb⟩ := hnode n v hv
    exact contains_iff.mpr ⟨_, hb⟩
  have hnodes : g'.nodeIds = g.nodeIds :=
    nodeIds_congr fun n => Bool.eq_iff_iff.mpr ⟨hlive n, hstill n⟩
  have hedges : g'.edgeIds = g.edgeIds := edgeIds_congr fun e => by rw [hedge]
  refine ⟨h.forward.of_eq hedge (fun n => (hlists n).1) hstill, h.backward.of_eq ?_ ?_ ?_,
    hcount.1.trans (hnodes ▸ h.counted.nodes), hcount.2.trans (hedges ▸ h.counted.edges)⟩
  · intro e
    rw [edge?_reverse, edge?_reverse, hedge]
  · intro n
    rw [leaving_reverse, leaving_reverse, (hlists n).2]
  · intro n hn
    rw [contains_reverse] at hn ⊢
    exact hstill n hn

theorem modifyLabel (h : g.Incident) (n : NodeId) (f : β → β) : (g.modifyLabel n f).Incident :=
  ⟨h.forward.modifyLabel n f, by rw [reverse_modifyLabel]; exact h.backward.modifyLabel n f,
    h.counted.modifyLabel n f⟩

theorem addNode (h : g.Incident) (b : β) : (g.addNode b).2.Incident :=
  ⟨h.forward.addNode b, by rw [reverse_addNode]; exact h.backward.addNode b, h.counted.addNode b⟩

theorem link (h : g.Incident) {source target : NodeId} (hs : g.contains source = true)
    (ht : g.contains target = true) (branch : Branch) :
    (g.link source target branch).2.Incident := by
  refine ⟨h.forward.link hs ht branch, ?_, h.counted.link source target branch⟩
  rw [reverse_link]
  rw [← contains_reverse] at hs ht
  exact h.backward.link ht hs branch

theorem unlink (h : g.Incident) (e : EdgeId) : (g.unlink e).Incident :=
  ⟨h.forward.unlink e, by rw [reverse_unlink]; exact h.backward.unlink e, h.counted.unlink e⟩

end Incident

/-! ## Removal of nodes -/

section Discard

variable {g : Graph β} {keep : NodeId → Bool} {n : NodeId} {e : EdgeId}

theorem Incident.mem_leaving (h : g.Incident) :
    e ∈ g.leaving n ↔ ∃ x, g.edge? e = some x ∧ x.source = n := by
  constructor
  · exact h.forward.leaving
  · rintro ⟨x, hx, rfl⟩
    exact h.forward.source hx

theorem Incident.foldl_unlink (h : g.Incident) (es : List EdgeId) :
    (es.foldl Graph.unlink g).Incident := by
  induction es generalizing g with
  | nil => exact h
  | cons e es ih => exact ih (h.unlink e)

/-- Exactly the edges at a node go with it. -/
theorem Incident.edge?_discard (h : g.Incident) (n : NodeId) (e : EdgeId) :
    (g.discard n).edge? e = (g.edge? e).filter fun x => x.source != n && x.target != n := by
  unfold Graph.discard
  split
  · next v hv =>
    have hlisted : ∀ {x}, g.edge? e = some x →
        (e ∈ v.outgoing ++ v.incoming ↔ x.source = n ∨ x.target = n) := by
      intro x hx
      rw [List.mem_append, Node.outgoing, Node.incoming, List.mem_reverse, List.mem_reverse,
        ← leaving_of_node? hv, ← entering_of_node? hv, h.mem_entering, h.mem_leaving, hx]
      simp
    rw [edge?_vacate, edge?_foldl_unlink]
    cases hx : g.edge? e with
    | none => simp
    | some x =>
      rw [Option.filter_some]
      by_cases hat : x.source = n ∨ x.target = n
      · rw [if_pos ((hlisted hx).mpr hat), if_neg]
        simpa [← not_or] using hat
      · rw [if_neg (mt (hlisted hx).mp hat), if_pos]
        simpa [not_or] using hat
  · next hstale =>
    have hdead : g.contains n = false := by
      rw [contains, hstale]
      rfl
    cases hx : g.edge? e with
    | none => rfl
    | some x =>
      have hs : x.source ≠ n := by
        rintro rfl
        rw [h.contains_source hx] at hdead
        cases hdead
      have ht : x.target ≠ n := by
        rintro rfl
        rw [h.forward.target hx] at hdead
        cases hdead
      simp [Option.filter_some, hs, ht]

theorem Incident.discard (h : g.Incident) (n : NodeId) : (g.discard n).Incident := by
  cases hv : g.node? n with
  | none =>
    rw [Graph.discard, hv]
    exact h
  | some v =>
    have hdiscard : g.discard n = ((v.outgoing ++ v.incoming).foldl Graph.unlink g).vacate n := by
      rw [Graph.discard, hv]
    have hfree : ∀ e x, ((v.outgoing ++ v.incoming).foldl Graph.unlink g).edge? e = some x →
        x.source ≠ n ∧ x.target ≠ n := by
      intro e x hx
      rw [← edge?_vacate _ n, ← hdiscard, h.edge?_discard] at hx
      simpa using (Option.filter_eq_some_iff.mp hx).2
    have hunlinked := h.foldl_unlink (v.outgoing ++ v.incoming)
    refine ⟨?_, ?_, h.counted.discard n⟩
    · rw [hdiscard]
      exact hunlinked.forward.vacate hfree
    · rw [hdiscard, reverse_vacate]
      refine hunlinked.backward.vacate fun e x hx => ?_
      rw [edge?_reverse] at hx
      obtain ⟨y, hy, rfl⟩ := Option.map_eq_some_iff.mp hx
      exact (hfree e y hy).symm

theorem Incident.foldl_discard (h : g.Incident) (ns : List NodeId) :
    (ns.foldl Graph.discard g).Incident := by
  induction ns generalizing g with
  | nil => exact h
  | cons n ns ih => exact ih (h.discard n)

theorem Incident.retain (h : g.Incident) (keep : NodeId → Bool) : (g.retain keep).Incident :=
  h.foldl_discard _

/-- Exactly the edges at the nodes of a list go with them, also those between two of them. -/
theorem Incident.edge?_foldl_discard (h : g.Incident) (ns : List NodeId) (e : EdgeId) :
    (ns.foldl Graph.discard g).edge? e =
      (g.edge? e).filter fun x => !ns.contains x.source && !ns.contains x.target := by
  induction ns generalizing g with
  | nil => cases hx : g.edge? e <;> simp [hx, Option.filter]
  | cons n ns ih =>
    rw [List.foldl_cons, ih (h.discard n), h.edge?_discard, Option.filter_filter]
    congr 1
    funext x
    simp only [List.contains_cons, bne, Bool.not_or]
    cases x.source == n <;> cases x.target == n <;> simp

/-- The edges that stay are those both of whose ends are kept. -/
theorem Incident.edge?_retain (h : g.Incident) (keep : NodeId → Bool) (e : EdgeId) :
    (g.retain keep).edge? e = (g.edge? e).filter fun x => keep x.source && keep x.target := by
  rw [Graph.retain, h.edge?_foldl_discard]
  cases hx : g.edge? e with
  | none => rfl
  | some x =>
    have hrefused : ∀ {n}, g.contains n = true → (g.refused keep).contains n = !keep n := by
      intro n hn
      rw [Bool.eq_iff_iff, List.contains_iff_mem, mem_refused, Bool.not_eq_true', hn]
      simp
    rw [Option.filter_some, Option.filter_some, hrefused (h.contains_source hx),
      hrefused (h.forward.target hx), Bool.not_not, Bool.not_not]

/-! ### The order of the edges that stay -/

theorem leaving_unlink_sublist (g : Graph β) (e : EdgeId) (n : NodeId) :
    ((g.unlink e).leaving n).Sublist (g.leaving n) := by
  cases hx : g.edge? e with
  | none => rw [unlink_of_none g e hx]
  | some x =>
    rw [leaving_unlink g _ _ hx]
    split
    · exact List.erase_sublist
    · exact List.Sublist.refl _

theorem leaving_foldl_sublist {α : Type} {f : Graph β → α → Graph β} {m : NodeId}
    (hf : ∀ g a, ((f g a).leaving m).Sublist (g.leaving m)) (l : List α) (g : Graph β) :
    ((l.foldl f g).leaving m).Sublist (g.leaving m) := by
  induction l generalizing g with
  | nil => exact List.Sublist.refl _
  | cons a l ih => exact (ih (f g a)).trans (hf g a)

theorem leaving_discard_sublist (g : Graph β) (n m : NodeId) :
    ((g.discard n).leaving m).Sublist (g.leaving m) := by
  unfold discard
  split
  · rw [leaving_vacate]
    split
    · exact List.nil_sublist _
    · exact leaving_foldl_sublist (fun k e => k.leaving_unlink_sublist e m) _ g
  · exact List.Sublist.refl _

theorem leaving_retain_sublist (g : Graph β) (keep : NodeId → Bool) (m : NodeId) :
    ((g.retain keep).leaving m).Sublist (g.leaving m) :=
  leaving_foldl_sublist (fun k n => k.leaving_discard_sublist n m) _ g

/-- A part of a list without duplicates, in the order of the list, is told by its members. -/
theorem eq_filter_of_sublist {α : Type} {part l : List α} (hsub : part.Sublist l) (hl : l.Nodup)
    {p : α → Bool} (hp : ∀ a ∈ l, a ∈ part ↔ p a = true) : part = l.filter p := by
  induction hsub with
  | slnil => rfl
  | cons a hsub ih =>
    obtain ⟨ha, hl⟩ := List.nodup_cons.mp hl
    obtain ⟨hfirst, hp⟩ := List.forall_mem_cons.mp hp
    rw [List.filter_cons_of_neg fun hpa => ha (hsub.subset (hfirst.mpr hpa))]
    exact ih hl hp
  | cons_cons a hsub ih =>
    obtain ⟨ha, hl⟩ := List.nodup_cons.mp hl
    obtain ⟨hfirst, hp⟩ := List.forall_mem_cons.mp hp
    rw [List.filter_cons_of_pos (hfirst.mp List.mem_cons_self)]
    refine congrArg (a :: ·) (ih hl fun b hb => ?_)
    rw [← hp b hb, List.mem_cons, or_iff_right (ne_of_mem_of_not_mem hb ha)]

/-- A node lists those of its edges that stay, in the same order. -/
theorem Incident.leaving_retain (h : g.Incident) (keep : NodeId → Bool) (n : NodeId) :
    (g.retain keep).leaving n = (g.leaving n).filter fun e => ((g.retain keep).edge? e).isSome := by
  refine eq_filter_of_sublist (g.leaving_retain_sublist keep n) (h.forward.nodup n) fun e he => ?_
  obtain ⟨x, hx, hsource⟩ := h.forward.leaving he
  rw [(h.retain keep).mem_leaving, Option.isSome_iff_exists]
  refine ⟨fun ⟨y, hy, _⟩ => ⟨y, hy⟩, fun ⟨y, hy⟩ => ⟨y, hy, ?_⟩⟩
  rw [h.edge?_retain] at hy
  rw [← hsource, Option.some.inj (hx.symm.trans (Option.filter_eq_some_iff.mp hy).1)]

/-- From a node that is kept lead the edges of old to nodes that are kept. -/
theorem Incident.edgesFrom_retain (h : g.Incident) (hn : keep n = true) :
    (g.retain keep).edgesFrom n = (g.edgesFrom n).filter fun x => keep x.target := by
  rw [edgesFrom, h.leaving_retain, edgesFrom, ← List.filter_reverse,
    List.filterMap_filter, List.filter_filterMap]
  apply List.filterMap_congr
  intro e he
  obtain ⟨x, hx, rfl⟩ := h.forward.leaving (List.mem_reverse.mp he)
  cases hk : keep x.target <;> simp [h.edge?_retain, hx, hn, hk, Option.filter_some]

end Discard

/-! ## The graphs that the operations make -/

/-- The graphs that arise from the empty one by the changes of a graph. -/
inductive Built : Graph β → Prop
  | empty : Built {}
  | addNode {g : Graph β} (b : β) : Built g → Built (g.addNode b).2
  | addEdge {g g' : Graph β} {source target : NodeId} (branch : Branch) {e : EdgeId} :
      Built g → (Graph.addEdge source target branch).apply g = .ok (e, g') → Built g'
  | removeEdge {g g' : Graph β} {e : EdgeId} :
      Built g → (Graph.removeEdge e).apply g = .ok ((), g') → Built g'
  | removeNode {g g' : Graph β} {n : NodeId} {b : β} :
      Built g → (Graph.removeNode n).apply g = .ok (b, g') → Built g'
  | retainNodes {g g' : Graph β} {keep : NodeId → Bool} {removed : List NodeId} :
      Built g → (Graph.retainNodes keep).apply g = .ok (removed, g') → Built g'
  | modifyLabel {g : Graph β} (n : NodeId) (f : β → β) : Built g → Built (g.modifyLabel n f)

section

variable {g g' : Graph β} {source target n : NodeId} {branch : Branch} {e : EdgeId}

theorem addEdge_eq_ok : (addEdge source target branch).apply g = .ok (e, g') ↔
    g.contains source = true ∧ g.contains target = true ∧
      g.link source target branch = (e, g') := by
  rw [Change.apply_eq_ok]
  by_cases hlive : g.contains source = true ∧ g.contains target = true
  · rw [outcome_addEdge hlive.1 hlive.2]
    simp [hlive, Prod.ext_iff]
  · have hstale : g.contains source = false ∨ g.contains target = false := by
      rwa [← Bool.not_eq_true, ← Bool.not_eq_true, ← not_and_or]
    rw [outcome_addEdge_of_stale hstale, ← and_assoc]
    simp [hlive]

theorem removeEdge_eq_ok : (removeEdge e).apply g = .ok ((), g') ↔
    (∃ x, g.edge? e = some x) ∧ g.unlink e = g' := by
  rw [Change.apply_eq_ok]
  cases hx : g.edge? e with
  | none => simp [outcome_removeEdge_of_stale hx]
  | some x => simp [outcome_removeEdge hx]

theorem removeNode_eq_ok {b : β} :
    (removeNode n).apply g = .ok (b, g') ↔ g.label? n = some b ∧ g.discard n = g' := by
  rw [Change.apply_eq_ok, label?]
  cases hv : g.node? n with
  | none =>
    have hstale : g.contains n = false := by rw [contains, hv]; rfl
    simp [outcome_removeNode_of_stale hstale]
  | some v => simp [outcome_removeNode hv]

end

theorem Built.link {g : Graph β} (h : g.Built) {source target : NodeId}
    (hs : g.contains source = true) (ht : g.contains target = true) (branch : Branch) :
    (g.link source target branch).2.Built :=
  .addEdge branch h (addEdge_eq_ok.mpr ⟨hs, ht, rfl⟩)

/-- Static edges between live nodes can be added in turn. -/
theorem Built.foldl_link {edges : List (NodeId × NodeId)} {g : Graph β} (h : g.Built)
    (hends : ∀ e ∈ edges, e.1 ∈ g.nodeIds ∧ e.2 ∈ g.nodeIds) :
    (edges.foldl (fun g e => (g.link e.1 e.2 .static).2) g).Built := by
  induction edges generalizing g with
  | nil => exact h
  | cons e edges ih =>
    obtain ⟨hfirst, hrest⟩ := List.forall_mem_cons.mp hends
    refine ih (h.link (mem_nodeIds.mp hfirst.1) (mem_nodeIds.mp hfirst.2) .static) ?_
    rwa [nodeIds_link]

theorem Built.foldl_addNode (labels : List β) {g : Graph β} (h : g.Built) :
    (labels.foldl (fun g b => (g.addNode b).2) g).Built :=
  List.foldlRecOn _ _ h fun _ hg b _ => hg.addNode b

/-- **Graphs made by the operations list every edge at both ends.** -/
theorem Built.incident {g : Graph β} (h : g.Built) : g.Incident := by
  induction h with
  | empty =>
    have hempty : ({} : Graph β).reverse = {} := by simp [reverse]
    exact ⟨wellFormed_empty, by rw [hempty]; exact wellFormed_empty, counted_empty⟩
  | addNode b _ ih => exact ih.addNode b
  | addEdge branch _ hadd ih =>
    obtain ⟨hs, ht, hlink⟩ := addEdge_eq_ok.mp hadd
    have hadded := ih.link hs ht branch
    rwa [hlink] at hadded
  | removeEdge _ hremove ih =>
    obtain ⟨-, rfl⟩ := removeEdge_eq_ok.mp hremove
    exact ih.unlink _
  | removeNode _ hremove ih =>
    obtain ⟨-, rfl⟩ := removeNode_eq_ok.mp hremove
    exact ih.discard _
  | retainNodes _ hretain ih =>
    rw [apply_retainNodes] at hretain
    cases hretain
    exact ih.retain _
  | modifyLabel n f _ ih => exact ih.modifyLabel n f

end EvmFlow.Graph
