import ProgDep.Format
import ProgDep.Proofs.ControlFrontier
import ProgDep.Proofs.DependenceEdges
import ProgDep.Proofs.Drawing
import ProgDep.Proofs.TreeQueries

/-! Which labels a drawing shows. A line that holds half of a pair cannot be printed, and the only halves in a
    drawing are those in the labels of blocks that it shows: all blocks in the flow graph, those on a way from the
    entry or to the exit in the two trees, those that end the dominance of a node or whose dominance ends, those
    that decide or are decided about, and those whose instructions are in the dependence graph. -/

namespace ProgDep

open Dominance Text

namespace Text.Letter

variable {ls ms : List Letter}

/-- No letter is half of a pair. -/
def Whole (ls : List Letter) : Prop := ∀ h, .half h ∉ ls

theorem whole_nil : Whole [] := by
  simp [Whole]

theorem whole_append_iff : Whole (ls ++ ms) ↔ Whole ls ∧ Whole ms := by
  simp [Whole, not_or, forall_and]

theorem whole_flatMap_iff {α : Type} {g : α → List Letter} {xs : List α} :
    Whole (xs.flatMap g) ↔ ∀ x ∈ xs, Whole (g x) := by
  simp only [Whole, List.mem_flatMap, not_exists, not_and]
  exact ⟨fun h x hx a => h a x hx, fun h a x hx => h x hx a⟩

/-- Letters are a text if none of them is half of a pair. -/
theorem exists_text?_iff : (∃ s, text? ls = some s) ↔ Whole ls := by
  have hchars : (ls.mapM char?).isSome = true ↔ Whole ls := by
    induction ls with
    | nil => simp [Whole]
    | cons a ls ih =>
      rw [List.mapM_cons, ← List.singleton_append, whole_append_iff, ← ih]
      cases a with
      | char c => cases ls.mapM char? <;> simp [char?, Whole]
      | half h => simp [char?, Whole]
  rw [← hchars, ← Option.isSome_iff_exists, text?, Option.isSome_map]

end Text.Letter

open Letter

namespace Dot

variable {source target attributes : List Letter} {title : String} {lines : List (List Letter)}

theorem whole_plain (s : String) : Whole (plain s) := by
  intro h hmem
  obtain ⟨_, _, hc⟩ := List.mem_map.1 hmem
  cases hc

theorem whole_quoted_iff : Whole (quoted source) ↔ Whole source := by
  simp [quoted, whole_append_iff, whole_plain]

theorem whole_labelled (label : Option String) : Whole (labelled label) := by
  cases label with
  | none => simp [labelled, Whole]
  | some text => simp [labelled, whole_append_iff, whole_quoted_iff, whole_plain]

theorem whole_node_iff (h : Whole attributes) : Whole (node source attributes) ↔ Whole source := by
  simp [node, whole_append_iff, whole_quoted_iff, whole_plain, h]

theorem whole_edge_iff (h : Whole attributes) :
    Whole (edge source target attributes) ↔ Whole source ∧ Whole target := by
  simp [edge, whole_append_iff, whole_quoted_iff, whole_plain, h]

theorem whole_digraph_iff : Whole (digraph title lines) ↔ ∀ line ∈ lines, Whole line := by
  simp [digraph, whole_append_iff, whole_flatMap_iff, whole_plain]

end Dot

open Dot

namespace Flow

variable {f : Function} {c : Flow} {t : DominatorTree Node} {k : Control} {s : Settings} {a b : BlockId}
  {n m : Node}

/-- The dominance of `n` ends at `m`: it dominates a predecessor and does not strictly dominate `m`. -/
def Borders (c : Flow) (n m : Node) : Prop :=
  (∃ q, (q, m) ∈ c.graph.arcs ∧ c.graph.Dominates .entry n q) ∧
    ¬(n ≠ m ∧ c.graph.Dominates .entry n m)

/-- The drawing in a format shows the label of a block. -/
def Shows (c : Flow) (includeUnreachable : Bool) (b : BlockId) : Format → Prop
  | .flow => True
  | .dominators => c.graph.Reaches .entry (.block b)
  | .postDominators => c.graph.Reaches (.block b) .exit
  | .frontiers => ∃ n, c.Borders (.block b) n ∨ c.Borders n (.block b)
  | .control => ∃ a, (c.Decides a b ∨ c.Strands a b) ∨ (c.Decides b a ∨ c.Strands b a)
  | .dependence => includeUnreachable = true ∨ c.graph.Reaches .entry (.block b)

theorem mem_blocks_of_reaches_entry (hc : build f = .ok c) (h : c.graph.Reaches .entry (.block b)) :
    b ∈ c.blocks.map Block.id := by
  obtain ⟨w, hw⟩ := h
  rcases hw.eq_snoc with ⟨hentry, _⟩ | ⟨_, _, _, harc, _⟩
  · cases hentry
  · exact mem_blocks_of_arc hc harc

theorem mem_blocks_of_reaches_exit (hc : build f = .ok c) (h : c.graph.Reaches (.block b) .exit) :
    b ∈ c.blocks.map Block.id := by
  obtain ⟨w, hw⟩ := h
  cases hw with
  | cons harc _ => exact mem_blocks_of_arc_block hc harc

theorem mem_blocks_of_borders (hc : build f = .ok c)
    (h : ∃ n, c.Borders (.block b) n ∨ c.Borders n (.block b)) : b ∈ c.blocks.map Block.id := by
  obtain ⟨n, ⟨⟨q, _, hq⟩, _⟩ | ⟨⟨q, harc, _⟩, _⟩⟩ := h
  · exact mem_blocks_of_reaches_entry hc hq.reaches
  · exact mem_blocks_of_arc hc harc

/-- The entry and the exit have no halves in their names, and no other node is shown than blocks of the
    function. -/
theorem forall_whole_iff (hc : build f = .ok c) {R : Node → Prop}
    (hR : ∀ b, R (.block b) → b ∈ c.blocks.map Block.id) : (∀ n, R n → Whole n.letters) ↔
      ∀ b ∈ f.blocks, R (.block b.id) → Whole b.label.name.letters := by
  rw [(build_eq_ok hc).1] at hR
  constructor
  · exact fun h b _ hb => h _ hb
  · intro h n hn
    cases n with
    | entry => exact whole_plain _
    | exit => exact whole_plain _
    | block b =>
      obtain ⟨b, hb, rfl⟩ := List.mem_map.1 (hR b hn)
      exact h b hb hn

/-! ### Format by format -/

theorem whole_letters_iff (hc : build f = .ok c) :
    Whole c.letters ↔ ∀ b ∈ f.blocks, Whole b.label.name.letters := by
  rw [letters, whole_digraph_iff, List.forall_mem_map, ← forall_ends_iff hc (whole_plain _) (whole_plain _)]
  exact forall₂_congr fun e _ => whole_edge_iff (whole_labelled _)

theorem whole_render_tree_iff {g : Digraph Node} {r : Node} (h : t.IsFor g r) (hr : Whole r.letters)
    (title : String) : Whole (t.render title Node.letters) ↔ ∀ n, g.Reaches r n → Whole n.letters := by
  rw [DominatorTree.render, whole_digraph_iff, List.forall_mem_map]
  simp only [whole_edge_iff whole_nil]
  constructor
  · intro hall n hn
    by_cases hroot : n = r
    · rwa [hroot]
    · obtain ⟨l, hl⟩ := Option.isSome_iff_exists.1 (h.parent?_isSome hn)
      exact (hall (l, n) (h.mem_arcs.2 ⟨hroot, hl⟩)).2
  · rintro hall ⟨l, n⟩ harc
    obtain ⟨_, hl⟩ := h.mem_arcs.1 harc
    exact ⟨hall l (h.dominates_of_parent hl).reaches, hall n (h.reaches_of_parent hl)⟩

theorem whole_renderFrontiers_iff (hc : build f = .ok c) (h : t.IsFor c.graph .entry) :
    Whole (Format.renderFrontiers (t.frontiers c.graph t.nodes)) ↔
      ∀ n, (∃ m, c.Borders n m ∨ c.Borders m n) → Whole n.letters := by
  have hentry : ∀ q, (q, .entry) ∉ c.graph.arcs := fun q => not_arc_entry hc
  have hfrontier : ∀ n m, m ∈ t.frontier c.graph n ↔ c.Borders n m := fun n m => h.mem_frontier hentry
  rw [Format.renderFrontiers, whole_digraph_iff, List.forall_mem_flatMap, DominatorTree.frontiers,
    List.forall_mem_map]
  simp only [List.forall_mem_map, whole_edge_iff whole_nil]
  constructor
  · rintro hall n ⟨m, hm | hm⟩
    · obtain ⟨⟨q, _, hq⟩, _⟩ := id hm
      exact (hall n (h.mem_nodes.2 hq.reaches) m ((hfrontier n m).2 hm)).1
    · obtain ⟨⟨q, _, hq⟩, _⟩ := id hm
      exact (hall m (h.mem_nodes.2 hq.reaches) n ((hfrontier m n).2 hm)).2
  · intro hall n _ m hm
    have hborders := (hfrontier n m).1 hm
    exact ⟨hall n ⟨m, Or.inl hborders⟩, hall m ⟨n, Or.inr hborders⟩⟩

/-- Only blocks of the function decide and are decided about. -/
theorem mem_blocks_of_controls (hc : build f = .ok c) (h : c.Decides a b ∨ c.Strands a b) :
    a ∈ c.blocks.map Block.id ∧ b ∈ c.blocks.map Block.id := by
  obtain ⟨_, s, hs, hthrough⟩ := Control.exists_through_iff.2 h
  exact ⟨mem_blocks_of_reaches hc hs hthrough.reaches, mem_blocks_of_arc_block hc hs⟩

theorem mem_edges_control (hc : build f = .ok c) (ht : t.IsFor c.graph.flip .exit)
    (hk : Control.build c t = .ok k) : (a, b) ∈ k.edges ↔ c.Decides a b ∨ c.Strands a b := by
  obtain ⟨k', hk', hblocks, harcs⟩ := Control.exists_build hc ht
  cases hk.symm.trans hk'
  have hmem : (a, b) ∈ k.edges ↔ a ∈ k.blocks ∧ (a, b) ∈ k.arcs := by
    simp [Control.edges, Digraph.mem_out, Control.graph]
  rw [hmem, harcs, Control.exists_through_iff, ← and_assoc, and_iff_right_iff_imp, hblocks]
  exact mem_blocks_of_controls hc

theorem whole_render_control_iff (hc : build f = .ok c) (ht : t.IsFor c.graph.flip .exit)
    (hk : Control.build c t = .ok k) (includeUnreachable : Bool) : Whole k.render ↔
      ∀ b ∈ f.blocks, c.Shows includeUnreachable b.id .control → Whole b.label.name.letters := by
  rw [Control.render, whole_digraph_iff, List.forall_mem_map]
  simp only [whole_edge_iff whole_nil]
  constructor
  · rintro hall b _ ⟨a, ha | ha⟩
    · exact (hall _ ((mem_edges_control hc ht hk).2 ha)).1
    · exact (hall _ ((mem_edges_control hc ht hk).2 ha)).2
  · rintro hall ⟨a, b⟩ he
    have hcontrols := (mem_edges_control hc ht hk).1 he
    obtain ⟨ha, hb⟩ := mem_blocks_of_controls hc hcontrols
    rw [(build_eq_ok hc).1] at ha hb
    obtain ⟨a, hmem, rfl⟩ := List.mem_map.1 ha
    obtain ⟨b, hmem', rfl⟩ := List.mem_map.1 hb
    exact ⟨hall b hmem' ⟨a.id, Or.inl hcontrols⟩, hall a hmem ⟨b.id, Or.inr hcontrols⟩⟩

theorem mem_keptBlocks {b : Block} : b ∈ DependenceGraph.keptBlocks s c ↔
    b ∈ c.blocks ∧ c.Shows s.includeUnreachable b.id .dependence := by
  rw [DependenceGraph.keptBlocks, Shows]
  split
  · rename_i h
    simp [h]
  · rename_i h
    rw [List.mem_filter, decide_eq_true_eq, postOrder, Digraph.mem_postOrder, or_iff_right h]

theorem whole_siteLetters_iff {x : Site} :
    Whole (DependenceGraph.siteLetters x) ↔ Whole x.block.label.name.letters := by
  simp [DependenceGraph.siteLetters, whole_append_iff, whole_plain]

theorem forall_sites_iff (hc : build f = .ok c) (d : DefUse) (k : Control) :
    (∀ x ∈ (DependenceGraph.build s c d k).sites, Whole (DependenceGraph.siteLetters x.1)) ↔
      ∀ b ∈ f.blocks, c.Shows s.includeUnreachable b.id .dependence → Whole b.label.name.letters := by
  have hsites : ∀ x, x ∈ (DependenceGraph.build s c d k).sites ↔
      ∃ b ∈ DependenceGraph.keptBlocks s c, x ∈ b.sites := fun x => List.mem_flatMap
  simp only [hsites, mem_keptBlocks, whole_siteLetters_iff, (build_eq_ok hc).1]
  constructor
  · intro h b hb hshows
    -- the block has a terminator, so at least one instruction
    obtain ⟨t, ht, _⟩ := exists_resolves hc hb
    have hne : b.body ≠ [] := List.ne_nil_of_mem (List.mem_of_getLast? ht.last)
    obtain ⟨i, hi⟩ := List.exists_mem_of_ne_nil _ hne
    obtain ⟨j, hj⟩ := List.mem_iff_getElem?.1 hi
    exact h (⟨j, b.id⟩, i) ⟨b, ⟨hb, hshows⟩, Block.mem_sites.2 ⟨rfl, hj⟩⟩
  · rintro h x ⟨b, ⟨hb, hshows⟩, hx⟩
    rw [(Block.mem_sites.1 hx).1]
    exact h b hb hshows

/-- An edge is between instructions of the graph, and shows no other labels. -/
theorem whole_render_dependence_iff (hc : build f = .ok c) (d : DefUse) (k : Control) :
    Whole (DependenceGraph.build s c d k).render ↔
      ∀ b ∈ f.blocks, c.Shows s.includeUnreachable b.id .dependence → Whole b.label.name.letters := by
  rw [← forall_sites_iff hc d k, DependenceGraph.render, whole_digraph_iff, List.forall_mem_append,
    List.forall_mem_map]
  simp only [whole_node_iff (whole_labelled _), and_iff_left_iff_imp]
  intro hall line hline
  have hinstruction : ∀ x ∈ (DependenceGraph.build s c d k).instructions,
      Whole (DependenceGraph.siteLetters x) := by
    intro x hx
    obtain ⟨y, hy, rfl⟩ := List.mem_map.1 hx
    exact hall y hy
  obtain ⟨e, he, hline⟩ := List.mem_flatMap.1 hline
  obtain ⟨kind, _, rfl⟩ := List.mem_map.1 hline
  obtain ⟨x, hx, he⟩ := List.mem_flatMap.1 he
  obtain ⟨p, hp, rfl⟩ := List.mem_map.1 he
  refine (whole_edge_iff (whole_plain _)).2 ⟨hinstruction x hx, hinstruction p.1 ?_⟩
  rw [DependenceGraph.producers] at hp
  obtain ⟨q, hq, rfl⟩ := List.mem_map.1 hp
  obtain ⟨dependence, hfound, rfl⟩ := List.mem_map.1 (mem_distinct.1 hq)
  exact (DependenceGraph.mem_found_build.1 (List.mem_of_mem_filter hfound)).2

end Flow

/-- A drawing that can be printed: no label that it shows holds half of a pair, and the numbers in a flow graph can
    be written. -/
def Legible (f : Function) (includeUnreachable : Bool) (x : Format) : Prop :=
  ∀ c, Flow.build f = .ok c → (x = .flow → c.IsWritable) ∧
    ∀ b ∈ f.blocks, c.Shows includeUnreachable b.id x → Whole b.label.name.letters

theorem legible_iff {f : Function} {c : Flow} (hc : Flow.build f = .ok c) {includeUnreachable : Bool}
    {x : Format} : Legible f includeUnreachable x ↔ (x = .flow → c.IsWritable) ∧
      ∀ b ∈ f.blocks, c.Shows includeUnreachable b.id x → Whole b.label.name.letters := by
  simp [Legible, hc]

end ProgDep
