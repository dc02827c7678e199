import ProgDep.Proofs.TreeQueries

/-! A dominator tree as an order, and the views that it gives of that order.

    Two fingers that walk up from two nodes meet at the closest of their common dominators: the meet of
    the two in the order of dominance. A node is given by what dominates it, so the laws of meets are
    those of "and".

    The order itself is answered in five ways: by the numbers of a tour, by the way up from a node, by its
    children, by a worklist that goes down from it, and by the post-order of the tree. All of them go back
    to the parents, which are unique, so they cannot disagree. -/

namespace ProgDep

open Dominance

namespace Digraph.Dominates

variable {α : Type} {g : Digraph α} {m n r : α}

/-- Nodes with the same dominators are the same. -/
theorem ext (hm : g.Reaches r m) (h : ∀ z, g.Dominates r z m ↔ g.Dominates r z n) : m = n := by
  have hmn : g.Dominates r m n := (h m).1 (.refl hm)
  exact hmn.antisymm ((h n).2 (.refl hmn.1))

end Digraph.Dominates

namespace Dominance.DominatorTree

variable {α : Type} [DecidableEq α] {g : Digraph α} {t : DominatorTree α} {a b l m n r x y z : α}

/-- The nearest common dominator of two nodes is their meet in the order `dom`, in which just the nodes of
    the tree are below themselves. -/
structure HasMeets (t : DominatorTree α) (dom : α → α → Prop) : Prop where
  nodes : ∀ n, t.isDefined n = true ↔ dom n n
  outside : ∀ a b, t.nearestCommon? a b = none ↔ ¬(t.isDefined a = true ∧ t.isDefined b = true)
  /-- the fingers, of which the one earlier in post-order moves up, come together, and where they do is
      the greatest of the nodes that dominate both -/
  inside : ∀ a b, t.isDefined a = true → t.isDefined b = true → ∃ m, t.nearestCommon? a b = some m ∧
    t.table.Meeting a b m ∧ dom m a ∧ dom m b ∧ ∀ d, dom d a → dom d b → dom d m
  comm : ∀ a b, t.nearestCommon? a b = t.nearestCommon? b a
  assoc : ∀ a b c, (t.nearestCommon? a b).bind (t.nearestCommon? · c) =
    (t.nearestCommon? b c).bind (t.nearestCommon? a)
  idem : ∀ a, t.isDefined a = true → t.nearestCommon? a a = some a

/-- The views of a tree say the same, and each list is in its order. -/
structure ViewsAgree (t : DominatorTree α) : Prop where
  dominators : ∀ a b, t.dominates a b = true ↔ a ∈ t.dominators b
  descendants : ∀ a b, t.strictlyDominates a b = true ↔ b ∈ t.descendants a
  children : ∀ a b, b ∈ t.children a ↔ b ≠ t.root ∧ t.parent? b = some a
  /-- the way up has no repetition and goes from each node to its parent -/
  up : ∀ b, (t.dominators b).Nodup ∧ (t.dominators b).IsChain fun x y => t.parent? x = some y
  /-- it starts at the node and ends at the root; outside the tree there is none -/
  ends : ∀ b, (t.dominators b).head? = (if t.isDefined b then some b else none) ∧
    (t.dominators b).getLast? = if t.isDefined b then some t.root else none
  /-- the way down has no repetition and comes to each node after its parent -/
  down : ∀ a, (t.descendants a).Nodup ∧ ∀ x ∈ t.descendants a, ∀ y, y ≠ t.root →
    t.parent? y = some x → [x, y].Sublist (t.descendants a)
  /-- the post-order has each node of the tree once, before its parent -/
  postOrder : t.postOrder.Nodup ∧ (∀ n, n ∈ t.postOrder ↔ t.isDefined n = true) ∧
    ∀ n m, n ≠ t.root → t.parent? n = some m → [n, m].Sublist t.postOrder

namespace IsFor

/-! ### Common dominators -/

theorem linked_of_isDefined (h : t.IsFor g r) (ha : t.isDefined a = true) :
    (t.table.link? a).isSome := h.ready.isSome (h.isDefined_iff.1 ha)

theorem exists_meetAt (h : t.IsFor g r) (ha : t.isDefined a = true) (hb : t.isDefined b = true) :
    ∃ m, t.nearestCommon? a b = some m ∧ t.table.MeetAt a b m := by
  obtain ⟨m, hm, hat⟩ := h.rooted.exists_meet (h.linked_of_isDefined ha) (h.linked_of_isDefined hb)
  refine ⟨m, ?_, hat⟩
  rw [nearestCommon?, ha, hb]
  exact hm

theorem nearestCommon?_eq_none (h : t.IsFor g r) :
    t.nearestCommon? a b = none ↔ ¬(t.isDefined a = true ∧ t.isDefined b = true) := by
  constructor
  · rintro hnone ⟨ha, hb⟩
    obtain ⟨m, hm, _⟩ := h.exists_meetAt ha hb
    rw [hm] at hnone
    cases hnone
  · intro hout
    rw [nearestCommon?, if_neg (by rwa [Bool.and_eq_true])]

/-- The nearest common dominator is the node that is dominated by what dominates both. -/
theorem nearestCommon?_eq_some (h : t.IsFor g r) : t.nearestCommon? a b = some m ↔
    g.Reaches r m ∧ ∀ z, g.Dominates r z m ↔ g.Dominates r z a ∧ g.Dominates r z b := by
  have hmeet : ∀ {k}, t.table.MeetAt a b k → g.Reaches r a → g.Reaches r b →
      g.Reaches r k ∧ ∀ z, g.Dominates r z k ↔ g.Dominates r z a ∧ g.Dominates r z b := by
    intro k hat ha hb
    have hk : g.Reaches r k := h.ready.reaches hat.linked
    refine ⟨hk, fun z => ?_⟩
    rw [← h.exact k z hk, ← h.exact a z ha, ← h.exact b z hb]
    exact hat.above z
  constructor
  · intro hm
    have hdef : t.isDefined a = true ∧ t.isDefined b = true := by
      by_contra hout
      rw [h.nearestCommon?_eq_none.2 hout] at hm
      cases hm
    obtain ⟨k, hk, hat⟩ := h.exists_meetAt hdef.1 hdef.2
    rw [hm] at hk
    cases hk
    exact hmeet hat (h.isDefined_iff.1 hdef.1) (h.isDefined_iff.1 hdef.2)
  · rintro ⟨hm, hall⟩
    -- both nodes are in reach, since `m` dominates them
    obtain ⟨hma, hmb⟩ := (hall m).1 (.refl hm)
    obtain ⟨k, hk, hat⟩ := h.exists_meetAt (h.isDefined_iff.2 hma.1) (h.isDefined_iff.2 hmb.1)
    obtain ⟨hreach, hiff⟩ := hmeet hat hma.1 hmb.1
    rw [hk, Digraph.Dominates.ext hreach fun z => (hiff z).trans (hall z).symm]

theorem nearestCommon?_comm (h : t.IsFor g r) (a b : α) :
    t.nearestCommon? a b = t.nearestCommon? b a := by
  ext m
  rw [h.nearestCommon?_eq_some, h.nearestCommon?_eq_some]
  simp only [and_comm]

/-- Three nodes have a nearest common dominator, too, and two of them may be taken together first. -/
theorem bind_nearestCommon?_eq_some (h : t.IsFor g r) {c : α} :
    (t.nearestCommon? a b).bind (t.nearestCommon? · c) = some m ↔
      g.Reaches r m ∧
        ∀ z, g.Dominates r z m ↔ (g.Dominates r z a ∧ g.Dominates r z b) ∧ g.Dominates r z c := by
  rw [Option.bind_eq_some_iff]
  constructor
  · rintro ⟨k, hk, hm⟩
    obtain ⟨_, hk⟩ := h.nearestCommon?_eq_some.1 hk
    obtain ⟨hreach, hm⟩ := h.nearestCommon?_eq_some.1 hm
    exact ⟨hreach, fun z => by rw [hm, hk]⟩
  · rintro ⟨hreach, hm⟩
    obtain ⟨⟨hma, hmb⟩, _⟩ := (hm m).1 (.refl hreach)
    obtain ⟨k, hk, _⟩ := h.exists_meetAt (h.isDefined_iff.2 hma.1) (h.isDefined_iff.2 hmb.1)
    refine ⟨k, hk, h.nearestCommon?_eq_some.2 ⟨hreach, fun z => ?_⟩⟩
    rw [hm, (h.nearestCommon?_eq_some.1 hk).2]

theorem nearestCommon?_assoc (h : t.IsFor g r) (a b c : α) :
    (t.nearestCommon? a b).bind (t.nearestCommon? · c) =
      (t.nearestCommon? b c).bind (t.nearestCommon? a) := by
  have hswap : t.nearestCommon? a = (t.nearestCommon? · a) := funext (h.nearestCommon?_comm a)
  ext m
  rw [hswap, h.bind_nearestCommon?_eq_some, h.bind_nearestCommon?_eq_some]
  refine and_congr_right fun _ => forall_congr' fun z => ?_
  rw [and_assoc, and_comm (a := g.Dominates r z a), and_assoc]

theorem nearestCommon?_self (h : t.IsFor g r) (ha : t.isDefined a = true) :
    t.nearestCommon? a a = some a :=
  h.nearestCommon?_eq_some.2 ⟨h.isDefined_iff.1 ha, fun _ => and_self_iff.symm⟩

/-- The meets are those of dominance, however dominance is said. -/
theorem hasMeets (h : t.IsFor g r) {dom : α → α → Prop} (hdom : ∀ d n, dom d n ↔ g.Dominates r d n) :
    t.HasMeets dom where
  nodes n := by
    rw [hdom, h.isDefined_iff]
    exact ⟨.refl, fun hn => hn.1⟩
  outside _ _ := h.nearestCommon?_eq_none
  inside a b ha hb := by
    obtain ⟨m, hm, hat⟩ := h.exists_meetAt ha hb
    obtain ⟨hreach, hall⟩ := h.nearestCommon?_eq_some.1 hm
    obtain ⟨hma, hmb⟩ := (hall m).1 (.refl hreach)
    simp only [hdom]
    exact ⟨m, hm, hat.walk, hma, hmb, fun d hda hdb => (hall d).2 ⟨hda, hdb⟩⟩
  comm := h.nearestCommon?_comm
  assoc := h.nearestCommon?_assoc
  idem _ := h.nearestCommon?_self

/-! ### Up -/

theorem not_mem_dominators_parent (h : t.IsFor g r) (hl : t.parent? n = some l) (hn : n ≠ r) :
    n ∉ t.dominators l := by
  intro hmem
  have hnl := h.mem_dominators.1 hmem
  exact h.parent_ne hl hn ((h.dominates_of_parent hl).antisymm hnl)

theorem dominators_eq_nil (h : t.IsFor g r) (hn : ¬g.Reaches r n) : t.dominators n = [] :=
  List.eq_nil_iff_forall_not_mem.2 fun _ hz => hn (h.mem_dominators.1 hz).1

theorem head?_dominators (h : t.IsFor g r) (hn : g.Reaches r n) :
    (t.dominators n).head? = some n := by
  obtain ⟨l, hl⟩ := Option.isSome_iff_exists.1 (h.parent?_isSome hn)
  by_cases hnr : n = r
  · rw [hnr, h.dominators_root, List.head?_cons]
  · rw [h.dominators_eq_cons hl hnr, List.head?_cons]

theorem getLast?_dominators (h : t.IsFor g r) (hn : g.Reaches r n) :
    (t.dominators n).getLast? = some r := by
  refine h.climb (P := fun n => (t.dominators n).getLast? = some r) ?_ (fun n l hl hnr ih => ?_) hn
  · rw [h.dominators_root, List.getLast?_singleton]
  · rw [h.dominators_eq_cons hl hnr, List.getLast?_cons, ih]
    rfl

theorem nodup_dominators (h : t.IsFor g r) (n : α) : (t.dominators n).Nodup := by
  by_cases hn : g.Reaches r n
  · refine h.climb (P := fun n => (t.dominators n).Nodup) ?_ (fun n l hl hnr ih => ?_) hn
    · rw [h.dominators_root]
      exact List.nodup_singleton r
    · rw [h.dominators_eq_cons hl hnr]
      exact List.nodup_cons.2 ⟨h.not_mem_dominators_parent hl hnr, ih⟩
  · rw [h.dominators_eq_nil hn]
    exact List.nodup_nil

theorem isChain_dominators (h : t.IsFor g r) (n : α) :
    (t.dominators n).IsChain fun x y => t.parent? x = some y := by
  by_cases hn : g.Reaches r n
  · refine h.climb (P := fun n => (t.dominators n).IsChain fun x y => t.parent? x = some y) ?_
      (fun n l hl hnr ih => ?_) hn
    · rw [h.dominators_root]
      exact .singleton r
    · have hlreach : g.Reaches r l := (h.dominates_of_parent hl).reaches
      rw [h.dominators_eq_cons hl hnr, List.isChain_cons, h.head?_dominators hlreach]
      exact ⟨fun y hy => hl.trans hy, ih⟩
  · rw [h.dominators_eq_nil hn]
    exact .nil

/-! ### Down -/

theorem mem_children (h : t.IsFor g r) : b ∈ t.children a ↔ b ≠ r ∧ t.parent? b = some a := by
  rw [children, Digraph.mem_out, h.mem_arcs]

/-- Dominance is the way down the tree. -/
theorem reaches_graph_of_dominates (h : t.IsFor g r) (hab : g.Dominates r a b) :
    t.graph.Reaches a b := by
  refine h.climb (P := fun b => g.Dominates r a b → t.graph.Reaches a b) ?_
    (fun n l hl hnr ih han => ?_) hab.1 hab
  · intro har
    rw [har.eq_root]
    exact .refl r
  · by_cases hne : a = n
    · rw [hne]
      exact .refl n
    · exact .trans (ih (h.dominates_parent hl han hne)) (.of_arc (h.mem_arcs.2 ⟨hnr, hl⟩))

/-- Below a node is what it strictly dominates. -/
theorem mem_descendants (h : t.IsFor g r) : b ∈ t.descendants a ↔ a ≠ b ∧ g.Dominates r a b := by
  rw [descendants, Digraph.mem_reach]
  constructor
  · rintro ⟨x, hx, hxb⟩
    obtain ⟨hxr, hx⟩ := h.mem_children.1 hx
    have hax := h.dominates_of_parent hx
    have hxb := h.dominates_of_reaches hax.1 hxb
    refine ⟨?_, hax.trans hxb⟩
    rintro rfl
    exact h.parent_ne hx hxr (hax.antisymm hxb)
  · rintro ⟨hne, hab⟩
    obtain ⟨w, hw⟩ := h.reaches_graph_of_dominates hab
    cases hw with
    | single => exact absurd rfl hne
    | @cons _ x _ w harc hw => exact ⟨x, Digraph.mem_out.2 harc, w, hw⟩

/-- The worklist comes to a node by its parent, or because the node is one of the children to start
    with. -/
theorem parent_before_child (h : t.IsFor g r) (hx : x ∈ t.descendants a) (hyr : y ≠ r)
    (hy : t.parent? y = some x) : [x, y].Sublist (t.descendants a) := by
  obtain ⟨hax, hdom⟩ := h.mem_descendants.1 hx
  have hxy := h.dominates_of_parent hy
  have hmem : y ∈ t.descendants a := by
    refine h.mem_descendants.2 ⟨?_, hdom.trans hxy⟩
    rintro rfl
    exact hax (hdom.antisymm hxy)
  rcases Digraph.exists_earlier_predecessor hmem with hchild | ⟨p, harc, hp⟩
  · obtain ⟨_, hparent⟩ := h.mem_children.1 hchild
    rw [hy] at hparent
    exact absurd (Option.some.inj hparent).symm hax
  · obtain ⟨_, hparent⟩ := h.mem_arcs.1 harc
    rw [hy] at hparent
    cases hparent
    exact hp

/-! ### The post-order of the tree -/

theorem postOrder_eq (h : t.IsFor g r) : t.postOrder = t.graph.postOrder r := by
  rw [postOrder, h.tour_eq]
  rfl

theorem reaches_graph_iff (h : t.IsFor g r) : t.graph.Reaches r n ↔ g.Reaches r n :=
  ⟨fun hn => (h.dominates_of_reaches (.refl r) hn).1, h.reaches_graph⟩

theorem child_before_parent (h : t.IsFor g r) (hnr : n ≠ r) (hm : t.parent? n = some m) :
    [n, m].Sublist t.postOrder := by
  have hn : t.graph.Reaches r n := h.reaches_graph (h.reaches_of_parent hm)
  obtain ⟨p, harc, hp⟩ := Digraph.exists_later_predecessor hn hnr
  obtain ⟨_, hparent⟩ := h.mem_arcs.1 harc
  rw [hm] at hparent
  cases hparent
  rw [h.postOrder_eq]
  exact hp

theorem viewsAgree (h : t.IsFor g r) : t.ViewsAgree where
  dominators _ _ := by rw [h.dominates_iff, h.mem_dominators]
  descendants a b := by
    rw [strictlyDominates, Bool.and_eq_true, decide_eq_true_eq, h.dominates_iff, h.mem_descendants]
  children _ _ := by rw [h.root_eq, h.mem_children]
  up b := ⟨h.nodup_dominators b, h.isChain_dominators b⟩
  ends b := by
    rw [h.root_eq]
    split
    · rename_i hb
      have hreach := h.isDefined_iff.1 hb
      exact ⟨h.head?_dominators hreach, h.getLast?_dominators hreach⟩
    · rename_i hb
      rw [h.dominators_eq_nil (mt h.isDefined_iff.2 hb)]
      exact ⟨rfl, rfl⟩
  down a := by
    refine ⟨Digraph.nodup_reachFrom _ _ _, fun x hx y hyr hy => ?_⟩
    exact h.parent_before_child hx (h.root_eq ▸ hyr) hy
  postOrder := by
    refine ⟨h.postOrder_eq ▸ Digraph.nodup_postOrder _ _, fun n => ?_, fun n m hnr hm => ?_⟩
    · rw [h.postOrder_eq, Digraph.mem_postOrder, h.reaches_graph_iff, h.isDefined_iff]
    · exact h.child_before_parent (h.root_eq ▸ hnr) hm

end IsFor

end Dominance.DominatorTree

namespace Flow

/-- In both trees of a flow graph the nearest common dominator is the meet of dominance by paths, from the
    entry to a node and from a node to the exit. -/
theorem common_dominators_meet (c : Flow) :
    ∃ t p, c.dominatorTree = .ok t ∧ c.postDominatorTree = .ok p ∧
      t.HasMeets (c.graph.Dominates .entry) ∧ p.HasMeets (c.graph.PostDominates .exit) := by
  obtain ⟨t, ht, hfor⟩ := exists_build c.graph .entry
  obtain ⟨p, hp, hpfor⟩ := exists_build c.graph.flip .exit
  exact ⟨t, p, ht, hp, hfor.hasMeets fun _ _ => Iff.rfl,
    hpfor.hasMeets fun _ _ => Digraph.dominates_flip.symm⟩

/-- The views of each tree agree. The dominator tree has the nodes that the entry reaches and the entry as
    its root, the post-dominator tree has the nodes that reach the exit and the exit as its root. -/
theorem tree_views_agree (c : Flow) :
    ∃ t p, c.dominatorTree = .ok t ∧ c.postDominatorTree = .ok p ∧
      t.root = .entry ∧ (∀ n, t.isDefined n = true ↔ c.graph.Reaches .entry n) ∧ t.ViewsAgree ∧
      p.root = .exit ∧ (∀ n, p.isDefined n = true ↔ c.graph.Reaches n .exit) ∧ p.ViewsAgree := by
  obtain ⟨t, ht, hfor⟩ := exists_build c.graph .entry
  obtain ⟨p, hp, hpfor⟩ := exists_build c.graph.flip .exit
  refine ⟨t, p, ht, hp, hfor.root_eq, fun _ => hfor.isDefined_iff, hfor.viewsAgree, hpfor.root_eq,
    fun _ => ?_, hpfor.viewsAgree⟩
  rw [hpfor.isDefined_iff, Digraph.reaches_flip]

end Flow

end ProgDep
