import ProgDep.Proofs.FlowGraph
import ProgDep.Proofs.Search

/-! The two depth-first walks of a flow graph. One keeps on its stack the nodes that are open and the
    successors they have still to try, and marks a node when it is found; the other puts all successors on
    its stack and marks a node when it is taken from there, so a node may be on the stack several times.

    Both go through the tree of the recursive search: the first one writes a node down when it is done with
    the trees below it, the second one when it comes to it. So the first walk is a post-order and the second
    one a pre-order of one tree.

    The post-order is a numbering of the nodes in reach of the root: along an arc the numbers fall, unless
    there is a way back. -/

namespace ProgDep.Digraph

variable {α : Type} [DecidableEq α] {g : Digraph α} {r u v x y z : α}
  {bs fresh fresh' : List α} {es : List (Visit α)}

/-! ### Numbers along arcs -/

omit [DecidableEq α] in
/-- What comes before a member of a list comes before what follows that member. -/
theorem sublist_pair_trans {l : List α} (hl : l.Nodup) (hxy : [x, y].Sublist l)
    (hyz : [y, z].Sublist l) : [x, z].Sublist l := by
  obtain ⟨l₁, l₂, rfl, hx, hy⟩ := List.cons_sublist_iff.1 hxy
  have hy₁ : y ∉ l₁ := fun hm => (List.nodup_append.1 hl).2.2 y hm y (List.singleton_sublist.1 hy) rfl
  have hz : z ∈ l₂ := by
    obtain ⟨k₁, k₂, hk, hyk, hzk⟩ := List.cons_sublist_iff.1 hyz
    rcases List.append_eq_append_iff.1 hk with ⟨m, rfl, rfl⟩ | ⟨m, rfl, rfl⟩
    · exact List.mem_append_right m (List.singleton_sublist.1 hzk)
    · exact absurd (List.mem_append_left m hyk) hy₁
  exact (List.singleton_sublist.2 hx).append (List.singleton_sublist.2 hz)

/-- When a node is left all its successors have been entered, in this search or before it. -/
theorem Search.enter_before_leave (h : Search g fresh bs es fresh') (hx : .enter x ∈ es)
    (hy : y ∈ g.out x) : y ∉ fresh ∨ [.enter y, .leave x].Sublist es := by
  induction h with
  | done => exact absurd hx List.not_mem_nil
  | skip _ _ ih => exact ih hx
  | @visit b fresh bs mid fresh' es es' _ hs hs' ih ih' =>
    by_cases hfresh : y ∈ fresh
    swap
    · exact Or.inl hfresh
    right
    -- `y` is `b`, or it is entered inside the span of `b`, or it is not met until `b` is left
    have hsplit : y = b ∨ .enter y ∈ es ∨ y ∈ mid := by
      by_cases hyb : y = b
      · exact Or.inl hyb
      by_cases hmid : y ∈ mid
      · exact Or.inr (Or.inr hmid)
      · exact Or.inr (Or.inl (hs.enter_mem.2 ⟨mem_unmet.2 ⟨hfresh, by simpa using hyb⟩, hmid⟩))
    simp only [List.cons_append, List.mem_cons, List.mem_append, Visit.enter.injEq, reduceCtorEq,
      false_or] at hx
    have hleave : .leave x ∈ es ++ .leave b :: es' := by
      rcases hx with rfl | hx | hx
      · simp
      · simp [hs.leave_mem.2 hx]
      · simp [hs'.leave_mem.2 hx]
    rcases hsplit with rfl | hyes | hmid
    · exact (List.singleton_sublist.2 hleave).cons_cons _
    · rcases hx with rfl | hx | hx
      · have hpair := (List.singleton_sublist.2 hyes).append ((List.nil_sublist es').cons_cons (.leave x))
        exact hpair.cons _
      · have hunmet : y ∈ unmet fresh [b] := (hs.enter_mem.1 hyes).1
        have hinner := (ih hx).resolve_left (not_not_intro hunmet)
        exact (hinner.trans (List.sublist_append_left es _)).cons _
      · have hpair := (List.singleton_sublist.2 hyes).append
          ((List.singleton_sublist.2 (hs'.leave_mem.2 hx)).cons (.leave b))
        exact hpair.cons _
    · rcases hx with rfl | hx | hx
      · exact absurd hmid (hs.not_mem_fresh hy)
      · exact absurd hmid (hs.out_not_mem_fresh hx hy)
      · have hinner := (ih' hx).resolve_left (not_not_intro hmid)
        exact ((hinner.cons _).trans (List.sublist_append_right es _)).cons _

theorem enter_before_leave_tour (hu : g.Reaches r u) (harc : (u, v) ∈ g.arcs) :
    [.enter v, .leave u].Sublist (g.tour r) := by
  obtain ⟨_, hs⟩ := g.search_tour r
  have hfresh : v ∈ r :: unmet g.targets [r] := mem_fresh_of_arc r harc
  exact (hs.enter_before_leave (enter_mem_tour.2 hu) (mem_out.2 harc)).resolve_left (not_not_intro hfresh)

/-- Along an arc the number falls, or there is a way back. -/
theorem arc_postOrder (hu : g.Reaches r u) (harc : (u, v) ∈ g.arcs) :
    [v, u].Sublist (g.postOrder r) ∨ v = u ∨ ([u, v].Sublist (g.postOrder r) ∧ g.Reaches v u) := by
  by_cases hne : u = v
  · exact Or.inr (Or.inl hne.symm)
  obtain ⟨_, hs⟩ := g.search_tour r
  have hv : g.Reaches r v := hu.trans (.of_arc harc)
  have hmet := enter_before_leave_tour hu harc
  rcases hs.ahead_or (enter_mem_tour.2 hu) (enter_mem_tour.2 hv) hne with
    (hleft | ⟨hin, _⟩) | (hleft | ⟨hin, hback⟩)
  · -- `v` would have to be entered both before and after `u` is left
    have h₁ := idxOf_lt_of_sublist hs.nodup hleft
    have h₂ := idxOf_lt_of_sublist hs.nodup hmet
    omega
  · exact Or.inl (hin.filterMap Visit.left?)
  · have hpair := sublist_pair_trans hs.nodup hleft (hs.span (enter_mem_tour.2 hu))
    exact Or.inl (hpair.filterMap Visit.left?)
  · exact Or.inr (Or.inr ⟨hin.filterMap Visit.left?, hback⟩)

/-- The list numbers the nodes in reach of a root so that along an arc the numbers fall, unless there is a
    way back, and that every node but the root has a predecessor with a greater number. -/
structure Numbers (g : Digraph α) (r : α) (l : List α) : Prop where
  nodup : l.Nodup
  mem_iff : ∀ x, x ∈ l ↔ g.Reaches r x
  last : l.getLast? = some r
  arc : ∀ u v, g.Reaches r u → (u, v) ∈ g.arcs →
    [v, u].Sublist l ∨ v = u ∨ ([u, v].Sublist l ∧ g.Reaches v u)
  predecessor : ∀ x, g.Reaches r x → x ≠ r → ∃ p, (p, x) ∈ g.arcs ∧ [x, p].Sublist l

theorem numbers_postOrder (g : Digraph α) (r : α) : Numbers g r (g.postOrder r) where
  nodup := g.nodup_postOrder r
  mem_iff _ := mem_postOrder
  last := by
    obtain ⟨l, hl⟩ := g.exists_postOrder_eq r
    rw [hl, List.getLast?_concat]
  arc _ _ hu harc := arc_postOrder hu harc
  predecessor _ hx hne := exists_later_predecessor hx hne

/-! ### Both walks go through one tree -/

namespace Forest

omit [DecidableEq α] in
theorem filterMap_entered (t : Forest α) : t.visits.filterMap Visit.entered? = t.preOrder := by
  induction t with
  | nil => rfl
  | tree a below others ih ih' => simp [visits, preOrder, List.filterMap_cons, Visit.entered?, ih, ih']

omit [DecidableEq α] in
theorem perm_postOrder (t : Forest α) : t.preOrder.Perm t.postOrder := by
  induction t with
  | nil => exact .refl _
  | tree a below others ih ih' =>
    have hparts : (a :: (below.preOrder ++ others.preOrder)).Perm
        (a :: (below.postOrder ++ others.postOrder)) := (ih.append ih').cons a
    exact hparts.trans List.perm_middle.symm

end Forest

/-- The stack of nodes gives the trees of the first ones, each root first, and goes on with the others. -/
theorem reachFrom_append (g : Digraph α) (fresh bs stack : List α) :
    g.reachFrom fresh (bs ++ stack) = (g.explore fresh bs).preOrder ++
      g.reachFrom (unmet fresh (g.explore fresh bs).preOrder) stack := by
  fun_induction explore g fresh bs generalizing stack with
  | case1 fresh => rw [Forest.preOrder, unmet_nil]; rfl
  | case2 fresh b bs hb below ih ih' =>
    rw [List.cons_append, reachFrom, dif_pos hb, ih, unmet_unmet, List.singleton_append, ih', unmet_unmet]
    simp [Forest.preOrder, below]
  | case3 fresh b bs hb ih => rw [List.cons_append, reachFrom, dif_neg hb, ih]

/-- Only nodes in reach have to be told apart. -/
theorem explore_congr (g : Digraph α) (fresh bs : List α) : ∀ fresh' : List α,
    (∀ x, (∃ b ∈ bs, g.Reaches b x) → (x ∈ fresh ↔ x ∈ fresh')) →
      g.explore fresh bs = g.explore fresh' bs := by
  fun_induction explore g fresh bs with
  | case1 =>
    intro fresh' _
    rw [explore]
  | case2 fresh b bs hb below ih ih' =>
    intro fresh' h
    have hb' : b ∈ fresh' := (h b ⟨b, List.mem_cons_self, .refl b⟩).1 hb
    have hbelow : below = g.explore (unmet fresh' [b]) (g.out b) := by
      refine ih _ ?_
      rintro x ⟨z, hz, hx⟩
      simp only [mem_unmet, h x ⟨b, List.mem_cons_self, .trans (.of_arc (mem_out.1 hz)) hx⟩]
    rw [explore, dif_pos hb', ← hbelow]
    congr 1
    refine ih' _ ?_
    rintro x ⟨z, hz, hx⟩
    simp only [mem_unmet, h x ⟨z, List.mem_cons_of_mem b hz, hx⟩]
  | case3 fresh b bs hb ih =>
    intro fresh' h
    have hb' : b ∉ fresh' := mt (h b ⟨b, List.mem_cons_self, .refl b⟩).2 hb
    rw [explore, dif_neg hb']
    refine ih _ ?_
    rintro x ⟨z, hz, hx⟩
    exact h x ⟨z, List.mem_cons_of_mem b hz, hx⟩

section walks

variable (hroot : r ∈ fresh) (htargets : g.targets ⊆ fresh)

include hroot htargets

/-- Any list will do that has all nodes in it which can be met. -/
theorem explore_eq (fresh' : List α) (hroot' : r ∈ fresh') (htargets' : g.targets ⊆ fresh') :
    g.explore fresh' [r] = g.explore fresh [r] := by
  refine explore_congr g fresh' [r] fresh ?_
  rintro x ⟨b, hb, p, hp⟩
  rw [List.mem_singleton.1 hb] at hp
  rcases hp.eq_snoc with ⟨rfl, _⟩ | ⟨y, _, _, harc, _⟩
  · exact iff_of_true hroot' hroot
  · have hx : x ∈ g.targets := mem_distinct.2 (List.mem_map.2 ⟨_, harc, rfl⟩)
    exact iff_of_true (htargets' hx) (htargets hx)

/-- The walk that keeps open nodes on its stack. -/
theorem tour_eq : g.tour r = (g.explore fresh [r]).visits := by
  rw [tour_eq_visits, explore_eq hroot htargets _ List.mem_cons_self]
  intro x hx
  obtain ⟨e, he, rfl⟩ := List.mem_map.1 (mem_distinct.1 hx)
  exact mem_fresh_of_arc r he

/-- The walk that keeps all successors on its stack. -/
theorem reach_eq_preOrder : g.reach [r] = (g.explore fresh [r]).preOrder := by
  have hreach := g.reachFrom_append (distinct ([r] ++ g.targets)) [r] []
  rw [List.append_nil, reachFrom, List.append_nil] at hreach
  rw [reach, hreach, explore_eq hroot htargets _ (by simp)]
  exact fun x hx => mem_distinct.2 (List.mem_append_right _ hx)

end walks

end ProgDep.Digraph

namespace ProgDep

/-- Depth-first post-order numbers the nodes of every graph, from every root and for every order of the
    arcs. So the post-order of a flow graph from back to front has both ends of an arc in the order of the
    arc, if no way leads back. -/
theorem postOrder_numbers :
    (∀ {α : Type} [DecidableEq α] (g : Digraph α) (r : α), g.Numbers r (g.postOrder r)) ∧
      ∀ (c : Flow) (u v : Node), c.isReachable u = true → c.hasEdge u v = true → ¬c.graph.Reaches v u →
        [u, v].Sublist c.reversePostOrder := by
  refine ⟨fun g r => g.numbers_postOrder r, fun c u v hu harc hback => ?_⟩
  have hu : c.graph.Reaches .entry u := Digraph.mem_postOrder.1 (of_decide_eq_true hu)
  have hpair : [v, u].Sublist c.postOrder := by
    rcases Digraph.arc_postOrder hu (of_decide_eq_true harc) with h | rfl | ⟨_, h⟩
    · exact h
    · exact absurd (.refl v) hback
    · exact absurd h hback
  exact hpair.reverse

/-- No way leads back from the block after a loop, though the loop leads back to itself. -/
theorem postOrder_numbers_restless :
    ¬Restless.flow.graph.Reaches (.block Restless.done) (.block Restless.loop) ∧
      [.block Restless.loop, .block Restless.done].Sublist Restless.flow.reversePostOrder := by
  have hback : ¬Restless.flow.graph.Reaches (.block Restless.done) (.block Restless.loop) := by
    intro h
    have hmem := Digraph.mem_reach.2 ⟨_, List.mem_singleton_self _, h⟩
    have hreach : Restless.flow.graph.reach [.block Restless.done] = [.block Restless.done, .exit] := by
      cbv
    rw [hreach] at hmem
    exact absurd hmem (by decide)
  have hreachable : Restless.flow.isReachable (.block Restless.loop) = true := by cbv
  exact ⟨hback, postOrder_numbers.2 Restless.flow _ _ hreachable (by decide) hback⟩

namespace Flow

variable {f : Function} {c : Flow}

theorem targets_subset_nodes (h : build f = .ok c) : c.graph.targets ⊆ c.nodes := by
  intro n hn
  obtain ⟨⟨u, v⟩, harc, rfl⟩ := List.mem_map.1 (mem_distinct.1 hn)
  cases v with
  | entry => exact List.mem_cons_self
  | exit => exact List.mem_append_right _ (List.mem_singleton_self _)
  | block b =>
    obtain ⟨b', hb', rfl⟩ := List.mem_map.1 (mem_blocks_of_arc h harc)
    exact List.mem_append_left _ (List.mem_cons_of_mem _ (List.mem_map.2 ⟨b', hb', rfl⟩))

/-- The two walks go through the tree of the recursive search from the entry, in which no node has been met
    at the start. One gives its pre-order, which is the order in which the other meets the nodes, and
    the other gives its post-order. -/
theorem walks_share_tree (h : build f = .ok c) :
    (∃ below, c.graph.explore c.nodes [.entry] = .tree .entry below .nil) ∧
      c.preOrder = (c.graph.explore c.nodes [.entry]).preOrder ∧
      c.postOrder = (c.graph.explore c.nodes [.entry]).postOrder ∧
      c.preOrder = (c.graph.tour .entry).filterMap Digraph.Visit.entered? ∧
      c.preOrder.Perm c.postOrder ∧ c.preOrder.Nodup := by
  have hroot : .entry ∈ c.nodes := List.mem_cons_self
  have htargets := targets_subset_nodes h
  have hpre : c.preOrder = (c.graph.explore c.nodes [.entry]).preOrder :=
    Digraph.reach_eq_preOrder hroot htargets
  have htour := Digraph.tour_eq hroot htargets
  have hpost : c.postOrder = (c.graph.explore c.nodes [.entry]).postOrder := by
    rw [postOrder, Digraph.postOrder, htour, Digraph.Forest.filterMap_left]
  refine ⟨⟨_, Digraph.explore_root c.graph hroot⟩, hpre, hpost, ?_, ?_, c.graph.nodup_reachFrom _ _⟩
  · rw [hpre, htour, Digraph.Forest.filterMap_entered]
  · rw [hpre, hpost]
    exact Digraph.Forest.perm_postOrder _

/-- A loop is met before the block after it and left after that. -/
theorem walks_share_tree_restless : build Restless.function = .ok Restless.flow ∧
    Restless.flow.preOrder = (Restless.flow.graph.explore Restless.flow.nodes [.entry]).preOrder ∧
      Restless.flow.postOrder = (Restless.flow.graph.explore Restless.flow.nodes [.entry]).postOrder ∧
      Restless.flow.preOrder = [.entry, .block Restless.start, .block Restless.loop, .block Restless.done,
        .exit, .block Restless.spin] ∧
      Restless.flow.postOrder = [.exit, .block Restless.done, .block Restless.loop, .block Restless.spin,
        .block Restless.start, .entry] := by
  obtain ⟨_, hpre, hpost, _⟩ := walks_share_tree Restless.build_function
  exact ⟨Restless.build_function, hpre, hpost, by cbv, by cbv⟩

end Flow

end ProgDep
